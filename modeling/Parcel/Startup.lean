import Parcel.Arguments
import Parcel.Options

/-!
# Starting the programs

What the two programs do with the options of their command lines. An accepted string is
copied over the ones before it, so an option that is given again can leave a part of the
earlier string behind it.
-/

namespace Parcel
open ByteStrings BoundedReads CommandLine

/-- The array after the strings were copied to its front, one after another. -/
def overlay (array : List UInt8) (copies : List (List UInt8)) : List UInt8 :=
  copies.foldl (fun mem s => s ++ mem.drop s.length) array

/-- The last copy that reaches a place, or the array before. -/
def covering (array : List UInt8) (copies : List (List UInt8)) (i : ℕ) : List UInt8 :=
  (copies.reverse.find? fun s => i < s.length).getD array

section

variable {array s : List UInt8} {copies : List (List UInt8)}

theorem overlay_concat (array s : List UInt8) (copies : List (List UInt8)) :
    overlay array (copies ++ [s]) = s ++ (overlay array copies).drop s.length := by
  rw [overlay, List.foldl_append, ← overlay]
  rfl

theorem overlay_getElem? (array : List UInt8) (copies : List (List UInt8)) (i : ℕ) :
    (overlay array copies)[i]? = (covering array copies i)[i]? := by
  induction copies using List.reverseRecOn with
  | nil => rfl
  | append_singleton copies s ih =>
    rw [overlay_concat, covering, List.reverse_append, List.reverse_singleton,
      List.singleton_append, List.find?_cons]
    by_cases hi : i < s.length
    · rw [List.getElem?_append_left hi, decide_eq_true hi, Option.getD_some]
    · rw [List.getElem?_append_right (not_lt.mp hi), List.getElem?_drop,
        Nat.add_sub_cancel' (not_lt.mp hi), decide_eq_false hi, ih]
      rfl

theorem overlay_length (h : ∀ s ∈ copies, s.length ≤ array.length) :
    (overlay array copies).length = array.length := by
  induction copies using List.reverseRecOn with
  | nil => rfl
  | append_singleton copies s ih =>
    obtain ⟨hcopies, hs⟩ := List.forall_mem_append.mp h
    have hle := List.forall_mem_singleton.mp hs
    rw [overlay_concat, List.length_append, List.length_drop, ih hcopies]
    omega

/-- Copies of strings are shorter than the place, or cover it with a byte that is no NUL. -/
theorem overlay_eq_zero_iff (h : ∀ s ∈ copies, 0 ∉ s) (i : ℕ) :
    (overlay array copies)[i]? = some 0 ↔ (∀ s ∈ copies, s.length ≤ i) ∧ array[i]? = some 0 := by
  induction copies using List.reverseRecOn with
  | nil => simp [overlay]
  | append_singleton copies s ih =>
    obtain ⟨hcopies, hs⟩ := List.forall_mem_append.mp h
    have hnul := List.forall_mem_singleton.mp hs
    rw [overlay_concat, List.forall_mem_append, List.forall_mem_singleton]
    by_cases hi : i < s.length
    · rw [List.getElem?_append_left hi]
      refine iff_of_false (fun hzero => hnul (List.mem_of_getElem? hzero)) ?_
      exact fun hall => absurd hall.1.2 (not_le.mpr hi)
    · rw [List.getElem?_append_right (not_lt.mp hi), List.getElem?_drop,
        Nat.add_sub_cancel' (not_lt.mp hi), ih hcopies]
      exact and_congr_left fun _ => (and_iff_left (not_lt.mp hi)).symm

theorem stored_overlay_covering (array : List UInt8) (hs : 0 ∉ s)
    (hfit : ∀ e ∈ copies ++ [s], e.length ≤ array.length) :
    Stored array.length (some (overlay array (copies ++ [s]))) s ↔
      (covering array copies s.length)[s.length]? = some 0 := by
  have hmem : s ∈ copies ++ [s] := List.mem_append_right copies (List.mem_singleton_self s)
  have hshort (e : List UInt8) (he : e ∈ copies) := hfit e (List.mem_append_left [s] he)
  have hwrite : writeAt (overlay array copies) 0 s = some (overlay array (copies ++ [s])) := by
    rw [writeAt, if_pos, overlay_concat, Nat.zero_add]
    · rfl
    · rw [overlay_length hshort, Nat.zero_add]
      exact hfit s hmem
  rw [← hwrite, ← overlay_length hshort, stored_writeAt_iff hs, overlay_getElem?]

theorem stored_overlay_iff (array : List UInt8) (hnul : ∀ e ∈ copies ++ [s], 0 ∉ e)
    (hfit : ∀ e ∈ copies ++ [s], e.length ≤ array.length) :
    Stored array.length (some (overlay array (copies ++ [s]))) s ↔
      (∀ e ∈ copies, e.length ≤ s.length) ∧ array[s.length]? = some 0 := by
  have hs : 0 ∉ s := hnul s (List.mem_append_right copies (List.mem_singleton_self s))
  have hcopies (e : List UInt8) (he : e ∈ copies) := hnul e (List.mem_append_left [s] he)
  rw [stored_overlay_covering array hs hfit, ← overlay_getElem?, overlay_eq_zero_iff hcopies]

end

/-- The arrays that the options of `parcel` fill. -/
structure ParcelSettings where
  address : List UInt8
  port : List UInt8
  username : List UInt8

def ParcelSettings.start : ParcelSettings :=
  ⟨zeroArray addressMaxLength, defaultPort, zeroArray usernameMaxLength⟩

/-- The function `xgetlogin`: the login name with its NUL, if there is one and it fits. -/
def xgetlogin (login : Option (List UInt8)) (username : List UInt8) : Option (List UInt8) :=
  match login with
  | none => some username
  | some name =>
    if name.length < usernameMaxLength then writeAt username 0 (name ++ [0]) else some username

/-- The option string `lha:p:u:`. -/
def parcelOptstr : List UInt8 := [0x6c, 0x68, 0x61, 0x3a, 0x70, 0x3a, 0x75, 0x3a]

def Ended.ofOption {σ : Type} (x : Option σ) : Ended σ := x.elim .fault .finished

/-- The body of the loop in the `main` of `parcel`. -/
def parcelOption (login : Option (List UInt8)) (s : ParcelSettings) (opt : ℤ)
    (arg : Option (List UInt8)) : Ended ParcelSettings :=
  if opt = charValue 0x61 then
    .ofOption do return { s with address := ← parcelAddress s.address (← arg) }
  else if opt = charValue 0x70 then
    .ofOption do return { s with port := ← parcelPort s.port (← arg) }
  else if opt = charValue 0x75 then
    .ofOption do return { s with username := ← parcelUsername s.username (← arg) }
  else if opt = charValue 0x6c then
    .ofOption do return { s with username := ← xgetlogin login s.username }
  else if opt = charValue 0x68 then .returned 0
  else if opt = colon then .returned (-1)
  else .returned (-1)

/-- What the options of `parceld` set. -/
structure ParceldSettings where
  serverPort : List UInt8
  maxQueue : ℕ

def maxQueueLimit : ℕ := 32

def ParceldSettings.start : ParceldSettings := ⟨defaultPort, maxQueueLimit⟩

/-- The option string `hvp:q:`. -/
def parceldOptstr : List UInt8 := [0x68, 0x76, 0x70, 0x3a, 0x71, 0x3a]

/-- The body of the loop in the `main` of `parceld`. -/
def parceldOption (s : ParceldSettings) (opt : ℤ) (arg : Option (List UInt8)) :
    Ended ParceldSettings :=
  if opt = charValue 0x70 then
    .ofOption do return { s with serverPort := ← parceldPort s.serverPort (← arg) }
  else if opt = charValue 0x71 then
    .ofOption do
      match xstrrange (← arg) 0 maxQueueLimit with
      | some n => return { s with maxQueue := n.toNat }
      | none => return s
  else if opt = charValue 0x68 then .returned 0
  else if opt = charValue 0x76 then .returned 0
  else if opt = colon then .returned 1
  else .returned (-1)

/-! ## What the options copy -/

/-- An array after copies to its front that may not go past its end. -/
def copyInto (array : List UInt8) (copies : List (List UInt8)) : Option (List UInt8) :=
  copies.foldlM (fun mem s => writeAt mem 0 s) array

theorem copyInto_append (array : List UInt8) (copies more : List (List UInt8)) :
    copyInto array (copies ++ more) = (copyInto array copies).bind (copyInto · more) :=
  List.foldlM_append

theorem copyInto_singleton (array s : List UInt8) : copyInto array [s] = writeAt array 0 s := by
  rw [copyInto, List.foldlM_cons]
  cases writeAt array 0 s <;> rfl

theorem copyInto_eq (array : List UInt8) (copies : List (List UInt8)) :
    copyInto array copies =
      if ∀ s ∈ copies, s.length ≤ array.length then some (overlay array copies) else none := by
  induction copies using List.reverseRecOn with
  | nil => rfl
  | append_singleton copies s ih =>
    rw [copyInto_append, ih]
    by_cases hcopies : ∀ e ∈ copies, e.length ≤ array.length
    · rw [if_pos hcopies, Option.bind_some, copyInto_singleton, writeAt, overlay_length hcopies,
        Nat.zero_add]
      by_cases hs : s.length ≤ array.length
      · rw [if_pos hs, if_pos, overlay_concat]
        · rfl
        · exact List.forall_mem_append.mpr ⟨hcopies, List.forall_mem_singleton.mpr hs⟩
      · rw [if_neg hs, if_neg]
        exact fun hall => hs (hall s (List.mem_append_right _ (List.mem_singleton_self s)))
    · rw [if_neg hcopies, if_neg]
      · rfl
      · exact fun hall => hcopies fun e he => hall e (List.mem_append_left [s] he)

/-- The accepted arguments of the options with the letter `c`. -/
def acceptedBy (c : UInt8) (accepts : List UInt8 → Bool) : Item UInt8 → List (List UInt8)
  | .argument b word => if b = c ∧ accepts word then [word] else []
  | .flag _ => []

def addressCopies : Item UInt8 → List (List UInt8) :=
  acceptedBy 0x61 fun word => word.length < addressMaxLength

def portCopies : Item UInt8 → List (List UInt8) := acceptedBy 0x70 acceptsPort

/-- The name that the system has for the user, with its NUL, or the argument of `-u`. -/
def usernameCopies (login : Option (List UInt8)) : Item UInt8 → List (List UInt8)
  | .flag c =>
    if c = 0x6c then
      (login.toList.filter fun name => name.length < usernameMaxLength).map (· ++ [0])
    else []
  | item => acceptedBy 0x75 (fun word => word.length < usernameMaxLength) item

/-- The options at which `main` returns. -/
def parcelExit : Item UInt8 → Option ℤ
  | .flag c => if c = 0x68 then some 0 else if c = 0x3a then some (-1) else none
  | .argument .. => none

def parcelEffect (login : Option (List UInt8)) (s : ParcelSettings) (item : Item UInt8) :
    Option ParcelSettings := do
  let address ← copyInto s.address (addressCopies item)
  let port ← copyInto s.port (portCopies item)
  let username ← copyInto s.username (usernameCopies login item)
  return ⟨address, port, username⟩

theorem parcelOption_returns (login : Option (List UInt8)) :
    ReturnsOnError (parcelOption login) := fun _ _ => ⟨⟨-1, rfl⟩, -1, rfl⟩

theorem copyInto_acceptedBy (array word : List UInt8) (c : UInt8) (accepts : List UInt8 → Bool) :
    copyInto array (acceptedBy c accepts (.argument c word)) =
      copyAccepted (accepts word) array word := by
  rw [acceptedBy, copyAccepted]
  cases accepts word with
  | false => simp [copyInto]
  | true => simp [copyInto_singleton]

theorem acceptedBy_of_ne {b c : UInt8} (h : b ≠ c) (accepts : List UInt8 → Bool)
    (word : List UInt8) : acceptedBy c accepts (.argument b word) = [] := by
  rw [acceptedBy, if_neg (not_and_of_not_left _ h)]

theorem copyInto_login (login : Option (List UInt8)) (array : List UInt8) :
    copyInto array (usernameCopies login (.flag 0x6c)) = xgetlogin login array := by
  cases login with
  | none => rfl
  | some name =>
    rw [usernameCopies, if_pos rfl, xgetlogin]
    by_cases hname : name.length < usernameMaxLength
    · simp [hname, copyInto_singleton]
    · simp [hname, copyInto]

theorem parcelOption_flag (login : Option (List UInt8)) {c : UInt8}
    (h : (optionGrammar parcelOptstr).takes c = some false) (s : ParcelSettings)
    (arg : Option (List UInt8)) :
    parcelOption login s (charValue c) arg =
      match parcelExit (.flag c) with
      | some code => .returned code
      | none => .ofOption (parcelEffect login s (.flag c)) := by
  have hmem := mem_of_takes h
  simp only [parcelOptstr, List.mem_cons, List.not_mem_nil, or_false] at hmem
  obtain rfl | rfl | rfl | rfl | rfl | rfl | rfl | rfl := hmem
  · have heffect : parcelEffect login s (.flag 0x6c) =
        (xgetlogin login s.username).bind fun username => some { s with username := username } := by
      rw [parcelEffect, copyInto_login]
      cases xgetlogin login s.username <;> rfl
    rw [heffect]
    rfl
  · rfl
  · exact absurd h (by decide)
  · rfl
  · exact absurd h (by decide)
  · rfl
  · exact absurd h (by decide)
  · rfl

theorem parcelOption_argument (login : Option (List UInt8)) {c : UInt8}
    (h : (optionGrammar parcelOptstr).takes c = some true) (s : ParcelSettings)
    (word : List UInt8) :
    parcelOption login s (charValue c) (some word) =
      .ofOption (parcelEffect login s (.argument c word)) := by
  have hmem := mem_of_takes h
  simp only [parcelOptstr, List.mem_cons, List.not_mem_nil, or_false] at hmem
  obtain rfl | rfl | rfl | rfl | rfl | rfl | rfl | rfl := hmem
  · exact absurd h (by decide)
  · exact absurd h (by decide)
  · have heffect : parcelEffect login s (.argument 0x61 word) =
        (parcelAddress s.address word).bind fun address => some { s with address := address } := by
      rw [parcelEffect, addressCopies, copyInto_acceptedBy, ← parcelAddress, portCopies,
        acceptedBy_of_ne (by decide)]
      cases parcelAddress s.address word <;> rfl
    rw [heffect]
    rfl
  · exact absurd h (by decide)
  · have heffect : parcelEffect login s (.argument 0x70 word) =
        (parcelPort s.port word).bind fun port => some { s with port := port } := by
      rw [parcelEffect, addressCopies, acceptedBy_of_ne (by decide), portCopies,
        copyInto_acceptedBy, ← parcelPort]
      cases parcelPort s.port word <;> rfl
    rw [heffect]
    rfl
  · exact absurd h (by decide)
  · have heffect : parcelEffect login s (.argument 0x75 word) =
        (parcelUsername s.username word).bind fun username =>
          some { s with username := username } := by
      rw [parcelEffect, addressCopies, acceptedBy_of_ne (by decide), portCopies,
        acceptedBy_of_ne (by decide), usernameCopies, copyInto_acceptedBy, ← parcelUsername]
      · cases parcelUsername s.username word <;> rfl
      · exact fun c hc => by cases hc
    rw [heffect]
    rfl
  · exact absurd h (by decide)

theorem parcelOption_handles (login : Option (List UInt8)) :
    Handles (parcelOption login) parcelExit (parcelEffect login)
      (Item.Known (optionGrammar parcelOptstr)) := by
  intro s arg item hknown
  cases item with
  | flag c => exact parcelOption_flag login hknown s arg
  | argument c word => exact parcelOption_argument login hknown s word

theorem parcelEffect_foldlM (login : Option (List UInt8)) (items : List (Item UInt8))
    (s : ParcelSettings) : items.foldlM (parcelEffect login) s = do
      let address ← copyInto s.address (items.flatMap addressCopies)
      let port ← copyInto s.port (items.flatMap portCopies)
      let username ← copyInto s.username (items.flatMap (usernameCopies login))
      return ⟨address, port, username⟩ := by
  induction items generalizing s with
  | nil => rfl
  | cons item items ih =>
    simp only [List.foldlM_cons, List.flatMap_cons, copyInto_append, parcelEffect,
      Option.bind_eq_bind]
    cases copyInto s.address (addressCopies item) with
    | none => rfl
    | some address =>
      cases copyInto s.port (portCopies item) with
      | none => simp
      | some port =>
        cases copyInto s.username (usernameCopies login item) with
        | none => simp
        | some username => simpa using ih ⟨address, port, username⟩

def queueOf : Item UInt8 → Option ℕ
  | .argument c word =>
    if c = 0x71 then (xstrrange word 0 maxQueueLimit).map Int.toNat else none
  | .flag _ => none

def parceldExit : Item UInt8 → Option ℤ
  | .flag c => if c = 0x68 ∨ c = 0x76 then some 0 else if c = 0x3a then some 1 else none
  | .argument .. => none

def parceldEffect (s : ParceldSettings) (item : Item UInt8) : Option ParceldSettings :=
  (copyInto s.serverPort (portCopies item)).map fun serverPort =>
    ⟨serverPort, (queueOf item).getD s.maxQueue⟩

theorem parceldOption_returns : ReturnsOnError parceldOption := fun _ _ => ⟨⟨-1, rfl⟩, 1, rfl⟩

theorem parceldOption_handles :
    Handles parceldOption parceldExit parceldEffect (Item.Known (optionGrammar parceldOptstr)) := by
  intro s arg item hknown
  -- a letter of the option string, the colons included
  have hmem (c : UInt8) (b : Bool) (h : (optionGrammar parceldOptstr).takes c = some b) :
      c = 0x68 ∨ c = 0x76 ∨ c = 0x70 ∨ c = 0x3a ∨ c = 0x71 ∨ c = 0x3a := by
    simpa [parceldOptstr] using mem_of_takes h
  cases item with
  | flag c =>
    have h : (optionGrammar parceldOptstr).takes c = some false := hknown
    obtain rfl | rfl | rfl | rfl | rfl | rfl := hmem c false h
    · rfl
    · rfl
    · exact absurd h (by decide)
    · rfl
    · exact absurd h (by decide)
    · rfl
  | argument c word =>
    have h : (optionGrammar parceldOptstr).takes c = some true := hknown
    obtain rfl | rfl | rfl | rfl | rfl | rfl := hmem c true h
    · exact absurd h (by decide)
    · exact absurd h (by decide)
    · have heffect : parceldEffect s (.argument 0x70 word) =
          (parceldPort s.serverPort word).bind fun port => some { s with serverPort := port } := by
        rw [parceldEffect, portCopies, copyInto_acceptedBy, ← parceldPort]
        cases parceldPort s.serverPort word <;> rfl
      rw [heffect]
      rfl
    · exact absurd h (by decide)
    · have heffect : parceldEffect s (.argument 0x71 word) =
          match xstrrange word 0 maxQueueLimit with
          | some n => some { s with maxQueue := n.toNat }
          | none => some s := by
        rw [parceldEffect, portCopies, acceptedBy_of_ne (by decide), queueOf, if_pos rfl]
        cases xstrrange word 0 maxQueueLimit <;> rfl
      rw [heffect]
      rfl
    · exact absurd h (by decide)

theorem parceldEffect_foldlM (items : List (Item UInt8)) (s : ParceldSettings) :
    items.foldlM parceldEffect s =
      (copyInto s.serverPort (items.flatMap portCopies)).map fun serverPort =>
        ⟨serverPort, (items.filterMap queueOf).getLastD s.maxQueue⟩ := by
  induction items generalizing s with
  | nil => rfl
  | cons item items ih =>
    simp only [List.foldlM_cons, List.flatMap_cons, copyInto_append, parceldEffect,
      Option.bind_eq_bind, List.filterMap_cons]
    cases copyInto s.serverPort (portCopies item) with
    | none => rfl
    | some serverPort =>
      cases hqueue : queueOf item with
      | none => simpa [hqueue] using ih ⟨serverPort, s.maxQueue⟩
      | some n =>
        simp only [Option.map_some, Option.bind_some, Option.getD_some, List.getLastD_cons]
        exact ih ⟨serverPort, n⟩

/-! ## The loops -/

/-- The options of a command line, behind the name of the program. -/
def optionsOf (optstr : List UInt8) (argv : List (List UInt8)) : Parsed UInt8 :=
  parse (optionGrammar optstr) argv.tail

def parcelSettings (login : Option (List UInt8)) (items : List (Item UInt8)) : ParcelSettings where
  address := overlay (zeroArray addressMaxLength) (items.flatMap addressCopies)
  port := overlay defaultPort (items.flatMap portCopies)
  username := overlay (zeroArray usernameMaxLength) (items.flatMap (usernameCopies login))

def parceldSettings (items : List (Item UInt8)) : ParceldSettings where
  serverPort := overlay defaultPort (items.flatMap portCopies)
  maxQueue := (items.filterMap queueOf).getLastD maxQueueLimit

def PortsFit (items : List (Item UInt8)) : Prop :=
  ∀ word ∈ items.flatMap portCopies, word.length ≤ portMaxLength

instance (items : List (Item UInt8)) : Decidable (PortsFit items) :=
  inferInstanceAs (Decidable (∀ _ ∈ _, _))

section

variable {login : Option (List UInt8)} {items : List (Item UInt8)}

theorem acceptedBy_spec {c : UInt8} {accepts : List UInt8 → Bool} {word : List UInt8}
    (h : word ∈ items.flatMap (acceptedBy c accepts)) :
    .argument c word ∈ items ∧ accepts word = true := by
  obtain ⟨item, hitem, hword⟩ := List.mem_flatMap.mp h
  cases item with
  | flag b => exact absurd hword List.not_mem_nil
  | argument b arg =>
    rw [acceptedBy] at hword
    split at hword
    · rename_i haccepts
      obtain ⟨rfl, haccepts⟩ := haccepts
      rw [List.mem_singleton.mp hword]
      exact ⟨hitem, haccepts⟩
    · exact absurd hword List.not_mem_nil

theorem addressCopies_length : ∀ word ∈ items.flatMap addressCopies, word.length < 32 :=
  fun _ h => of_decide_eq_true (acceptedBy_spec h).2

theorem usernameCopies_length :
    ∀ word ∈ items.flatMap (usernameCopies login), word.length ≤ usernameMaxLength := by
  intro word h
  obtain ⟨item, -, hword⟩ := List.mem_flatMap.mp h
  cases item with
  | flag c =>
    rw [usernameCopies] at hword
    split at hword
    · obtain ⟨name, hname, rfl⟩ := List.mem_map.mp hword
      have hlt := of_decide_eq_true (List.mem_filter.mp hname).2
      rw [List.length_append, List.length_singleton]
      exact hlt
    · exact absurd hword List.not_mem_nil
  | argument c arg =>
    have hmem : word ∈ [Item.argument c arg].flatMap
        (acceptedBy 0x75 fun word => word.length < usernameMaxLength) := by
      rw [List.flatMap_singleton]
      exact hword
    exact le_of_lt (of_decide_eq_true (acceptedBy_spec hmem).2)

theorem copyInto_port (items : List (Item UInt8)) :
    copyInto defaultPort (items.flatMap portCopies) =
      if PortsFit items then some (overlay defaultPort (items.flatMap portCopies)) else none := by
  rw [copyInto_eq]
  by_cases hports : PortsFit items
  · rw [if_pos hports]
    exact if_pos hports
  · rw [if_neg hports]
    exact if_neg hports

theorem parcelEffect_start (login : Option (List UInt8)) (items : List (Item UInt8)) :
    items.foldlM (parcelEffect login) .start =
      if PortsFit items then some (parcelSettings login items) else none := by
  have haddress : copyInto (zeroArray addressMaxLength) (items.flatMap addressCopies) =
      some (overlay (zeroArray addressMaxLength) (items.flatMap addressCopies)) := by
    rw [copyInto_eq, if_pos]
    exact fun word h => le_of_lt (addressCopies_length word h)
  have husername : copyInto (zeroArray usernameMaxLength) (items.flatMap (usernameCopies login)) =
      some (overlay (zeroArray usernameMaxLength) (items.flatMap (usernameCopies login))) := by
    rw [copyInto_eq, if_pos]
    exact usernameCopies_length
  rw [parcelEffect_foldlM, ParcelSettings.start]
  dsimp only
  rw [haddress, husername, copyInto_port]
  split
  · rfl
  · rfl

theorem parceldEffect_start (items : List (Item UInt8)) :
    items.foldlM parceldEffect .start =
      if PortsFit items then some (parceldSettings items) else none := by
  rw [parceldEffect_foldlM, ParceldSettings.start]
  dsimp only
  rw [copyInto_port]
  split
  · rfl
  · rfl

end

theorem optionLoop_ended {σ : Type} {body : σ → ℤ → Option (List UInt8) → Ended σ}
    {exit : Item UInt8 → Option ℤ} {effect : σ → Item UInt8 → Option σ} {start : σ}
    {settings : List (Item UInt8) → σ} {optstr : List UInt8} {argv : List (List UInt8)}
    (hbody : ReturnsOnError body)
    (hhandles : Handles body exit effect (Item.Known (optionGrammar optstr)))
    (hstart : ∀ items, items.foldlM effect start =
      if PortsFit items then some (settings items) else none)
    (hargv : ∀ w ∈ argv, 0 ∉ w) (hoptstr : ∀ c ∈ optstr, c < 0x80) {fuel : ℕ}
    (hfuel : (optionsOf optstr argv).items.length < fuel) :
    ∃ ended, optionLoop argv optstr body fuel ⟨none, 0, 0, 0⟩ start = some ended ∧
      (ended = .fault ↔
        ¬PortsFit ((optionsOf optstr argv).items.takeWhile fun item => (exit item).isNone)) ∧
      ∀ s, ended = .finished s ↔ (optionsOf optstr argv).stop = .operands ∧
        (∀ item ∈ (optionsOf optstr argv).items, exit item = none) ∧
        PortsFit (optionsOf optstr argv).items ∧ s = settings (optionsOf optstr argv).items := by
  have hknown : ∀ item ∈ (optionsOf optstr argv).items, item.Known (optionGrammar optstr) :=
    parse_known argv.tail
  refine ⟨_, optionLoop_parse hbody hargv hoptstr start hfuel, ?_, fun s => ?_⟩
  · rw [← optionsOf, foldOptions_fault_iff hbody hhandles hknown none start, hstart]
    split
    · rename_i hports
      exact iff_of_false (by simp) (not_not.mpr hports)
    · rename_i hports
      exact iff_of_true rfl hports
  · rw [← optionsOf, foldOptions_finished_iff hbody hhandles hknown none start s, hstart]
    split
    · rename_i hports
      rw [Option.some.injEq, eq_comm (b := s)]
      simp [hports]
    · rename_i hports
      simp [hports]

/-- The loop of `parcel` writes past the array of the port exactly when a port that is longer
than the array is accepted before an option at which the program returns. It goes on to the
connection exactly when it meets no such option and no error, with the arrays that the
accepted arguments were copied over in their order. -/
theorem parcel_options (login : Option (List UInt8)) (argv : List (List UInt8))
    (hargv : ∀ w ∈ argv, 0 ∉ w) {fuel : ℕ}
    (hfuel : (optionsOf parcelOptstr argv).items.length < fuel) :
    ∃ ended, optionLoop argv parcelOptstr (parcelOption login) fuel ⟨none, 0, 0, 0⟩ .start =
        some ended ∧
      (ended = .fault ↔ ¬PortsFit
        ((optionsOf parcelOptstr argv).items.takeWhile fun item => (parcelExit item).isNone)) ∧
      ∀ s, ended = .finished s ↔ (optionsOf parcelOptstr argv).stop = .operands ∧
        (∀ item ∈ (optionsOf parcelOptstr argv).items, parcelExit item = none) ∧
        PortsFit (optionsOf parcelOptstr argv).items ∧
        s = parcelSettings login (optionsOf parcelOptstr argv).items := by
  have hoptstr : ∀ c ∈ parcelOptstr, c < 0x80 := by simp [parcelOptstr]
  exact optionLoop_ended (parcelOption_returns login) (parcelOption_handles login)
    (parcelEffect_start login) hargv hoptstr hfuel

/-- The command line `p -p 0000080`, of which the port is 80. -/
theorem parcel_options_long : optionLoop
    [[0x70], [0x2d, 0x70], [0x30, 0x30, 0x30, 0x30, 0x30, 0x38, 0x30]] parcelOptstr
    (parcelOption none) 2 ⟨none, 0, 0, 0⟩ .start = some .fault := by
  obtain ⟨ended, hended, hfault, -⟩ := parcel_options none
    [[0x70], [0x2d, 0x70], [0x30, 0x30, 0x30, 0x30, 0x30, 0x38, 0x30]] (by decide)
    (show _ < 2 by decide)
  rw [hended, hfault.mpr (by decide +kernel)]

/-- The same for the loop of `parceld`, where the last accepted length of the queue holds. -/
theorem parceld_options (argv : List (List UInt8)) (hargv : ∀ w ∈ argv, 0 ∉ w) {fuel : ℕ}
    (hfuel : (optionsOf parceldOptstr argv).items.length < fuel) :
    ∃ ended, optionLoop argv parceldOptstr parceldOption fuel ⟨none, 0, 0, 0⟩ .start =
        some ended ∧
      (ended = .fault ↔ ¬PortsFit
        ((optionsOf parceldOptstr argv).items.takeWhile fun item => (parceldExit item).isNone)) ∧
      ∀ s, ended = .finished s ↔ (optionsOf parceldOptstr argv).stop = .operands ∧
        (∀ item ∈ (optionsOf parceldOptstr argv).items, parceldExit item = none) ∧
        PortsFit (optionsOf parceldOptstr argv).items ∧
        s = parceldSettings (optionsOf parceldOptstr argv).items := by
  have hoptstr : ∀ c ∈ parceldOptstr, c < 0x80 := by simp [parceldOptstr]
  exact optionLoop_ended parceldOption_returns parceldOption_handles parceldEffect_start hargv
    hoptstr hfuel

/-- The command line `p -q 5 -q 40`, where the second length is too large. -/
theorem parceld_options_queue : optionLoop
    [[0x70], [0x2d, 0x71, 0x35], [0x2d, 0x71], [0x34, 0x30]] parceldOptstr parceldOption 3
    ⟨none, 0, 0, 0⟩ .start = some (.finished ⟨defaultPort, 5⟩) := by
  obtain ⟨ended, hended, -, hfinished⟩ := parceld_options
    [[0x70], [0x2d, 0x71, 0x35], [0x2d, 0x71], [0x34, 0x30]] (by decide) (show _ < 3 by decide)
  have hsettings : ended = .finished ⟨defaultPort, 5⟩ :=
    (hfinished _).mpr ⟨by rfl, by decide, by decide +kernel, by rfl⟩
  rw [hended, hsettings]

theorem letters_subset (optstr w cs : List UInt8)
    (h : (optionGrammar optstr).letters w = some cs) : cs ⊆ w := by
  rw [(letters_eq_some h).1]
  exact List.subset_cons_self 0x2d cs

theorem acceptedBy_nonNul {optstr : List UInt8} {argv : List (List UInt8)}
    (hargv : ∀ w ∈ argv, 0 ∉ w) {c : UInt8} {accepts : List UInt8 → Bool} {word : List UInt8}
    (h : word ∈ (optionsOf optstr argv).items.flatMap (acceptedBy c accepts)) : 0 ∉ word := by
  obtain ⟨w, hw, hsub⟩ := parse_argument (letters_subset optstr) argv.tail (acceptedBy_spec h).1
  exact fun hzero => hargv w (List.mem_of_mem_tail hw) (hsub hzero)

/-- The last accepted argument is the address when no accepted one before it is longer, and
the port when it has four or five characters besides. For the name of the user what counts
is the last copy before it that reaches its end, which has a NUL there when it is the login
name or the empty array. -/
theorem last_option_stored (login : Option (List UInt8)) (argv : List (List UInt8))
    (hargv : ∀ w ∈ argv, 0 ∉ w) {fuel : ℕ}
    (hfuel : (optionsOf parcelOptstr argv).items.length < fuel) (s : ParcelSettings)
    (hs : optionLoop argv parcelOptstr (parcelOption login) fuel ⟨none, 0, 0, 0⟩ .start =
      some (.finished s)) (earlier : List (List UInt8)) (word : List UInt8) :
    ((optionsOf parcelOptstr argv).items.flatMap addressCopies = earlier ++ [word] →
      (Stored addressMaxLength (some s.address) word ↔ ∀ e ∈ earlier, e.length ≤ word.length)) ∧
    ((optionsOf parcelOptstr argv).items.flatMap portCopies = earlier ++ [word] →
      (Stored portMaxLength (some s.port) word ↔
        (∀ e ∈ earlier, e.length ≤ word.length) ∧ (word.length = 4 ∨ word.length = 5))) ∧
    ((optionsOf parcelOptstr argv).items.flatMap (usernameCopies login) = earlier ++ [word] →
      0 ∉ word → (Stored usernameMaxLength (some s.username) word ↔
        (covering (zeroArray usernameMaxLength) earlier word.length)[word.length]? = some 0)) := by
  have hoptstr : ∀ c ∈ parcelOptstr, c < 0x80 := by simp [parcelOptstr]
  obtain ⟨ended, hended, -, hfinished⟩ := optionLoop_ended (parcelOption_returns login)
    (parcelOption_handles login) (parcelEffect_start login) hargv hoptstr hfuel
  obtain ⟨-, -, hports, rfl⟩ := (hfinished s).mp (Option.some.inj (hended.symm.trans hs))
  -- the arrays begin as zeros, the port with its default
  refine ⟨fun hcopies => ?_, fun hcopies => ?_, fun hcopies hword => ?_⟩
  · have hlt (e : List UInt8) (he : e ∈ earlier ++ [word]) : e.length < addressMaxLength :=
      addressCopies_length e (hcopies ▸ he)
    have hnul (e : List UInt8) (he : e ∈ earlier ++ [word]) : 0 ∉ e :=
      acceptedBy_nonNul hargv (hcopies ▸ he)
    have hzero : (zeroArray addressMaxLength)[word.length]? = some 0 :=
      (zeroArray_getElem? _ _).mpr
        (hlt word (List.mem_append_right _ (List.mem_singleton_self word)))
    rw [parcelSettings, hcopies]
    exact (stored_overlay_iff (zeroArray addressMaxLength) hnul fun e he =>
      le_of_lt (hlt e he)).trans (and_iff_left hzero)
  · have hnul (e : List UInt8) (he : e ∈ earlier ++ [word]) : 0 ∉ e :=
      acceptedBy_nonNul hargv (hcopies ▸ he)
    rw [PortsFit, hcopies] at hports
    rw [parcelSettings, hcopies]
    exact (stored_overlay_iff defaultPort hnul hports).trans
      (and_congr_right fun _ => defaultPort_getElem? _)
  · have hle (e : List UInt8) (he : e ∈ earlier ++ [word]) : e.length ≤ usernameMaxLength :=
      usernameCopies_length e (hcopies ▸ he)
    rw [parcelSettings, hcopies]
    exact stored_overlay_covering (zeroArray usernameMaxLength) hword hle

/-- The addresses `abc` and `de`: the array then holds `dec`. -/
theorem last_option_stored_address : ∃ s : ParcelSettings,
    s.address.take 4 = [0x64, 0x65, 0x63, 0] ∧
      ¬Stored addressMaxLength (some s.address) [0x64, 0x65] := by
  have hloop : optionLoop [[0x70], [0x2d, 0x61, 0x61, 0x62, 0x63], [0x2d, 0x61, 0x64, 0x65]]
      parcelOptstr (parcelOption none) 3 ⟨none, 0, 0, 0⟩ .start =
        some (.finished (parcelSettings none [.argument 0x61 [0x61, 0x62, 0x63],
          .argument 0x61 [0x64, 0x65]])) := rfl
  refine ⟨parcelSettings none [.argument 0x61 [0x61, 0x62, 0x63], .argument 0x61 [0x64, 0x65]],
    rfl, ?_⟩
  have hstored := (last_option_stored none _ (by decide) (by decide) _ hloop
    [[0x61, 0x62, 0x63]] [0x64, 0x65]).1 rfl
  rw [hstored]
  intro h
  exact absurd (h [0x61, 0x62, 0x63] (List.mem_singleton_self _)) (by decide)

end Parcel
