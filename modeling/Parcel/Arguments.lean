import Parcel.BoundedReads

/-!
# Arguments and prompts

How the two programs take in the port, the address and the name of the user: options of
the command line, and prompts for what the command line leaves out. Each copies the bytes
of a string without its NUL into an array of its own, which is zero or holds a default
port before.
-/

namespace Parcel
open ByteStrings BoundedReads

/-- The white space of `isspace`. -/
def isSpaceByte (b : UInt8) : Bool := b == 0x20 || (9 ≤ b && b ≤ 13)

def isDigitByte (b : UInt8) : Bool := 0x30 ≤ b && b ≤ 0x39

def signOf : List UInt8 → ℤ × List UInt8
  | 0x2d :: s => (-1, s)
  | 0x2b :: s => (1, s)
  | s => (1, s)

/-- The function `strtol` for decimal numbers: white space, a sign and digits, whatever
follows them, and the nearest `long` when the number is none. -/
def strtol (s : List UInt8) : ℤ :=
  let (sign, s) := signOf (s.dropWhile isSpaceByte)
  let digits := (s.takeWhile isDigitByte).map fun b => (b - 0x30).toNat
  max (-2 ^ 63) (min (sign * Nat.ofDigits 10 digits.reverse) (2 ^ 63 - 1))

/-- The function `xstrrange`: the number, if it is in the range. -/
def xstrrange (arg : List UInt8) (least most : ℤ) : Option ℤ :=
  if strtol arg < least ∨ most < strtol arg then none else some (strtol arg)

def addressMaxLength : ℕ := 32
def usernameMaxLength : ℕ := 64
def portMaxLength : ℕ := 6

/-- The array `port` of the client and `server_port` of the daemon. -/
def defaultPort : List UInt8 := [0x32, 0x33, 0x31, 0x35, 0, 0]

/-- An array after `memset`. -/
def zeroArray (size : ℕ) : List UInt8 := List.replicate size 0

/-- An accepted string is copied to the front of its array; a copy that goes past the
end of the array has no result. -/
def copyAccepted (accepted : Bool) (array arg : List UInt8) : Option (List UInt8) :=
  if accepted then writeAt array 0 arg else some array

def acceptsPort (arg : List UInt8) : Bool := (xstrrange arg 0 65535).isSome

/-- The option `-p` of `parcel`. -/
def parcelPort (port arg : List UInt8) : Option (List UInt8) :=
  copyAccepted (acceptsPort arg) port arg

/-- The option `-p` of `parceld`. -/
def parceldPort (serverPort arg : List UInt8) : Option (List UInt8) :=
  copyAccepted (acceptsPort arg) serverPort arg

/-- The option `-a`. -/
def parcelAddress (address arg : List UInt8) : Option (List UInt8) :=
  copyAccepted (arg.length < addressMaxLength) address arg

/-- The option `-u`. -/
def parcelUsername (username arg : List UInt8) : Option (List UInt8) :=
  copyAccepted (arg.length < usernameMaxLength) username arg

def tooLong (len : ℕ) (line : List UInt8) : Bool := len ≠ 0 && len < line.length

/-- The function `xprompt` on the lines that are typed: the first one that is not too
long, and the lines after it. A line may be empty, and may hold a NUL that was read as a
part of a codepoint. -/
def xprompt (len : ℕ) : List (List UInt8) → Option (List UInt8 × List (List UInt8))
  | [] => none
  | line :: typed => if tooLong len line then xprompt len typed else some (line, typed)

/-- A half of `prompt_args`, for an array that may be filled already. -/
def promptFor (len : ℕ) (array : List UInt8) (typed : List (List UInt8)) :
    Option (Option (List UInt8) × List (List UInt8)) :=
  if array.headD 0 = 0 then
    (xprompt len typed).map fun (line, typed) => (writeAt array 0 line, typed)
  else some (some array, typed)

/-- The function `prompt_args`, which waits for lines. -/
def promptArgs (address username : List UInt8) (typed : List (List UInt8)) :
    Option (Option (List UInt8) × Option (List UInt8)) := do
  let (address, typed) ← promptFor addressMaxLength address typed
  let (username, _) ← promptFor usernameMaxLength username typed
  return (address, username)

/-- The array has its size and holds the string with a NUL. -/
def Stored (size : ℕ) (array : Option (List UInt8)) (s : List UInt8) : Prop :=
  ∃ mem, array = some mem ∧ mem.length = size ∧ cString mem = some s

theorem Stored.not_mem_zero {size : ℕ} {array : Option (List UInt8)} {s : List UInt8}
    (h : Stored size array s) : 0 ∉ s := by
  obtain ⟨mem, -, -, hstring⟩ := h
  rw [cString] at hstring
  split at hstring
  · rw [← Option.some.inj hstring]
    intro hmem
    exact absurd (List.mem_takeWhile_imp hmem) (by decide)
  · cases hstring

/-- A copy without the NUL gives the string when a NUL is there behind it. -/
theorem stored_writeAt_iff {array s : List UInt8} (hs : 0 ∉ s) :
    Stored array.length (writeAt array 0 s) s ↔ array[s.length]? = some 0 := by
  -- a longer string runs over the array; one that just fits has no terminator
  by_cases hfit : s.length ≤ array.length
  · have hwrite : writeAt array 0 s = some (s ++ array.drop s.length) := by
      rw [writeAt, if_pos (by omega), Nat.zero_add]
      rfl
    have hlen : (s ++ array.drop s.length).length = array.length := by
      rw [List.length_append, List.length_drop]
      omega
    have hstring : Stored array.length (writeAt array 0 s) s ↔
        cString (s ++ array.drop s.length) = some s := by
      rw [hwrite]
      constructor
      · rintro ⟨mem, hmem, -, h⟩
        rwa [Option.some.inj hmem]
      · intro h
        exact ⟨_, rfl, hlen, h⟩
    have hbyte : array[s.length]? = (array.drop s.length)[0]? := by
      rw [List.getElem?_drop, Nat.add_zero]
    rw [hstring, hbyte]
    cases array.drop s.length with
    | nil =>
      rw [List.append_nil, cString_eq_none hs]
      simp
    | cons b rest =>
      by_cases hb : b = 0
      · rw [hb, cString_append_zero hs]
        simp
      · -- The string goes on with what was in the array before.
        have hlonger : cString (s ++ b :: rest) ≠ some s := by
          intro h
          rw [cString] at h
          split at h
          · have hall := Option.some.inj h
            rw [List.takeWhile_append_of_pos (by
              intro c hc
              have hne : c ≠ 0 := fun h => hs (h ▸ hc)
              simpa using hne), List.takeWhile_cons, if_pos (by simpa using hb)] at hall
            exact absurd (List.append_right_eq_self.mp hall) (List.cons_ne_nil _ _)
          · cases h
        refine iff_of_false hlonger ?_
        rw [List.getElem?_cons_zero]
        exact fun h => hb (Option.some.inj h)
  · have hwrite : writeAt array 0 s = none := writeAt_eq_none (by omega)
    rw [hwrite, List.getElem?_eq_none (by omega)]
    refine iff_of_false ?_ (by simp)
    rintro ⟨mem, hmem, -⟩
    cases hmem

theorem zeroArray_getElem? (size i : ℕ) : (zeroArray size)[i]? = some 0 ↔ i < size := by
  rw [zeroArray, List.getElem?_replicate]
  split <;> simp [*]

theorem defaultPort_getElem? (i : ℕ) : defaultPort[i]? = some 0 ↔ i = 4 ∨ i = 5 := by
  by_cases hi : i < 6
  · interval_cases i <;> decide
  · rw [List.getElem?_eq_none (not_lt.mp hi)]
    refine iff_of_false (by simp) ?_
    omega

inductive Intake
  | parcelPort
  | parceldPort
  | parcelAddress
  | parcelUsername
  | promptAddress
  | promptUsername
  deriving DecidableEq

namespace Intake

def size : Intake → ℕ
  | .parcelPort | .parceldPort => portMaxLength
  | .parcelAddress | .promptAddress => addressMaxLength
  | .parcelUsername | .promptUsername => usernameMaxLength

def initial : Intake → List UInt8
  | .parcelPort | .parceldPort => defaultPort
  | .parcelAddress | .promptAddress => zeroArray addressMaxLength
  | .parcelUsername | .promptUsername => zeroArray usernameMaxLength

def Accepts : Intake → List UInt8 → Prop
  | .parcelPort, s | .parceldPort, s => acceptsPort s = true
  | .parcelAddress, s => s.length < addressMaxLength
  | .parcelUsername, s => s.length < usernameMaxLength
  | .promptAddress, s => tooLong addressMaxLength s = false
  | .promptUsername, s => tooLong usernameMaxLength s = false

def store : Intake → List UInt8 → Option (List UInt8)
  | .parcelPort, s => Parcel.parcelPort defaultPort s
  | .parceldPort, s => Parcel.parceldPort defaultPort s
  | .parcelAddress, s => Parcel.parcelAddress (zeroArray addressMaxLength) s
  | .parcelUsername, s => Parcel.parcelUsername (zeroArray usernameMaxLength) s
  | .promptAddress, s =>
    (promptFor addressMaxLength (zeroArray addressMaxLength) [s]).bind Prod.fst
  | .promptUsername, s =>
    (promptFor usernameMaxLength (zeroArray usernameMaxLength) [s]).bind Prod.fst

/-- A port has four or five characters, and what is typed is shorter than its array. -/
def Fits : Intake → List UInt8 → Prop
  | .parcelPort, s | .parceldPort, s => s.length = 4 ∨ s.length = 5
  | .parcelAddress, _ | .parcelUsername, _ => True
  | .promptAddress, s => s.length < addressMaxLength
  | .promptUsername, s => s.length < usernameMaxLength

variable {s : List UInt8}

theorem initial_length (intake : Intake) : intake.initial.length = intake.size := by
  cases intake <;> rfl

theorem promptFor_accepted {len : ℕ} (hpos : 0 < len) (h : tooLong len s = false)
    (typed : List (List UInt8)) :
    promptFor len (zeroArray len) (s :: typed) = some (writeAt (zeroArray len) 0 s, typed) := by
  obtain ⟨n, rfl⟩ : ∃ n, len = n + 1 := ⟨len - 1, by omega⟩
  have hempty : (zeroArray (n + 1)).headD 0 = 0 := rfl
  rw [promptFor, if_pos hempty, xprompt, h]
  rfl

theorem store_eq (intake : Intake) (h : intake.Accepts s) :
    intake.store s = writeAt intake.initial 0 s := by
  cases intake with
  | parcelPort => exact if_pos h
  | parceldPort => exact if_pos h
  | parcelAddress =>
    have hlt : s.length < addressMaxLength := h
    exact if_pos (decide_eq_true hlt)
  | parcelUsername =>
    have hlt : s.length < usernameMaxLength := h
    exact if_pos (decide_eq_true hlt)
  | promptAddress =>
    rw [store, promptFor_accepted (by decide) h]
    rfl
  | promptUsername =>
    rw [store, promptFor_accepted (by decide) h]
    rfl

theorem promptArgs_eq {address username : List UInt8} (typed : List (List UInt8))
    (haddress : promptAddress.Accepts address) (husername : promptUsername.Accepts username) :
    promptArgs (zeroArray addressMaxLength) (zeroArray usernameMaxLength)
        (address :: username :: typed) =
      some (promptAddress.store address, promptUsername.store username) := by
  rw [promptArgs, promptFor_accepted (by decide) haddress, store_eq _ haddress,
    store_eq _ husername]
  simp only [Option.bind_eq_bind, Option.bind_some]
  rw [promptFor_accepted (by decide) husername]
  rfl

theorem fits_iff (intake : Intake) (h : intake.Accepts s) :
    intake.initial[s.length]? = some 0 ↔ intake.Fits s := by
  cases intake with
  | parcelPort => exact defaultPort_getElem? _
  | parceldPort => exact defaultPort_getElem? _
  | parcelAddress => exact (zeroArray_getElem? _ _).trans (iff_of_true h trivial)
  | parcelUsername => exact (zeroArray_getElem? _ _).trans (iff_of_true h trivial)
  | promptAddress => exact zeroArray_getElem? _ _
  | promptUsername => exact zeroArray_getElem? _ _

end Intake

/-- An accepted string is stored as it is, inside its array, exactly when it has no NUL
and is a port of four or five characters, an option other than a port, or shorter than the
array of its prompt. -/
theorem arguments_stored_iff (intake : Intake) (s : List UInt8) (h : intake.Accepts s) :
    Stored intake.size (intake.store s) s ↔ 0 ∉ s ∧ intake.Fits s := by
  have hiff (hs : 0 ∉ s) : Stored intake.size (intake.store s) s ↔ intake.Fits s := by
    rw [intake.store_eq h, ← intake.initial_length, stored_writeAt_iff hs, intake.fits_iff h]
  constructor
  · intro hstored
    have hs := hstored.not_mem_zero
    exact ⟨hs, (hiff hs).mp hstored⟩
  · rintro ⟨hs, hfits⟩
    exact (hiff hs).mpr hfits

/-- The port `8080`, and the address `::1` and the name `ab` that are typed at the prompts. -/
theorem arguments_stored_port :
    Stored 6 (Intake.parcelPort.store [0x38, 0x30, 0x38, 0x30]) [0x38, 0x30, 0x38, 0x30] ∧
    ∃ address username, promptArgs (zeroArray addressMaxLength) (zeroArray usernameMaxLength)
        [[0x3a, 0x3a, 0x31], [0x61, 0x62]] = some (address, username) ∧
      Stored addressMaxLength address [0x3a, 0x3a, 0x31] ∧
      Stored usernameMaxLength username [0x61, 0x62] := by
  have hport : acceptsPort [0x38, 0x30, 0x38, 0x30] = true := by decide +kernel
  have hfits : Intake.parcelPort.Fits [0x38, 0x30, 0x38, 0x30] := Or.inl rfl
  have haddress : Intake.promptAddress.Accepts [0x3a, 0x3a, 0x31] := rfl
  have husername : Intake.promptUsername.Accepts [0x61, 0x62] := rfl
  have haddressFits : Intake.promptAddress.Fits [0x3a, 0x3a, 0x31] :=
    (by decide : 3 < addressMaxLength)
  have husernameFits : Intake.promptUsername.Fits [0x61, 0x62] :=
    (by decide : 2 < usernameMaxLength)
  exact ⟨(arguments_stored_iff .parcelPort _ hport).mpr ⟨by decide, hfits⟩, _, _,
    Intake.promptArgs_eq [] haddress husername,
    (arguments_stored_iff .promptAddress _ haddress).mpr ⟨by decide, haddressFits⟩,
    (arguments_stored_iff .promptUsername _ husername).mpr ⟨by decide, husernameFits⟩⟩

/-- The port `80` is accepted, and the array then holds `8015`. -/
theorem short_port_not_stored :
    ∃ s : List UInt8, 0 ∉ s ∧ Intake.parcelPort.Accepts s ∧
      Intake.parcelPort.store s = some [0x38, 0x30, 0x31, 0x35, 0, 0] ∧
        ¬Stored Intake.parcelPort.size (Intake.parcelPort.store s) s := by
  have h : acceptsPort [0x38, 0x30] = true := by decide +kernel
  refine ⟨[0x38, 0x30], by decide, h, by decide +kernel, ?_⟩
  rw [arguments_stored_iff .parcelPort [0x38, 0x30] h]
  rintro ⟨-, h4 | h5⟩
  · exact absurd h4 (by decide)
  · exact absurd h5 (by decide)

end Parcel
