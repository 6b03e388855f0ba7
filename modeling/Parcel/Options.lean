import Parcel.BoundedReads
import Parcel.CommandLine

/-!
# Options

The function `xgetopt`, one option at a time, and the loops of the two programs around it.
A string of the command line is read with its NUL, and `argv` with the null pointer at its
end; a read beyond has no result.
-/

namespace Parcel
open BoundedReads CommandLine

/-- A `char` is signed. -/
def charValue (b : UInt8) : ℤ := if b < 0x80 then b.toNat else b.toNat - 256

/-- The values `'?'` and `':'`. -/
def questionMark : ℤ := charValue 0x3f
def colon : ℤ := charValue 0x3a

structure Xgetopt where
  arg : Option (List UInt8)
  index : ℕ
  option : ℤ
  position : ℕ

def charAt (s : List UInt8) (i : ℕ) : Option UInt8 := byteAt (s ++ [0]) i

/-- An element of `argv`, which may be the null pointer. -/
def argvAt (argv : List (List UInt8)) (i : ℕ) : Option (Option (List UInt8)) :=
  (argv.map some ++ [none])[i]?

/-- The argument is `--`. -/
def endsOptions (arg : List UInt8) : Option Bool := do
  if (← charAt arg 0) = 0x2d then
    if (← charAt arg 1) = 0x2d then return (← charAt arg 2) = 0
    else return false
  else return false

def isLetterOrDigit (b : UInt8) : Bool :=
  (0x30 ≤ b && b ≤ 0x39) || (0x41 ≤ b && b ≤ 0x5a) || (0x61 ≤ b && b ≤ 0x7a)

/-- The argument does not begin with `-` and a letter or a digit. -/
def isOperand (arg : List UInt8) : Option Bool := do
  if (← charAt arg 0) = 0x2d then return !isLetterOrDigit (← charAt arg 1)
  else return true

/-- The function `xgetopt`: the value that it returns, and the state. -/
def xgetopt (ctx : Xgetopt) (argv : List (List UInt8)) (optstr : List UInt8) :
    Option (ℤ × Xgetopt) := do
  let ctx :=
    if ctx.index = 0 then { ctx with index := if argv = [] then 0 else 1 } else ctx
  match ← argvAt argv ctx.index with
  | none => return (-1, ctx)
  | some arg =>
    if ← endsOptions arg then return (-1, { ctx with index := ctx.index + 1 })
    else if ← isOperand arg then return (-1, ctx)
    else
      let c ← charAt arg (ctx.position + 1)
      let ctx := { ctx with option := charValue c }
      match optstr.dropWhile (· ≠ c) with
      | [] => return (questionMark, ctx)
      | _ :: following =>
        if following.headD 0 = 0x3a then
          if (← charAt arg (ctx.position + 2)) ≠ 0 then
            return (ctx.option, { ctx with
              arg := some (arg.drop (ctx.position + 2)), index := ctx.index + 1, position := 0 })
          else
            match ← argvAt argv (ctx.index + 1) with
            | some next => return (ctx.option, { ctx with
                arg := some next, index := ctx.index + 2, position := 0 })
            | none => return (colon, ctx)
        else if (← charAt arg (ctx.position + 2)) = 0 then
          return (ctx.option, { ctx with index := ctx.index + 1, position := 0 })
        else return (ctx.option, { ctx with position := ctx.position + 1 })

inductive Ended (σ : Type)
  | finished (s : σ)
  | returned (code : ℤ)
  | fault

/-- The loop of `main`: what the body does with an option and `xgo.arg`. -/
def optionLoop {σ : Type} (argv : List (List UInt8)) (optstr : List UInt8)
    (body : σ → ℤ → Option (List UInt8) → Ended σ) : ℕ → Xgetopt → σ → Option (Ended σ)
  | 0, _, _ => none
  | fuel + 1, ctx, s =>
    match xgetopt ctx argv optstr with
    | none => some .fault
    | some (opt, ctx) =>
      if opt = -1 then some (.finished s)
      else
        match body s opt ctx.arg with
        | .finished s => optionLoop argv optstr body fuel ctx s
        | .returned code => some (.returned code)
        | .fault => some .fault

def optionGrammar (optstr : List UInt8) : Grammar UInt8 where
  letters
    | 0x2d :: c :: cs => if isLetterOrDigit c then some (c :: cs) else none
    | _ => none
  marker w := w = [0x2d, 0x2d]
  takes c :=
    match optstr.dropWhile (· ≠ c) with
    | [] => none
    | _ :: following => some (following.headD 0 = 0x3a)

def itemValue : Item UInt8 → ℤ
  | .flag c => charValue c
  | .argument c _ => charValue c

/-- The field `arg` behind the option. -/
def itemArg (arg : Option (List UInt8)) : Item UInt8 → Option (List UInt8)
  | .flag _ => arg
  | .argument _ word => some word

def stopValue : Stop UInt8 → ℤ
  | .operands => -1
  | .unknown _ => questionMark
  | .missing _ => colon

section

variable {σ : Type} (body : σ → ℤ → Option (List UInt8) → Ended σ)

def atStop (arg : Option (List UInt8)) (s : σ) : Stop UInt8 → Ended σ
  | .operands => .finished s
  | .unknown _ => body s questionMark arg
  | .missing _ => body s colon arg

/-- What the body does with the options of a parsed command line. -/
def foldOptions (stop : Stop UInt8) :
    List (Item UInt8) → Option (List UInt8) → σ → Ended σ
  | [], arg, s => atStop body arg s stop
  | item :: items, arg, s =>
    match body s (itemValue item) (itemArg arg item) with
    | .finished s => foldOptions stop items (itemArg arg item) s
    | .returned code => .returned code
    | .fault => .fault

/-- The body returns at the values that stand for an error. -/
def ReturnsOnError : Prop :=
  ∀ s arg, (∃ code, body s questionMark arg = .returned code) ∧
    ∃ code, body s colon arg = .returned code

end

/-! ## Reads -/

section

variable {w : List UInt8}

theorem charAt_append (pre : List UInt8) (c : UInt8) (cs : List UInt8) :
    charAt (pre ++ c :: cs) pre.length = some c := by
  rw [charAt, byteAt, List.append_assoc, List.getElem?_append_right le_rfl, Nat.sub_self]
  rfl

theorem charAt_length (s : List UInt8) : charAt s s.length = some 0 := by
  rw [charAt, byteAt, List.getElem?_append_right le_rfl, Nat.sub_self]
  rfl

theorem charAt_cons (b : UInt8) (s : List UInt8) (i : ℕ) : charAt (b :: s) (i + 1) = charAt s i :=
  rfl

theorem charAt_zero_cons (b : UInt8) (s : List UInt8) : charAt (b :: s) 0 = some b := rfl

theorem endsOptions_eq (optstr : List UInt8) (hw : 0 ∉ w) :
    endsOptions w = some ((optionGrammar optstr).marker w) := by
  cases w with
  | nil => rfl
  | cons a s =>
    by_cases ha : a = 0x2d
    · subst ha
      cases s with
      | nil => rfl
      | cons b s =>
        by_cases hb : b = 0x2d
        · subst hb
          cases s with
          | nil => rfl
          | cons c s =>
            have hc : c ≠ 0 := fun h => hw (by simp [h])
            simp [endsOptions, optionGrammar, charAt_cons, charAt_zero_cons, hc]
        · simp [endsOptions, optionGrammar, charAt_cons, charAt_zero_cons, hb]
    · simp [endsOptions, optionGrammar, charAt_zero_cons, ha]

theorem isOperand_eq (optstr : List UInt8) (w : List UInt8) :
    isOperand w = some ((optionGrammar optstr).letters w).isNone := by
  cases w with
  | nil => rfl
  | cons a s =>
    by_cases ha : a = 0x2d
    · subst ha
      cases s with
      | nil => rfl
      | cons b s =>
        cases hb : isLetterOrDigit b <;>
          simp [isOperand, optionGrammar, charAt_cons, charAt_zero_cons, hb]
    · simp [isOperand, optionGrammar, charAt_zero_cons, ha]

theorem letters_eq_some {optstr cs : List UInt8} (h : (optionGrammar optstr).letters w = some cs) :
    w = 0x2d :: cs ∧ cs ≠ [] := by
  rw [optionGrammar] at h
  dsimp only at h
  split at h
  · split at h
    · obtain rfl := Option.some.inj h
      exact ⟨rfl, List.cons_ne_nil _ _⟩
    · cases h
  · cases h

theorem argvAt_drop {argv ws : List (List UInt8)} {i : ℕ} (h : argv.drop i = w :: ws) :
    argvAt argv i = some (some w) := by
  have hlt : i < argv.length := by
    by_contra hge
    rw [List.drop_eq_nil_of_le (not_lt.mp hge)] at h
    cases h
  rw [List.drop_eq_getElem_cons hlt] at h
  rw [argvAt, List.getElem?_append_left (by simpa using hlt), List.getElem?_map,
    List.getElem?_eq_getElem hlt, Option.map_some, (List.cons.inj h).1]

theorem argvAt_length (argv : List (List UInt8)) : argvAt argv argv.length = some none := by
  rw [argvAt, List.getElem?_append_right (by simp), List.length_map, Nat.sub_self]
  rfl

theorem argv_drop_next {argv ws : List (List UInt8)} {i : ℕ} (h : argv.drop i = w :: ws) :
    argv.drop (i + 1) = ws := by
  rw [← List.tail_drop, h, List.tail_cons]

theorem argvAt_next_nil {argv : List (List UInt8)} {i : ℕ} (h : argv.drop i = [w]) :
    argvAt argv (i + 1) = some none := by
  have hlength := congrArg List.length h
  rw [List.length_drop, List.length_singleton] at hlength
  rw [show i + 1 = argv.length by omega, argvAt_length]

theorem charAt_next (pre cs : List UInt8) (c : UInt8) (hcs : 0 ∉ cs) :
    ∃ b, charAt (pre ++ c :: cs) (pre.length + 1) = some b ∧ (b = 0 ↔ cs = []) := by
  have hsplit : pre ++ c :: cs = (pre ++ [c]) ++ cs := (List.append_cons pre c cs)
  have hlength : pre.length + 1 = (pre ++ [c]).length := by simp
  rw [hsplit, hlength]
  cases cs with
  | nil =>
    rw [List.append_nil]
    exact ⟨0, charAt_length _, iff_of_true rfl rfl⟩
  | cons b cs =>
    refine ⟨b, charAt_append _ b cs, iff_of_false ?_ (List.cons_ne_nil b cs)⟩
    rintro rfl
    exact hcs List.mem_cons_self

end

/-! ## One call -/

section

variable {ctx : Xgetopt} {argv : List (List UInt8)} {optstr : List UInt8}

theorem xgetopt_null (hindex : ctx.index = argv.length) (hpos : 0 < ctx.index) :
    xgetopt ctx argv optstr = some (-1, ctx) := by
  rw [xgetopt, if_neg (Nat.pos_iff_ne_zero.mp hpos), hindex, argvAt_length]
  rfl

theorem xgetopt_operand {w : List UInt8} {ws : List (List UInt8)} (hpos : 0 < ctx.index)
    (hdrop : argv.drop ctx.index = w :: ws) (hw : 0 ∉ w)
    (h : (optionGrammar optstr).letters w = none) :
    ∃ ctx', xgetopt ctx argv optstr = some (-1, ctx') ∧ ctx'.arg = ctx.arg := by
  simp only [xgetopt, if_neg (Nat.pos_iff_ne_zero.mp hpos), argvAt_drop hdrop,
    endsOptions_eq optstr hw, isOperand_eq optstr w, h, Option.bind_eq_bind, Option.bind_some,
    Option.isNone_none, if_true]
  split
  · exact ⟨_, rfl, rfl⟩
  · exact ⟨_, rfl, rfl⟩

theorem xgetopt_letter {pre cs : List UInt8} {c : UInt8} {ws : List (List UInt8)}
    (hpos : 0 < ctx.index) (hdrop : argv.drop ctx.index = (0x2d :: (pre ++ c :: cs)) :: ws)
    (hw : 0 ∉ 0x2d :: (pre ++ c :: cs))
    (hletters : (optionGrammar optstr).letters (0x2d :: (pre ++ c :: cs)) = some (pre ++ c :: cs))
    (hposition : ctx.position = pre.length) :
    xgetopt ctx argv optstr = some
      (match (optionGrammar optstr).takes c with
      | none => (questionMark, { ctx with option := charValue c })
      | some false => (charValue c, { ctx with
          option := charValue c
          index := if cs = [] then ctx.index + 1 else ctx.index
          position := if cs = [] then 0 else pre.length + 1 })
      | some true =>
        if cs = [] then
          match ws with
          | [] => (colon, { ctx with option := charValue c })
          | next :: _ => (charValue c, ⟨some next, ctx.index + 2, charValue c, 0⟩)
        else (charValue c, ⟨some cs, ctx.index + 1, charValue c, 0⟩)) := by
  have hcs : 0 ∉ cs := fun h => hw (by simp [h])
  -- a lone pair of dashes has no letters
  have hmarker : (optionGrammar optstr).marker (0x2d :: (pre ++ c :: cs)) = false := by
    by_contra hmarker
    have hdashes := of_decide_eq_true (Bool.not_eq_false _ ▸ hmarker)
    rw [hdashes] at hletters
    cases hletters
  have hletter : charAt (0x2d :: (pre ++ c :: cs)) (ctx.position + 1) = some c := by
    rw [hposition, charAt_cons, charAt_append]
  obtain ⟨b, hb, hnul⟩ := charAt_next pre cs c hcs
  have hnext : charAt (0x2d :: (pre ++ c :: cs)) (ctx.position + 2) = some b := by
    rw [hposition, charAt_cons, hb]
  have hrest : (0x2d :: (pre ++ c :: cs)).drop (ctx.position + 2) = cs := by
    rw [hposition, List.drop_succ_cons, List.append_cons, List.drop_left' (by simp)]
  simp only [xgetopt, if_neg (Nat.pos_iff_ne_zero.mp hpos), argvAt_drop hdrop,
    endsOptions_eq optstr hw, isOperand_eq optstr _, hletters, hmarker, Option.bind_eq_bind,
    Option.bind_some, Option.isNone_some, Bool.false_eq_true, if_false, hletter]
  -- the source searches the letter with `strchr` and looks at the byte behind it
  rw [show (optionGrammar optstr).takes c =
      match optstr.dropWhile (· ≠ c) with
      | [] => none
      | _ :: following => some (following.headD 0 = 0x3a) from rfl]
  cases optstr.dropWhile (· ≠ c) with
  | nil => rfl
  | cons o following =>
    by_cases hcolon : following.headD 0 = 0x3a
    · simp only [hcolon, if_true, decide_true, hnext, Option.bind_some, hrest]
      -- the argument is the next word, or the rest of this one
      by_cases hend : cs = []
      · rw [if_neg (not_not.mpr (hnul.mpr hend)), if_pos hend]
        cases ws with
        | nil =>
          rw [argvAt_next_nil hdrop]
          rfl
        | cons next ws =>
          rw [argvAt_drop (argv_drop_next hdrop)]
          rfl
      · rw [if_pos (mt hnul.mp hend), if_neg hend]
        rfl
    · simp only [hcolon, if_false, decide_false, hnext, Option.bind_some]
      -- behind the last letter the index moves on to the next word
      by_cases hend : cs = []
      · rw [if_pos (hnul.mpr hend), if_pos hend, if_pos hend]
        rfl
      · rw [if_neg (mt hnul.mp hend), if_neg hend, if_neg hend, hposition]
        rfl

/-- What the calls have not returned yet: they are in front of a word, or in front of a
letter of a word. -/
inductive Remains (argv : List (List UInt8)) (optstr : List UInt8) (ctx : Xgetopt) :
    Parsed UInt8 → Prop
  | word (hindex : 0 < ctx.index) (hle : ctx.index ≤ argv.length) (hposition : ctx.position = 0) :
      Remains argv optstr ctx (parse (optionGrammar optstr) (argv.drop ctx.index))
  | letter {pre cs : List UInt8} {c : UInt8} {ws : List (List UInt8)} (hindex : 0 < ctx.index)
      (hdrop : argv.drop ctx.index = (0x2d :: (pre ++ c :: cs)) :: ws)
      (hletters : (optionGrammar optstr).letters (0x2d :: (pre ++ c :: cs)) =
        some (pre ++ c :: cs))
      (hposition : ctx.position = pre.length) :
      Remains argv optstr ctx
        (resume (optionGrammar optstr) (0x2d :: (pre ++ c :: cs)) (c :: cs) ws)

/-- The next call returns the next option, or how the options end. -/
inductive Yields (argv : List (List UInt8)) (optstr : List UInt8) (ctx : Xgetopt)
    (p : Parsed UInt8) : Prop
  | option {item : Item UInt8} {p' : Parsed UInt8} {ctx' : Xgetopt} (hp : p = p'.after [item])
      (hcall : xgetopt ctx argv optstr = some (itemValue item, ctx')) (hvalue : itemValue item ≠ -1)
      (harg : ctx'.arg = itemArg ctx.arg item) (hremains : Remains argv optstr ctx' p')
  | stop {ctx' : Xgetopt} (hitems : p.items = [])
      (hcall : xgetopt ctx argv optstr = some (stopValue p.stop, ctx')) (harg : ctx'.arg = ctx.arg)

theorem charValue_ne {c : UInt8} (hc : c < 0x80) : charValue c ≠ -1 := by
  rw [charValue, if_pos hc]
  omega

theorem mem_of_takes {c : UInt8} {b : Bool} (h : (optionGrammar optstr).takes c = some b) :
    c ∈ optstr := by
  by_contra hmem
  have hnil : optstr.dropWhile (· ≠ c) = [] :=
    List.dropWhile_eq_nil_iff.mpr fun o ho => decide_eq_true fun heq => hmem (heq ▸ ho)
  have htakes : (optionGrammar optstr).takes c =
      match optstr.dropWhile (· ≠ c) with
      | [] => none
      | _ :: following => some (following.headD 0 = 0x3a) := rfl
  rw [htakes, hnil] at h
  cases h

theorem Remains.next {i : ℕ} {w : List UInt8} {ws : List (List UInt8)}
    (hdrop : argv.drop i = w :: ws) (hindex : ctx.index = i + 1) (hposition : ctx.position = 0) :
    Remains argv optstr ctx (parse (optionGrammar optstr) ws) := by
  have hlength := congrArg List.length hdrop
  rw [List.length_drop, List.length_cons] at hlength
  rw [← argv_drop_next hdrop, ← hindex]
  exact .word (by omega) (by omega) hposition

theorem yields_letter (hargv : ∀ w ∈ argv, 0 ∉ w) (hoptstr : ∀ c ∈ optstr, c < 0x80)
    {pre cs : List UInt8} {c : UInt8} {ws : List (List UInt8)} (hindex : 0 < ctx.index)
    (hdrop : argv.drop ctx.index = (0x2d :: (pre ++ c :: cs)) :: ws)
    (hletters : (optionGrammar optstr).letters (0x2d :: (pre ++ c :: cs)) = some (pre ++ c :: cs))
    (hposition : ctx.position = pre.length) :
    Yields argv optstr ctx
      (resume (optionGrammar optstr) (0x2d :: (pre ++ c :: cs)) (c :: cs) ws) := by
  have hmem : (0x2d :: (pre ++ c :: cs)) ∈ argv :=
    List.mem_of_mem_drop (hdrop ▸ List.mem_cons_self)
  have hcall := xgetopt_letter hindex hdrop (hargv _ hmem) hletters hposition
  -- an unknown letter, one without an argument, one with
  cases htakes : (optionGrammar optstr).takes c with
  | none =>
    rw [htakes] at hcall
    rw [resume_unknown htakes]
    exact .stop rfl hcall rfl
  | some takes =>
    have hvalue := charValue_ne (hoptstr c (mem_of_takes htakes))
    rw [htakes] at hcall
    cases takes with
    | false =>
      refine .option (resume_flag htakes) hcall hvalue rfl ?_
      cases cs with
      | nil => exact Remains.next hdrop rfl rfl
      | cons b cs =>
        rw [if_neg (List.cons_ne_nil b cs), if_neg (List.cons_ne_nil b cs)]
        rw [List.append_cons pre c (b :: cs)] at hdrop hletters ⊢
        exact .letter hindex hdrop hletters (by simp)
    | true =>
      -- the argument is the next word, or the rest of this one
      by_cases hcs : cs = []
      · subst hcs
        dsimp only at hcall
        rw [if_pos rfl] at hcall
        cases ws with
        | nil =>
          rw [resume_missing htakes]
          exact .stop rfl hcall rfl
        | cons next ws =>
          refine .option (resume_separate htakes next) hcall hvalue rfl ?_
          exact Remains.next (argv_drop_next hdrop) rfl rfl
      · dsimp only at hcall
        rw [if_neg hcs] at hcall
        refine .option (resume_attached htakes hcs) hcall hvalue rfl ?_
        exact Remains.next hdrop rfl rfl

theorem Remains.yields {p : Parsed UInt8} (h : Remains argv optstr ctx p)
    (hargv : ∀ w ∈ argv, 0 ∉ w) (hoptstr : ∀ c ∈ optstr, c < 0x80) :
    Yields argv optstr ctx p := by
  cases h with
  | letter hindex hdrop hletters hposition =>
    exact yields_letter hargv hoptstr hindex hdrop hletters hposition
  | word hindex hle hposition =>
    cases hdrop : argv.drop ctx.index with
    | nil =>
      have hend : ctx.index = argv.length := le_antisymm hle (List.drop_eq_nil_iff.mp hdrop)
      exact .stop rfl (xgetopt_null hend hindex) rfl
    | cons w ws =>
      have hmem : w ∈ argv := List.mem_of_mem_drop (hdrop ▸ List.mem_cons_self)
      cases hletters : (optionGrammar optstr).letters w with
      | none =>
        obtain ⟨ctx', hcall, harg⟩ := xgetopt_operand hindex hdrop (hargv w hmem) hletters
        rw [parse_operand hletters]
        exact .stop rfl hcall harg
      | some letters =>
        obtain ⟨hw, hne⟩ := letters_eq_some hletters
        obtain ⟨c, cs, rfl⟩ := List.exists_cons_of_ne_nil hne
        rw [parse_option hletters]
        subst hw
        rw [← List.nil_append (c :: cs)] at hdrop hletters ⊢
        exact yields_letter hargv hoptstr hindex hdrop hletters hposition

theorem optionLoop_remains {σ : Type} {body : σ → ℤ → Option (List UInt8) → Ended σ}
    (hbody : ReturnsOnError body) (hargv : ∀ w ∈ argv, 0 ∉ w) (hoptstr : ∀ c ∈ optstr, c < 0x80)
    {p : Parsed UInt8}
    (h : Remains argv optstr ctx p) (s : σ) {fuel : ℕ} (hfuel : p.items.length < fuel) :
    optionLoop argv optstr body fuel ctx s = some (foldOptions body p.stop p.items ctx.arg s) := by
  induction fuel generalizing ctx p s with
  | zero => exact absurd hfuel (Nat.not_lt_zero _)
  | succ fuel ih =>
    -- each call ends the loop or takes one item off what remains
    cases h.yields hargv hoptstr with
    | stop hitems hcall harg =>
      rw [optionLoop, hcall, hitems, foldOptions]
      cases p.stop with
      | operands => rfl
      | unknown c =>
        dsimp only [stopValue, atStop]
        obtain ⟨code, hcode⟩ := (hbody s ctx.arg).1
        rw [if_neg (by decide), harg, hcode]
      | missing c =>
        dsimp only [stopValue, atStop]
        obtain ⟨code, hcode⟩ := (hbody s ctx.arg).2
        rw [if_neg (by decide), harg, hcode]
    | option hp hcall hvalue harg hremains =>
      rename_i item p' ctx'
      rw [hp, Parsed.after, List.singleton_append, List.length_cons] at hfuel
      rw [optionLoop, hcall, hp, Parsed.after, List.singleton_append, foldOptions]
      dsimp only
      rw [if_neg hvalue, harg]
      cases body s (itemValue item) (itemArg ctx.arg item) with
      | finished s' =>
        rw [← harg]
        exact ih hremains s' (by omega)
      | returned code => rfl
      | fault => rfl

theorem xgetopt_first (hargv : argv ≠ []) :
    xgetopt ⟨none, 0, 0, 0⟩ argv optstr = xgetopt ⟨none, 1, 0, 0⟩ argv optstr := by
  rw [xgetopt, xgetopt, if_pos rfl, if_neg hargv, if_neg Nat.one_ne_zero]

theorem optionLoop_parse {σ : Type} {body : σ → ℤ → Option (List UInt8) → Ended σ}
    (hbody : ReturnsOnError body) (hargv : ∀ w ∈ argv, 0 ∉ w) (hoptstr : ∀ c ∈ optstr, c < 0x80)
    (s : σ) {fuel : ℕ}
    (hfuel : (parse (optionGrammar optstr) argv.tail).items.length < fuel) :
    optionLoop argv optstr body fuel ⟨none, 0, 0, 0⟩ s =
      some (foldOptions body (parse (optionGrammar optstr) argv.tail).stop
        (parse (optionGrammar optstr) argv.tail).items none s) := by
  obtain ⟨fuel, rfl⟩ : ∃ n, fuel = n + 1 := ⟨fuel - 1, by omega⟩
  cases argv with
  | nil => rfl
  | cons program words =>
    have hremains : Remains (program :: words) optstr ⟨none, 1, 0, 0⟩
        (parse (optionGrammar optstr) words) := .word Nat.one_pos (Nat.succ_pos _) rfl
    rw [optionLoop, xgetopt_first (List.cons_ne_nil _ _), ← optionLoop]
    exact optionLoop_remains hbody hargv hoptstr hremains s hfuel

/-- The calls read nothing but the words of the command line and what ends them, and they come
to an end. The body is given the options of the command line one by one with their arguments,
until it returns, and then how they end: with operands exactly when the words are a spelling
of the options with the operands behind them. -/
theorem xgetopt_options {σ : Type} {body : σ → ℤ → Option (List UInt8) → Ended σ}
    (hbody : ReturnsOnError body) (hargv : ∀ w ∈ argv, 0 ∉ w) (hoptstr : ∀ c ∈ optstr, c < 0x80)
    (s : σ) :
    let parsed := parse (optionGrammar optstr) argv.tail
    (∀ fuel, parsed.items.length < fuel → optionLoop argv optstr body fuel ⟨none, 0, 0, 0⟩ s =
      some (foldOptions body parsed.stop parsed.items none s)) ∧
    ∀ items rest, parsed = ⟨items, .operands, rest⟩ ↔
      ∃ options tail, argv.tail = options ++ tail ∧
        Spelled (optionGrammar optstr) options items ∧
        Follows (optionGrammar optstr) tail rest :=
  ⟨fun _ hfuel => optionLoop_parse hbody hargv hoptstr s hfuel,
    fun items rest => parse_eq_iff argv.tail rest items⟩

/-- Counts the flags `-v`. -/
def countFlags (n : ℕ) (opt : ℤ) (_ : Option (List UInt8)) : Ended ℕ :=
  if opt = charValue 0x76 then .finished (n + 1) else .returned 1

/-- The command line `p -vv x`. -/
theorem xgetopt_options_flags :
    optionLoop [[0x70], [0x2d, 0x76, 0x76], [0x78]] [0x76] countFlags 3 ⟨none, 0, 0, 0⟩ 0 =
        some (.finished 2) ∧
      parse (optionGrammar [0x76]) [[0x2d, 0x76, 0x76], [0x78]] =
        ⟨[.flag 0x76, .flag 0x76], .operands, [[0x78]]⟩ := by
  have hbody : ReturnsOnError countFlags := fun n arg => ⟨⟨1, rfl⟩, 1, rfl⟩
  have hargv : ∀ w ∈ ([[0x70], [0x2d, 0x76, 0x76], [0x78]] : List (List UInt8)), 0 ∉ w := by
    decide
  have hoptstr : ∀ c ∈ ([0x76] : List UInt8), c < 0x80 := by simp
  obtain ⟨hloop, -⟩ := xgetopt_options hbody hargv hoptstr 0
  have hparse : parse (optionGrammar [0x76]) [[0x2d, 0x76, 0x76], [0x78]] =
      ⟨[.flag 0x76, .flag 0x76], .operands, [[0x78]]⟩ := by
    rfl
  rw [List.tail_cons, hparse] at hloop
  exact ⟨hloop 3 (by decide), hparse⟩

end

section

variable {σ : Type} {body : σ → ℤ → Option (List UInt8) → Ended σ}
  {exit : Item UInt8 → Option ℤ} {effect : σ → Item UInt8 → Option σ} {P : Item UInt8 → Prop}
  {items : List (Item UInt8)} {stop : Stop UInt8}

/-- The body leaves `main` at some options; the others change the state or fault. -/
def Handles (body : σ → ℤ → Option (List UInt8) → Ended σ) (exit : Item UInt8 → Option ℤ)
    (effect : σ → Item UInt8 → Option σ) (P : Item UInt8 → Prop) : Prop :=
  ∀ s arg item, P item → body s (itemValue item) (itemArg arg item) =
    match exit item with
    | some code => .returned code
    | none => (effect s item).elim .fault .finished

theorem foldOptions_finished_iff (hbody : ReturnsOnError body) (h : Handles body exit effect P)
    (hitems : ∀ item ∈ items, P item) (arg : Option (List UInt8)) (s s' : σ) :
    foldOptions body stop items arg s = .finished s' ↔
      stop = .operands ∧ (∀ item ∈ items, exit item = none) ∧ items.foldlM effect s = some s' := by
  induction items generalizing arg s with
  | nil =>
    rw [foldOptions]
    cases stop with
    | operands => simp [atStop]
    | unknown c =>
      obtain ⟨code, hcode⟩ := (hbody s arg).1
      simp [atStop, hcode]
    | missing c =>
      obtain ⟨code, hcode⟩ := (hbody s arg).2
      simp [atStop, hcode]
  | cons item items ih =>
    obtain ⟨hitem, hrest⟩ := List.forall_mem_cons.mp hitems
    rw [foldOptions, h s arg item hitem, List.forall_mem_cons, List.foldlM_cons]
    cases hexit : exit item with
    | some code => simp
    | none =>
      cases heffect : effect s item with
      | none => simp
      | some s₁ => simpa using ih hrest (itemArg arg item) s₁

theorem atStop_ne_fault (hbody : ReturnsOnError body) (arg : Option (List UInt8)) (s : σ)
    (stop : Stop UInt8) : atStop body arg s stop ≠ .fault := by
  cases stop with
  | operands => simp [atStop]
  | unknown c =>
    obtain ⟨code, hcode⟩ := (hbody s arg).1
    simp [atStop, hcode]
  | missing c =>
    obtain ⟨code, hcode⟩ := (hbody s arg).2
    simp [atStop, hcode]

theorem foldOptions_fault_iff (hbody : ReturnsOnError body) (h : Handles body exit effect P)
    (hitems : ∀ item ∈ items, P item) (arg : Option (List UInt8)) (s : σ) :
    foldOptions body stop items arg s = .fault ↔
      (items.takeWhile fun item => (exit item).isNone).foldlM effect s = none := by
  induction items generalizing arg s with
  | nil => simp [foldOptions, atStop_ne_fault hbody arg s stop]
  | cons item items ih =>
    obtain ⟨hitem, hrest⟩ := List.forall_mem_cons.mp hitems
    rw [foldOptions, h s arg item hitem, List.takeWhile_cons]
    cases hexit : exit item with
    | some code => simp
    | none =>
      cases heffect : effect s item with
      | none => simp [heffect]
      | some s₁ => simpa [heffect] using ih hrest (itemArg arg item) s₁

end

end Parcel
