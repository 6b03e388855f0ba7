import Parcel.Arguments

/-!
# The mode of the terminal

A prompt puts the terminal into a raw mode and back into the mode that it found. A call that
fails between the two leaves the raw mode behind, and the next one then finds it and
restores it. A line that cannot be drawn ends the process there.
-/

namespace Parcel

/-- The fields of `struct termios` that change. -/
structure Termios where
  iflag : UInt32
  cflag : UInt32
  lflag : UInt32
  vmin : UInt8
  vtime : UInt8
  deriving DecidableEq

/-- The constants `IXON | BRKINT | ISTRIP | ICRNL | INPCK`, `CS8` and
`ECHO | ICANON | IEXTEN`. -/
def inputMask : UInt32 := 0x400 ||| 0x2 ||| 0x20 ||| 0x100 ||| 0x10
def controlMask : UInt32 := 0x30
def localMask : UInt32 := 0x8 ||| 0x2 ||| 0x8000

/-- The attributes that `xtcsetattr` sets for `CONSOLE_MODE_RAW`. -/
def Termios.raw (orig : Termios) : Termios where
  iflag := orig.iflag &&& ~~~inputMask
  cflag := orig.cflag ||| controlMask
  lflag := orig.lflag &&& ~~~localMask
  vmin := 1
  vtime := 0

theorem and_mask_idem (flags mask : UInt32) : flags &&& mask &&& mask = flags &&& mask := by
  rw [UInt32.and_assoc, UInt32.and_self]

theorem or_mask_idem (flags mask : UInt32) : flags ||| mask ||| mask = flags ||| mask := by
  rw [UInt32.or_assoc, UInt32.or_self]

theorem Termios.raw_raw (orig : Termios) : orig.raw.raw = orig.raw := by
  simp only [raw, and_mask_idem, or_mask_idem]

/-- The calls of `xgetline` that can fail: `xmalloc` and `xrealloc`, and the write of
`flush_console`. -/
inductive LineCall
  | allocate (given : Bool)
  | flush (written : Bool)

/-- The process calls `exit`, or divides by zero. -/
inductive ProcessEnd
  | exits
  | divides
  deriving DecidableEq

/-- What the calls of `_xprompt` give. The width is 0 when the `ioctl` of `xwinsize` has
failed; a line is there unless its length cannot be doubled. -/
structure Attempt where
  tcgetattr : Bool
  tcsetattr : Bool
  prompt : Bool
  width : ℕ
  calls : List LineCall
  line : Option (List UInt8)
  restore : Bool
  newline : Bool

/-- The end of the process in `xgetline`; `flush_console` divides by the width before it
writes. -/
def xgetlineEnd (width : ℕ) : List LineCall → Option ProcessEnd
  | [] => none
  | .allocate given :: calls => if given then xgetlineEnd width calls else some .exits
  | .flush written :: calls =>
    if width = 0 then some .divides
    else if written then xgetlineEnd width calls
    else some .exits

namespace Attempt

def ends (a : Attempt) : Option ProcessEnd :=
  if a.tcgetattr && a.tcsetattr && a.prompt then xgetlineEnd a.width a.calls else none

def returned (a : Attempt) : Option (List UInt8) :=
  if a.tcgetattr && a.tcsetattr && a.prompt && a.ends.isNone && a.restore && a.newline then a.line
  else none

def strands (a : Attempt) : Bool :=
  a.tcgetattr && a.tcsetattr && !(a.prompt && a.ends.isNone && a.line.isSome && a.restore)

/-- Once the raw mode is set, nothing fails before it is taken back. -/
def Clean (a : Attempt) : Prop :=
  a.tcgetattr = true → a.tcsetattr = true →
    a.prompt = true ∧ (∀ given, .allocate given ∈ a.calls → given = true) ∧
      (∀ written, .flush written ∈ a.calls → written = true ∧ a.width ≠ 0) ∧
      a.line.isSome = true ∧ a.restore = true

end Attempt

def modeAfter (attempts : List Attempt) (terminal : Termios) : Termios :=
  if attempts.any Attempt.strands then terminal.raw else terminal

theorem modeAfter_append (used more : List Attempt) (terminal : Termios) :
    modeAfter (used ++ more) terminal = modeAfter more (modeAfter used terminal) := by
  rw [modeAfter, modeAfter, modeAfter, List.any_append]
  cases used.any Attempt.strands <;> cases more.any Attempt.strands <;> simp [Termios.raw_raw]

theorem modeAfter_cons (a : Attempt) (attempts : List Attempt) (terminal : Termios) :
    modeAfter (a :: attempts) terminal =
      modeAfter attempts (if a.strands then terminal.raw else terminal) := by
  have hone : modeAfter [a] terminal = if a.strands then terminal.raw else terminal := by
    simp [modeAfter]
  rw [← List.singleton_append, modeAfter_append, hone]

/-- Prompts give what they would give for the lines alone, and leave the mode of the calls that
they have made; a call that ends the process is the last one, and the lines before it were not
enough. -/
def Agrees {β : Type} (attempts : List Attempt) (terminal : Termios)
    (ask : List (List UInt8) → Option (β × List (List UInt8))) :
    Option (Except ProcessEnd β × Termios × List Attempt) → Prop
  | none => (∀ a ∈ attempts, a.ends = none) ∧ ask (attempts.filterMap Attempt.returned) = none
  | some (.ok b, terminal', rest) => ∃ used, attempts = used ++ rest ∧
      terminal' = modeAfter used terminal ∧ (∀ a ∈ used, a.ends = none) ∧
        ∀ more, ask (used.filterMap Attempt.returned ++ more) = some (b, more)
  | some (.error ending, terminal', rest) => ∃ before a, attempts = before ++ a :: rest ∧
      terminal' = terminal.raw ∧ (∀ a ∈ before, a.ends = none) ∧ a.ends = some ending ∧
        ask (before.filterMap Attempt.returned) = none

section

variable {β : Type} {attempts : List Attempt} {terminal : Termios}
  {ask : List (List UInt8) → Option (β × List (List UInt8))}
  {x : Option (Except ProcessEnd β × Termios × List Attempt)}

theorem filterMap_returned (a : Attempt) (attempts : List Attempt) :
    (a :: attempts).filterMap Attempt.returned =
      a.returned.toList ++ attempts.filterMap Attempt.returned := by
  rw [List.filterMap_cons]
  cases a.returned <;> rfl

theorem Agrees.cons {a : Attempt} (hends : a.ends = none)
    (hask : ∀ typed, ask (a.returned.toList ++ typed) = ask typed)
    (h : Agrees attempts (if a.strands then terminal.raw else terminal) ask x) :
    Agrees (a :: attempts) terminal ask x := by
  match x with
  | none => exact ⟨List.forall_mem_cons.mpr ⟨hends, h.1⟩, by rw [filterMap_returned, hask, h.2]⟩
  | some (.ok b, terminal', rest) =>
    obtain ⟨used, rfl, hmode, hgoesOn, hanswer⟩ := h
    refine ⟨a :: used, rfl, hmode.trans (modeAfter_cons a used terminal).symm,
      List.forall_mem_cons.mpr ⟨hends, hgoesOn⟩, fun more => ?_⟩
    rw [filterMap_returned, List.append_assoc, hask, hanswer more]
  | some (.error ending, terminal', rest) =>
    obtain ⟨before, last, rfl, hmode, hgoesOn, hlast, hanswer⟩ := h
    have hraw : (if a.strands then terminal.raw else terminal).raw = terminal.raw := by
      cases a.strands with
      | false => rfl
      | true => exact terminal.raw_raw
    exact ⟨a :: before, last, rfl, hmode.trans hraw, List.forall_mem_cons.mpr ⟨hends, hgoesOn⟩,
      hlast, by rw [filterMap_returned, hask, hanswer]⟩

end

end Parcel
