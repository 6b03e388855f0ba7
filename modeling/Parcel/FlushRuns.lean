import Parcel.EditorRuns

/-!
# Rows of the screen in a run

The calls of `flush_console` in a run of the editor, from an empty line on a console of any
width.
-/

namespace Parcel
open BoundedReads Faulting Utf8Encoding TextZipper

/-- The function `xwinsize`: the field `ws_col`, unless `ioctl` fails. -/
def xwinsize (size : Option UInt16) : ℕ :=
  match size with
  | some col => col.toNat
  | none => 0

theorem xwinsize_ne_zero_iff (size : Option UInt16) :
    xwinsize size ≠ 0 ↔ ∃ col, size = some col ∧ col ≠ 0 := by
  cases size with
  | none => simp [xwinsize]
  | some col =>
    have hcol : col.toNat ≠ 0 ↔ col ≠ 0 := (UInt16.toNat_inj (b := 0)).not
    rw [xwinsize, hcol]
    simp

namespace Line

variable {l l' m : Line} {z : Zipper Char}

/-- The lines that a run hands to `flush_console`. -/
inductive Flushed : Line → List Operation → Line → Prop
  | here {l m : Line} {op : Operation} {ops : List Operation}
    (h : op.handed l = .ok (some m)) : Flushed l (op :: ops) m
  | later {l l' m : Line} {op : Operation} {ops : List Operation}
    (h : op.apply l = .ok l') (hm : Flushed l' ops m) : Flushed l (op :: ops) m

section

variable {op : Operation} {ops : List Operation} {A : Line → Prop}

theorem forall_flushed_error {f : Fault} (hx : op.handed l = .error f) :
    ∀ m, Flushed l (op :: ops) m → A m := by
  intro m hm
  cases hm with
  | here h =>
    rw [hx] at h
    exact absurd h (by simp)
  | later h _ =>
    rw [op.apply_eq_redraw, hx] at h
    exact absurd h (by simp [redraw, bind, Except.bind])

theorem forall_flushed_none (hx : op.handed l = .ok none) :
    (∀ m, Flushed l (op :: ops) m → A m) ↔ ∀ m, Flushed l ops m → A m := by
  have happly : op.apply l = .ok l := by
    rw [op.apply_eq_redraw, hx]
    rfl
  refine forall_congr' fun m => imp_congr_left ⟨fun hm => ?_, .later happly⟩
  cases hm with
  | here h =>
    rw [hx] at h
    exact absurd h (by simp)
  | later h hm =>
    rw [happly] at h
    exact Except.ok.inj h ▸ hm

theorem forall_flushed_some (hx : op.handed l = .ok (some m)) :
    (∀ m, Flushed l (op :: ops) m → A m) ↔
      A m ∧ ∀ l', m.flushConsole = .ok l' → ∀ m', Flushed l' ops m' → A m' := by
  have happly : op.apply l = m.flushConsole := by
    rw [op.apply_eq_redraw, hx]
    rfl
  constructor
  · intro h
    exact ⟨h m (.here hx), fun l' hl' m' hm' => h m' (.later (happly.trans hl') hm')⟩
  · rintro ⟨hm, hlater⟩ m' hm'
    cases hm' with
    | here h =>
      rw [hx] at h
      obtain rfl : m = m' := by simpa using h
      exact hm
    | later h hm' => exact hlater _ (happly.symm.trans h) m' hm'

end

theorem cells_le (cs : List Char) : cells cs ≤ 2 * (encode cs).length := by
  induction cs with
  | nil => exact le_rfl
  | cons c cs ih =>
    have hwidth := cpRenderedWidth_le c.toNat
    have hpos : 0 < (encodeChar c).length := Coded.length_pos c
    rw [cells_cons, encode_cons, List.length_append]
    omega

theorem Refines.lineLen_le (h : l.Refines z) : l.lineLen ≤ 2 * l.line.length := by
  have hle := h.spells.size_le
  have hcells := cells_le z.text
  rw [← h.len, ← h.size] at hcells
  omega

/-- A run, by induction on its operations: a call with a defined difference leaves the
rendered column in a row that has been counted. -/
theorem flushed_defined_iff (h : l.Refines z) {ops : List Operation}
    (hops : ∀ op ∈ ops, op.NonNul) (hw : 0 < l.consoleWidth)
    (hsmall : l.promptLen + 2 * l.line.length + l.consoleWidth < 2 ^ 64) (hplaced : l.Placed) :
    (∀ m, Flushed l ops m → m.FlushDefined) ↔
      ∀ m, Flushed l ops m → m.promptLen % m.consoleWidth ≠ 0 ∨ m.lineLen ≠ 0 := by
  induction ops generalizing l z with
  | nil => exact iff_of_true (fun m hm => nomatch hm) fun m hm => nomatch hm
  | cons op ops ih =>
    have hops' : ∀ op ∈ ops, op.NonNul := fun o ho => hops o (List.mem_cons_of_mem _ ho)
    have hends := handed_ends h op (hops op List.mem_cons_self)
    cases hx : op.handed l with
    | error f => exact iff_of_true (forall_flushed_error hx) (forall_flushed_error hx)
    | ok o =>
      rcases hends.of_ok hx with ⟨rfl, -⟩ | ⟨m, rfl, hm, hscreen⟩
      · -- Nothing to delete: the line is not redrawn.
        rw [forall_flushed_none hx, forall_flushed_none hx]
        exact ih h hops' hw hsmall hplaced
      · have hw' : 0 < m.consoleWidth := hscreen.width_eq ▸ hw
        have hsmall' : m.promptLen + 2 * m.line.length + m.consoleWidth < 2 ^ 64 := by
          rw [hscreen.promptLen_eq, hscreen.length_eq, hscreen.width_eq]
          exact hsmall
        have hplaced' : m.Placed := by
          rw [Placed, hscreen.promptLen_eq, hscreen.rendered_eq, hscreen.width_eq, hscreen.row_eq]
          exact hplaced
        have hlen : m.promptLen + m.lineLen + m.consoleWidth < 2 ^ 64 := by
          have := hm.lineLen_le
          omega
        have hrow : m.FlushDefined ↔ m.promptLen % m.consoleWidth ≠ 0 ∨ m.lineLen ≠ 0 :=
          ⟨fun hdefined => hdefined.row_ne hm hw' hlen,
            flushDefined_of_row hm hw' hlen hplaced'⟩
        rw [forall_flushed_some hx, forall_flushed_some hx, ← hrow]
        refine and_congr_right fun hdefined =>
          forall_congr' fun l' => forall_congr' fun hflush => ?_
        -- The next operation starts from where this call has left the cursor.
        have hl' : l'.Placed := hdefined.placed hw' hflush
        obtain ⟨_, _, _, rfl⟩ := m.flushConsole_redrawn.of_ok hflush
        exact ih (hm.redrawn ⟨_, _, _, rfl⟩) hops' hw' hsmall' hl'

theorem Flushed.screen {ops : List Operation} (hm : Flushed l ops m) (h : l.Refines z)
    (hops : ∀ op ∈ ops, op.NonNul) :
    m.promptLen = l.promptLen ∧ m.consoleWidth = l.consoleWidth := by
  induction hm generalizing z with
  | @here l m op ops hx =>
    rcases (handed_ends h op (hops op List.mem_cons_self)).of_ok hx with
      ⟨hnone, -⟩ | ⟨m', hsome, -, hscreen⟩
    · cases hnone
    · obtain rfl := Option.some.inj hsome
      exact ⟨hscreen.promptLen_eq, hscreen.width_eq⟩
  | @later l l' m op ops happly _ ih =>
    have hops' : ∀ o ∈ ops, o.NonNul := fun o ho => hops o (List.mem_cons_of_mem op ho)
    have hends := handed_ends h op (hops op List.mem_cons_self)
    rw [op.apply_eq_redraw] at happly
    cases hx : op.handed l with
    | error f =>
      rw [hx] at happly
      cases happly
    | ok o =>
      rw [hx] at happly
      rcases hends.of_ok hx with ⟨rfl, -⟩ | ⟨m', rfl, hm', hscreen⟩
      · obtain rfl := Except.ok.inj happly
        exact ih h hops'
      · obtain ⟨_, _, _, rfl⟩ := m'.flushConsole_redrawn.of_ok happly
        obtain ⟨hprompt, hwidth⟩ := ih (hm'.redrawn ⟨_, _, _, rfl⟩) hops'
        exact ⟨hprompt.trans hscreen.promptLen_eq, hwidth.trans hscreen.width_eq⟩

end Line

/-- The divisor of `flush_console` is not zero exactly when a console reports a width, and
in every run of the editor its differences do not wrap exactly when no call comes with an
empty line after a prompt that fills its rows. -/
theorem flush_console_defined_iff (size : Option UInt16) (prompt : List UInt8) (promptLen : ℕ)
    (before line : List UInt8) (consoleWidth : ℕ) (ops : List Operation)
    (hwidth : 1 ≤ consoleWidth) (hsmall : promptLen + 2 * line.length + consoleWidth < 2 ^ 64)
    (hops : ∀ op ∈ ops, op.NonNul) :
    (xwinsize size ≠ 0 ↔ ∃ col, size = some col ∧ col ≠ 0) ∧
    ((∀ m, Line.Flushed (Line.start prompt promptLen before line consoleWidth) ops m →
        m.FlushDefined) ↔
      ∀ m, Line.Flushed (Line.start prompt promptLen before line consoleWidth) ops m →
        m.promptLen % m.consoleWidth ≠ 0 ∨ m.lineLen ≠ 0) := by
  refine ⟨xwinsize_ne_zero_iff size, ?_⟩
  refine Line.flushed_defined_iff (Line.start_refines _ _ _ _ _) hops hwidth hsmall ?_
  exact lt_max_of_lt_right (Nat.lt_succ_self _)

/-- A prompt of two cells on a console of eighty. -/
theorem flush_console_defined_insert :
    xwinsize (some 80) ≠ 0 ∧
    ∀ m, Line.Flushed (Line.start [0x3e, 0x20] 2 [0] (List.replicate 64 0) 80)
      [.insertChar 'a', .deleteChar false] m → m.FlushDefined := by
  have hops : ∀ op ∈ [Operation.insertChar 'a', .deleteChar false], op.NonNul := by
    simp [Operation.NonNul]
  obtain ⟨hwidth, hdefined⟩ := flush_console_defined_iff (some 80) [0x3e, 0x20] 2 [0]
    (List.replicate 64 0) 80 [.insertChar 'a', .deleteChar false] (by decide) (by decide) hops
  refine ⟨hwidth.mpr ⟨80, rfl, by decide⟩, hdefined.mpr fun m hm => Or.inl ?_⟩
  obtain ⟨hprompt, hconsole⟩ := hm.screen (Line.start_refines _ _ _ _ _) hops
  rw [hprompt, hconsole]
  exact of_decide_eq_true rfl

/-- No width without a console; and with a prompt that fills one row, a cursor movement in
the empty line is one row above the rows of the text. -/
theorem flush_console_wraps :
    (∃ size, xwinsize size = 0) ∧
    ∃ m, Line.Flushed (Line.start [0x3e, 0x20] 2 [0] (List.replicate 64 0) 2)
      [.updateCursorPos .moveLeft] m ∧ ¬m.FlushDefined := by
  refine ⟨⟨none, rfl⟩, Line.start [0x3e, 0x20] 2 [0] (List.replicate 64 0) 2, .here rfl, ?_⟩
  exact fun h => absurd h.up (by decide +kernel)

end Parcel
