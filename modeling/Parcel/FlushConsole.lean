import Parcel.LineEditor

/-!
# Rows of the screen

`flush_console` subtracts row counts: those of the text, rounded up, and those up to a
column, rounded down and increased by one. The differences do not wrap as long as there is
something in the row that the cursor is in.
-/

namespace Parcel
open BoundedReads Faulting Utf8Encoding TextZipper

namespace Line

/-- The variable `rows` of `flush_console`. -/
def textRows (ctx : Line) : ℕ :=
  wrapSub (ctx.promptLen + ctx.lineLen + ctx.consoleWidth) 1 / ctx.consoleWidth

def rowsTo (ctx : Line) (column : ℕ) : ℕ :=
  (ctx.promptLen + column + ctx.consoleWidth) / ctx.consoleWidth

/-- The variable `rows` after the end of a full row. -/
def rowsBelow (ctx : Line) : ℕ :=
  if ctx.atEol = true ∧ ctx.columns = 0 then ctx.textRows + 1 else ctx.textRows

/-- No difference in `flush_console` is below zero. -/
structure FlushDefined (ctx : Line) : Prop where
  down : ctx.rowsTo ctx.cursor.renderedColumn ≤ (ctx.updateRowCount ctx.textRows).cursor.row
  clear : 1 ≤ (ctx.updateRowCount ctx.textRows).cursor.row
  up : ctx.rowsTo ctx.cursor.column ≤ ctx.rowsBelow

/-- The rendered column is in a row that has been counted, or in that of the prompt. -/
def Placed (l : Line) : Prop :=
  (l.promptLen + l.cursor.renderedColumn) / l.consoleWidth <
    max l.cursor.row (l.promptLen / l.consoleWidth + 1)

variable {l l' m : Line} {z : Zipper Char}

theorem wrapSub_eq {a b : ℕ} (hba : b ≤ a) (ha : a < 2 ^ 64) : wrapSub a b = a - b := by
  unfold wrapSub
  omega

theorem moveCursorUnlessZero_eq (dir : UInt8) (dist : ℕ) (h : dist < 100000) :
    ∃ seq, moveCursorUnlessZero dir dist = .ok seq := by
  unfold moveCursorUnlessZero moveCursorPos
  split
  · exact ⟨_, rfl⟩
  · have hlen : (xutoa dist).length ≤ 5 := by
      rw [xutoa, List.length_map, List.length_reverse,
        Nat.digits_length_le_iff (by decide)]
      omega
    exact ⟨_, if_pos (by omega)⟩

theorem div_lt_rows {a b w : ℕ} (hw : 0 < w) (h : a / w * w < b) : a / w < (b + w - 1) / w := by
  rw [Nat.lt_iff_add_one_le, Nat.le_div_iff_mul_le hw, Nat.add_one_mul]
  omega

theorem rows_le {a w : ℕ} (ha : 0 < a) (hw : 0 < w) : (a + w - 1) / w ≤ a := by
  apply Nat.div_le_of_le_mul
  obtain ⟨a, rfl⟩ : ∃ k, a = k + 1 := ⟨a - 1, by omega⟩
  obtain ⟨w, rfl⟩ : ∃ k, w = k + 1 := ⟨w - 1, by omega⟩
  have : (w + 1) * (a + 1) = w * a + w + a + 1 := by ring
  have := Nat.zero_le (w * a)
  omega

theorem cells_pos {cs : List Char} (h : cs ≠ []) : 0 < cells cs := by
  cases cs with
  | nil => exact absurd rfl h
  | cons c cs => exact Nat.add_pos_left (cpRenderedWidth_pos c.toNat) _

theorem div_mul_lt {a w : ℕ} (h : a % w ≠ 0) : a / w * w < a := by
  have := Nat.div_add_mod' a w
  omega

/-- The cursor is in a row of the text, unless the next one is opened for it, or the prompt
fills its rows and there is no text. -/
theorem cursor_row_lt (h : l.Refines z)
    (hprompt : l.promptLen % l.consoleWidth ≠ 0 ∨ l.lineLen ≠ 0)
    (hnot : ¬(l.atEol = true ∧ l.columns = 0)) :
    (l.promptLen + l.cursor.column) / l.consoleWidth * l.consoleWidth <
      l.promptLen + l.lineLen := by
  have hlen : l.lineLen = l.cursor.column + cells z.right := by
    rw [h.len, h.column, Zipper.text, cells_append]
  by_cases hright : z.right = []
  · have hend : l.cursor.offset = l.lineSize := by
      simpa [hright] using h.spells.offset_add
    have hmod : (l.promptLen + l.cursor.column) % l.consoleWidth ≠ 0 := by
      intro hzero
      have hstart : l.cursor.offset = 0 := by
        by_contra hne
        rw [hend] at hne
        exact hnot ⟨by simp [atEol, hend, hne], hzero⟩
      -- The text is empty.
      have hleft : z.left = [] := by
        have := length_le_spell z.left
        rw [← h.spells.offset, hstart] at this
        exact List.length_eq_zero_iff.mp (Nat.le_zero.mp this)
      rw [h.column, hleft, hright, cells_nil] at hlen
      rw [h.column, hleft, cells_nil, Nat.add_zero] at hzero
      exact hprompt.elim (fun hne => hne hzero) fun hne => hne hlen
    refine (div_mul_lt hmod).trans_le ?_
    omega
  · have := cells_pos hright
    have := Nat.div_mul_le_self (l.promptLen + l.cursor.column) l.consoleWidth
    omega

theorem Refines.column_le (h : l.Refines z) : l.cursor.column ≤ l.lineLen := by
  rw [h.len, h.column, Zipper.text, cells_append]
  exact Nat.le_add_right _ _

theorem updateRowCount_eq (l : Line) (rows : ℕ) :
    l.updateRowCount rows = { l with cursor.row := max l.cursor.row rows } := by
  unfold updateRowCount
  split
  · rw [max_eq_right (by omega)]
  · rw [max_eq_left (by omega)]

theorem rowsTo_eq (hw : 0 < l.consoleWidth) (column : ℕ) :
    l.rowsTo column = (l.promptLen + column) / l.consoleWidth + 1 := Nat.add_div_right _ hw

theorem textRows_eq (hw : 0 < l.consoleWidth)
    (hsmall : l.promptLen + l.lineLen + l.consoleWidth < 2 ^ 64) :
    l.textRows = (l.promptLen + l.lineLen + l.consoleWidth - 1) / l.consoleWidth := by
  rw [textRows, wrapSub_eq (by omega) hsmall]

theorem prompt_rows_lt (hw : 0 < l.consoleWidth)
    (hrow : l.promptLen % l.consoleWidth ≠ 0 ∨ l.lineLen ≠ 0) :
    l.promptLen / l.consoleWidth <
      (l.promptLen + l.lineLen + l.consoleWidth - 1) / l.consoleWidth := by
  apply div_lt_rows hw
  rcases hrow with hmod | hlen
  · exact (div_mul_lt hmod).trans_le (Nat.le_add_right _ _)
  · have := Nat.div_mul_le_self l.promptLen l.consoleWidth
    omega

theorem FlushDefined.row_ne (h : m.Refines z) (hw : 0 < m.consoleWidth)
    (hsmall : m.promptLen + m.lineLen + m.consoleWidth < 2 ^ 64) (hdefined : m.FlushDefined) :
    m.promptLen % m.consoleWidth ≠ 0 ∨ m.lineLen ≠ 0 := by
  by_contra hnot
  simp only [not_or, not_not] at hnot
  obtain ⟨hmod, hlen⟩ := hnot
  have htext : z.text = [] := by
    by_contra hne
    have := cells_pos hne
    rw [← h.len] at this
    omega
  have hleft : z.left = [] := (List.append_eq_nil_iff.mp htext).1
  have hoffset : m.cursor.offset = 0 := by rw [h.offset, hleft]; rfl
  have hcolumn : m.cursor.column = 0 := by rw [h.column, hleft]; rfl
  -- So the row after a full one is not opened.
  have heol : m.atEol = false := by simp [atEol, hoffset]
  have hup := hdefined.up
  rw [rowsTo_eq hw, hcolumn, rowsBelow, heol, if_neg (by simp), textRows_eq hw hsmall,
    hlen] at hup
  simp only [Nat.add_zero] at hup
  have hlt : (m.promptLen + m.consoleWidth - 1) / m.consoleWidth <
      m.promptLen / m.consoleWidth + 1 := by
    rw [Nat.div_lt_iff_lt_mul hw, Nat.add_one_mul,
      Nat.div_mul_cancel (Nat.dvd_of_mod_eq_zero hmod)]
    omega
  omega

theorem flushDefined_of_row (h : m.Refines z) (hw : 0 < m.consoleWidth)
    (hsmall : m.promptLen + m.lineLen + m.consoleWidth < 2 ^ 64) (hplaced : m.Placed)
    (hrow : m.promptLen % m.consoleWidth ≠ 0 ∨ m.lineLen ≠ 0) : m.FlushDefined := by
  have hrows := textRows_eq hw hsmall
  have hprompt : m.promptLen / m.consoleWidth + 1 ≤ m.textRows := by
    rw [hrows]
    exact prompt_rows_lt hw hrow
  refine ⟨?_, ?_, ?_⟩
  · rw [rowsTo_eq hw, updateRowCount_eq]
    exact (Nat.succ_le_of_lt hplaced).trans (max_le_max_left _ hprompt)
  · rw [updateRowCount_eq]
    exact ((Nat.succ_pos _).trans_le hprompt).trans_le (le_max_right _ _)
  · rw [rowsTo_eq hw, rowsBelow]
    split
    · -- A row has been opened for the cursor.
      have hcolumn := h.column_le
      rw [hrows]
      apply Nat.succ_le_succ
      apply Nat.div_le_div_right
      omega
    · rename_i hnot
      rw [hrows]
      exact div_lt_rows hw (cursor_row_lt h hrow hnot)

theorem placeCursor_ends_cursor {rows : ℕ} (hrows : rows ≤ m.cursor.row) (escSeq : List UInt8) :
    Ends (fun l' => l'.cursor.row =
        max m.cursor.row (if m.atEol = true ∧ m.columns = 0 then rows + 1 else rows) ∧
      l'.cursor.renderedColumn = m.cursor.column) (fun _ => True) (m.placeCursor rows escSeq) := by
  unfold placeCursor
  refine (Ends.trivial _).bind fun up _ => (Ends.trivial _).bind fun right _ => ?_
  by_cases hwrapped : m.atEol = true ∧ m.columns = 0
  · simp only [if_pos hwrapped, updateRowCount_eq]
    exact ⟨rfl, rfl⟩
  · simp only [if_neg hwrapped]
    exact ⟨(max_eq_left hrows).symm, rfl⟩

theorem flushConsole_cursor (m : Line) :
    Ends (fun l' => l'.cursor.row = max (max m.cursor.row m.textRows) m.rowsBelow ∧
      l'.cursor.renderedColumn = m.cursor.column) (fun _ => True) m.flushConsole := by
  unfold flushConsole
  split
  · trivial
  · refine (Ends.trivial _).bind fun down _ => ?_
    split
    · trivial
    · refine (Ends.trivial _).bind fun text _ => ?_
      rw [updateRowCount_eq]
      exact placeCursor_ends_cursor (m := { m with cursor.row := max m.cursor.row m.textRows })
        (le_max_right _ _) _

theorem FlushDefined.placed (hw : 0 < m.consoleWidth) (hdefined : m.FlushDefined)
    (hflush : m.flushConsole = .ok l') : l'.Placed := by
  obtain ⟨hrow, hrendered⟩ := m.flushConsole_cursor.of_ok hflush
  obtain ⟨_, _, _, rfl⟩ := m.flushConsole_redrawn.of_ok hflush
  have hup := hdefined.up
  rw [rowsTo_eq hw, ← hrendered] at hup
  exact lt_max_of_lt_left (hup.trans ((le_max_right _ _).trans hrow.ge))

theorem moveCursorUnlessZero_wrapSub {a b bound : ℕ} (hba : b ≤ a) (ha : a ≤ bound)
    (hbound : bound < 100000) (dir : UInt8) :
    ∃ seq, moveCursorUnlessZero dir (wrapSub a b) = .ok seq := by
  apply moveCursorUnlessZero_eq
  rw [wrapSub_eq hba (by omega)]
  omega

theorem placeCursor_ok {rows bound : ℕ} (escSeq : List UInt8) (hw : 0 < m.consoleWidth)
    (hwidth : m.consoleWidth < 100000) (hbound : bound < 100000) (hrows : rows + 1 ≤ bound)
    (hup : m.rowsTo m.cursor.column ≤
      if m.atEol = true ∧ m.columns = 0 then rows + 1 else rows) :
    ∃ l', m.placeCursor rows escSeq = .ok l' := by
  obtain ⟨right, hright⟩ := moveCursorUnlessZero_eq 2 m.columns
    ((Nat.mod_lt _ hw).trans hwidth)
  unfold placeCursor
  by_cases hwrapped : m.atEol = true ∧ m.columns = 0
  · -- The row count is raised, and nothing else that the distances depend on.
    rw [if_pos hwrapped] at hup
    obtain ⟨up, hmove⟩ := moveCursorUnlessZero_wrapSub hup hrows hbound 0
    have hcolumns : columns { m with cursor.row := max m.cursor.row (rows + 1) } = m.columns := rfl
    rw [rowsTo] at hmove
    simp only [if_pos hwrapped, updateRowCount_eq, hmove, hcolumns, hright]
    exact ⟨_, rfl⟩
  · rw [if_neg hwrapped] at hup
    obtain ⟨up, hmove⟩ := moveCursorUnlessZero_wrapSub hup ((Nat.le_succ _).trans hrows) hbound 0
    rw [rowsTo] at hmove
    simp only [if_neg hwrapped, hmove, hright]
    exact ⟨_, rfl⟩

/-- A call with defined differences ends, as long as no row is too large for its digits. -/
theorem FlushDefined.flushConsole_ok (hdefined : m.FlushDefined) {bound : ℕ}
    (hsize : m.lineSize ≤ m.line.length) (hw : 0 < m.consoleWidth)
    (hwidth : m.consoleWidth < 100000) (hbound : bound < 100000) (hrow : m.cursor.row ≤ bound)
    (hrows : m.textRows + 1 ≤ bound) : ∃ l', m.flushConsole = .ok l' := by
  obtain ⟨hdown, hclear, hup⟩ := hdefined
  rw [updateRowCount_eq] at hdown hclear
  have hle : max m.cursor.row m.textRows ≤ bound :=
    max_le hrow ((Nat.le_succ _).trans hrows)
  obtain ⟨down, hmove⟩ := moveCursorUnlessZero_wrapSub hdown hle hbound 1
  have hnonzero : max m.cursor.row m.textRows ≠ 0 := Nat.one_le_iff_ne_zero.mp hclear
  rw [rowsTo, textRows] at hmove
  rw [textRows] at hnonzero
  unfold flushConsole
  simp only [if_neg hw.ne', updateRowCount_eq, hmove, if_neg hnonzero]
  rw [ok_bind, copyAt_eq ((Nat.zero_add _).trans_le hsize), orFault, ok_bind]
  exact placeCursor_ok (m := { m with cursor.row := max m.cursor.row m.textRows }) _ hw hwidth
    hbound hrows hup

end Line

end Parcel
