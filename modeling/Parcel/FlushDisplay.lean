import Parcel.FlushRuns
import Parcel.Terminal

/-!
# What a terminal makes of `flush_console`

The sequences that `flush_console` writes clear the rows of the old text, draw the
prompt and the text, and bring the cursor to its place.
-/

namespace Parcel
open BoundedReads Faulting Utf8Encoding TextZipper Terminal

def moveBytes (dir : UInt8) (dist : ℕ) : List UInt8 :=
  if dist = 0 then [] else [0x1b, 0x5b] ++ xutoa dist ++ [0x41 + dir]

theorem moveCursorUnlessZero_bytes (dir : UInt8) {dist : ℕ} (h : dist < 100000) :
    moveCursorUnlessZero dir dist = .ok (moveBytes dir dist) := by
  unfold moveCursorUnlessZero moveCursorPos moveBytes
  split
  · rfl
  · have hlen : (xutoa dist).length ≤ 5 := by
      rw [xutoa, List.length_map, List.length_reverse, Nat.digits_length_le_iff (by decide)]
      omega
    rw [if_pos (by omega)]

theorem digit_toNat {d : ℕ} (hd : d < 10) : (UInt8.ofNat (48 + d)).toNat = 48 + d := by
  rw [UInt8.toNat_ofNat', Nat.mod_eq_of_lt (by omega)]

theorem count_xutoa {n : ℕ} (hn : n < 2 ^ 32) : Screen.count (xutoa n) = n := by
  have hread (ds : List ℕ) (hds : ∀ d ∈ ds, d < 10) :
      Screen.count (ds.reverse.map fun d => UInt8.ofNat (48 + d)) = Nat.ofDigits 10 ds := by
    induction ds with
    | nil => rfl
    | cons d ds ih =>
      have hrest := ih fun x hx => hds x (List.mem_cons_of_mem d hx)
      rw [Screen.count] at hrest
      rw [Screen.count, List.reverse_cons, List.map_append, List.foldl_append, hrest,
        List.map_singleton, List.foldl_cons, List.foldl_nil,
        digit_toNat (hds d List.mem_cons_self), Nat.ofDigits_cons]
      omega
  rw [xutoa, Nat.mod_eq_of_lt hn, hread _ fun d hd => Nat.digits_lt_base (by decide) hd,
    Nat.ofDigits_digits]

theorem xutoa_lt (n : ℕ) : ∀ b ∈ xutoa n, b < 0x40 := by
  intro b hb
  rw [xutoa, List.mem_map] at hb
  obtain ⟨d, hd, rfl⟩ := hb
  have hlt := Nat.digits_lt_base (by decide) (List.mem_reverse.mp hd)
  rw [UInt8.lt_iff_toNat_lt, digit_toNat hlt]
  show 48 + d < 64
  omega

variable {f : Format} {s : Screen}

theorem display_moveBytes (dir : UInt8) (hdir : 0x40 ≤ 0x41 + dir) {dist : ℕ} (hpos : dist ≠ 0) :
    display f (s, .ground) (moveBytes dir dist) =
      (s.control f (xutoa dist) (0x41 + dir), .ground) := by
  rw [moveBytes, if_neg hpos, display_control (xutoa_lt dist) hdir]

theorem max_count_xutoa {dist : ℕ} (hpos : dist ≠ 0) (h : dist < 100000) :
    max 1 (Screen.count (xutoa dist)) = dist := by
  rw [count_xutoa (by omega), max_eq_right (by omega)]

theorem display_down {dist : ℕ} (h : dist < 100000) (hpending : s.pending = false)
    (hroom : s.row + dist < f.height) :
    display f (s, .ground) (moveBytes 1 dist) = ({ s with row := s.row + dist }, .ground) := by
  by_cases hpos : dist = 0
  · subst hpos
    rfl
  · have hdown := control_down (f := f) (s := s) (xutoa dist)
    rw [max_count_xutoa hpos h, min_eq_left (by omega)] at hdown
    rw [display_moveBytes 1 (by decide) hpos]
    exact congrArg (·, Reading.ground) (hdown.trans (by rw [← hpending]))

theorem display_place {up right : ℕ} (hup : up < 100000) (hright : right < 100000)
    (hw : right < f.width) :
    display f (s, .ground) (moveBytes 0 up ++ [0x0d] ++ moveBytes 2 right) =
      ({ s with row := s.row - up, column := right, pending := false }, .ground) := by
  have hreturn : display f (s, .ground) (moveBytes 0 up ++ [0x0d]) =
      ({ s with row := s.row - up, column := 0, pending := false }, .ground) := by
    by_cases hpos : up = 0
    · subst hpos
      rfl
    · have hmove := control_up (f := f) (s := s) (xutoa up)
      rw [max_count_xutoa hpos hup] at hmove
      rw [display_append, display_moveBytes 0 (by decide) hpos]
      exact congrArg (fun s => (Screen.carriageReturn s, Reading.ground)) hmove
  rw [display_append, hreturn]
  by_cases hpos : right = 0
  · subst hpos
    rfl
  · have hmove := control_right (f := f)
      (s := { s with row := s.row - up, column := 0, pending := false }) (xutoa right)
    rw [max_count_xutoa hpos hright, Nat.zero_add, min_eq_left (by omega)] at hmove
    rw [display_moveBytes 2 (by decide) hpos]
    exact congrArg (·, Reading.ground) hmove

/-- The rows from `top` on, without what the last `k + 1` showed. -/
def cleared (s : Screen) (top k : ℕ) : Screen :=
  { cell := fun r c => if top ≤ r ∧ r ≤ top + k then .blank else s.cell r c
    row := top
    column := 0
    pending := false }

theorem display_clearRow : display f (s, .ground) Line.clearRow =
    (s.carriageReturn.eraseRight, .ground) := rfl

theorem display_clear (top k : ℕ) (hrow : s.row = top + k) :
    display f (s, .ground)
        ((List.replicate k (Line.clearRow ++ Line.rowUp)).flatten ++ Line.clearRow) =
      (cleared s top k, .ground) := by
  induction k generalizing s with
  | zero =>
    have hcell : s.carriageReturn.eraseRight = cleared s top 0 := by
      unfold Screen.eraseRight Screen.carriageReturn cleared
      rw [hrow]
      congr 1
      funext r c
      congr 1
      rw [eq_iff_iff]
      dsimp only
      omega
    rw [List.replicate_zero, List.flatten_nil, List.nil_append, display_clearRow, hcell]
  | succ k ih =>
    have hup : display f (s, .ground) (Line.clearRow ++ Line.rowUp) =
        ({ s.carriageReturn.eraseRight with row := top + k, pending := false }, .ground) := by
      have hmove : display f (s.carriageReturn.eraseRight, .ground) Line.rowUp =
          ({ s.carriageReturn.eraseRight with row := s.row - 1, pending := false }, .ground) := rfl
      rw [display_append, display_clearRow, hmove, hrow]
      rfl
    rw [List.replicate_succ, List.flatten_cons, List.append_assoc, display_append, hup, ih rfl]
    congr 1
    unfold Screen.eraseRight Screen.carriageReturn cleared
    dsimp only
    congr 1
    funext r c
    rw [hrow]
    split_ifs <;> first | rfl | omega

namespace Line

def usedRows (m : Line) : ℕ := max m.cursor.row m.textRows

def newlineBytes (m : Line) : List UInt8 :=
  if m.atEol = true ∧ m.columns = 0 then [0x0a, 0x0d] else []

/-- What a call of `flush_console` writes. -/
def flushBytes (m : Line) : List UInt8 :=
  moveBytes 1 (m.usedRows - m.rowsTo m.cursor.renderedColumn) ++
    ((List.replicate (m.usedRows - 1) (clearRow ++ rowUp)).flatten ++ clearRow) ++
    m.prompt ++ m.line.take m.lineSize ++ m.newlineBytes ++
    (moveBytes 0 (m.rowsBelow - m.rowsTo m.cursor.column) ++ [0x0d] ++ moveBytes 2 m.columns)

variable {m : Line}

theorem moveCursor_bytes {a b bound : ℕ} (hba : b ≤ a) (ha : a ≤ bound) (hbound : bound < 100000)
    (dir : UInt8) : moveCursorUnlessZero dir (wrapSub a b) = .ok (moveBytes dir (a - b)) := by
  rw [wrapSub_eq hba (by omega), moveCursorUnlessZero_bytes dir (by omega)]

theorem placeCursor_bytes {rows bound : ℕ} (escSeq : List UInt8) (hw : 0 < m.consoleWidth)
    (hwidth : m.consoleWidth < 100000) (hbound : bound < 100000) (hrows : rows + 1 ≤ bound)
    (hup : m.rowsTo m.cursor.column ≤ if m.atEol = true ∧ m.columns = 0 then rows + 1 else rows) :
    m.placeCursor rows escSeq = .ok { m with
      cursor.row := if m.atEol = true ∧ m.columns = 0 then max m.cursor.row (rows + 1)
        else m.cursor.row
      cursor.renderedColumn := m.cursor.column
      terminal := m.terminal ++ (escSeq ++ m.newlineBytes ++
        moveBytes 0 ((if m.atEol = true ∧ m.columns = 0 then rows + 1 else rows) -
          m.rowsTo m.cursor.column) ++ [0x0d] ++ moveBytes 2 m.columns) } := by
  have hcolumn : m.columns < 100000 := (Nat.mod_lt _ hw).trans hwidth
  have hright := moveCursorUnlessZero_bytes 2 hcolumn
  unfold placeCursor newlineBytes
  by_cases hwrapped : m.atEol = true ∧ m.columns = 0
  · rw [if_pos hwrapped] at hup
    have hmove := moveCursor_bytes hup hrows hbound 0
    have hcolumns : columns { m with cursor.row := max m.cursor.row (rows + 1) } = m.columns := rfl
    rw [rowsTo] at hmove
    simp only [if_pos hwrapped, updateRowCount_eq, hmove, hcolumns, hright]
    rfl
  · rw [if_neg hwrapped] at hup
    have hmove := moveCursor_bytes hup ((Nat.le_succ _).trans hrows) hbound 0
    rw [rowsTo] at hmove
    simp only [if_neg hwrapped, hmove, hright]
    rfl

theorem FlushDefined.flushConsole_bytes (hdefined : m.FlushDefined) {bound : ℕ}
    (hsize : m.lineSize ≤ m.line.length) (hw : 0 < m.consoleWidth)
    (hwidth : m.consoleWidth < 100000) (hbound : bound < 100000) (hrow : m.cursor.row ≤ bound)
    (hrows : m.textRows + 1 ≤ bound) :
    m.flushConsole = .ok { m with
      cursor.row := max m.usedRows m.rowsBelow
      cursor.renderedColumn := m.cursor.column
      terminal := m.terminal ++ m.flushBytes } := by
  obtain ⟨hdown, hclear, hup⟩ := hdefined
  rw [updateRowCount_eq] at hdown hclear
  have hused : m.usedRows ≤ bound := max_le hrow (by omega)
  have hmove := moveCursor_bytes (a := m.usedRows) hdown hused hbound 1
  have hnonzero : m.usedRows ≠ 0 := Nat.one_le_iff_ne_zero.mp hclear
  -- the bytes before the cursor is placed, in the order they are written
  have hplace := placeCursor_bytes (m := { m with cursor.row := m.usedRows })
    (moveBytes 1 (m.usedRows - m.rowsTo m.cursor.renderedColumn) ++
      ((List.replicate (m.usedRows - 1) (clearRow ++ rowUp)).flatten ++ clearRow) ++ m.prompt ++
      m.line.take m.lineSize) hw hwidth hbound hrows hup
  -- the row below a full one is counted only at the end of the line
  have hrowAfter : (if m.atEol = true ∧ m.columns = 0 then max m.usedRows (m.textRows + 1)
      else m.usedRows) = max m.usedRows m.rowsBelow := by
    rw [rowsBelow]
    split
    · rfl
    · exact (max_eq_left (le_max_right _ _)).symm
  unfold flushConsole
  simp only [if_neg hw.ne', updateRowCount_eq]
  rw [rowsTo, usedRows, textRows] at hmove
  rw [usedRows, textRows] at hnonzero
  simp only [hmove, if_neg hnonzero]
  rw [ok_bind, copyAt_eq ((Nat.zero_add _).trans_le hsize), orFault, ok_bind]
  refine hplace.trans ?_
  simp only [Except.ok.injEq, Line.mk.injEq, Cursor.mk.injEq, true_and, and_true]
  refine ⟨hrowAfter, ?_⟩
  rw [flushBytes]
  simp only [List.append_assoc]
  rfl

end Line

end Parcel
