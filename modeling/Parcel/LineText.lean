import Parcel.Console
import Parcel.Faulting
import Parcel.TextZipper

/-!
# The text of a line

The buffer, its two sizes and the two positions of the cursor stand for a text with a
cursor, whose characters can have any number of bytes and of cells. The moves of the
cursor are those of the text. The text can also consist of byte sequences that encode no
character, and the two counters of cells can be ahead of it.
-/

namespace Parcel
open BoundedReads Faulting Utf8Encoding TextZipper

/-- The cells of a text: `codepoint_width` of each character. -/
def cells (cs : List Char) : ℕ := (cs.map fun c => cpRenderedWidth c.toNat).sum

@[simp] theorem cells_nil : cells [] = 0 := rfl

@[simp] theorem cells_cons (c : Char) (cs : List Char) :
    cells (c :: cs) = cpRenderedWidth c.toNat + cells cs := rfl

@[simp] theorem cells_append (cs ds : List Char) : cells (cs ++ ds) = cells cs + cells ds := by
  rw [cells, List.map_append, List.sum_append, cells, cells]

def CursorDirection.edit : CursorDirection → Edit Char
  | .moveUp | .moveDown => .stay
  | .moveRight => .moveRight
  | .moveLeft => .moveLeft
  | .moveHome => .moveHome
  | .moveEnd => .moveEnd
  | .jumpForward => .jumpForward
  | .jumpBackward => .jumpBackward

def CursorDirection.surplus (d : CursorDirection) (a b : ℕ) : ℕ :=
  match d with
  | .moveHome => 0
  | .moveEnd => b
  | _ => a

def isSpace (c : Char) : Bool := c == ' '

section

variable {α : Type} [Coded α]

def spell (as : List α) : List UInt8 := as.flatMap Coded.bytes

def breadth (as : List α) : ℕ := (as.map Coded.width).sum

@[simp] theorem spell_nil : spell ([] : List α) = [] := rfl

@[simp] theorem spell_cons (a : α) (as : List α) :
    spell (a :: as) = Coded.bytes a ++ spell as := rfl

@[simp] theorem spell_append (as bs : List α) : spell (as ++ bs) = spell as ++ spell bs :=
  List.flatMap_append

theorem spell_singleton (a : α) : spell [a] = Coded.bytes a := List.append_nil _

theorem spell_concat_length (as : List α) (a : α) :
    (spell (as ++ [a])).length = (spell as).length + (Coded.bytes a).length := by
  rw [spell_append, spell_singleton, List.length_append]

@[simp] theorem breadth_nil : breadth ([] : List α) = 0 := rfl

@[simp] theorem breadth_cons (a : α) (as : List α) :
    breadth (a :: as) = Coded.width a + breadth as := rfl

@[simp] theorem breadth_append (as bs : List α) : breadth (as ++ bs) = breadth as + breadth bs := by
  rw [breadth, List.map_append, List.sum_append, breadth, breadth]

theorem length_le_spell (as : List α) : as.length ≤ (spell as).length := by
  induction as with
  | nil => exact le_rfl
  | cons a as ih =>
    have := Coded.length_pos a
    rw [spell_cons, List.length_append, List.length_cons]
    omega

def leadsSpace (a : α) : Bool := Coded.lead a == 0x20

def CursorDirection.motion : CursorDirection → Edit α
  | .moveUp | .moveDown => .stay
  | .moveRight => .moveRight
  | .moveLeft => .moveLeft
  | .moveHome => .moveHome
  | .moveEnd => .moveEnd
  | .jumpForward => .jumpForward
  | .jumpBackward => .jumpBackward

omit [Coded α] in
theorem text_edit_motion (sep : α → Bool) (z : Zipper α) (d : CursorDirection) :
    (z.edit sep d.motion).text = z.text := by
  cases d with
  | moveUp => rfl
  | moveDown => rfl
  | moveRight => exact Zipper.text_moveRight z
  | moveLeft => exact Zipper.text_moveLeft z
  | moveHome => rfl
  | moveEnd => exact List.append_nil _
  | jumpForward => simp [CursorDirection.motion, Zipper.edit]
  | jumpBackward => simp [CursorDirection.motion, Zipper.edit]

end

theorem leadsSpace_char : leadsSpace (α := Char) = isSpace := by
  funext c
  rw [leadsSpace, isSpace, Bool.eq_iff_iff, beq_iff_eq, beq_iff_eq]
  exact Codepoint.lead_ofChar_eq_iff c (d := ' ') (by decide)

theorem CursorDirection.edit_eq_motion (d : CursorDirection) : d.edit = d.motion := by
  cases d <;> rfl

theorem lead_ne_zero {c : Char} (h : c ≠ '\x00') : Coded.lead c ≠ 0 :=
  fun h0 => h ((Codepoint.lead_ofChar_eq_iff c (d := '\x00') (by decide)).mp h0)

namespace Line

structure Holds (l : Line) (cs : List Char) : Prop where
  bytes : l.line.take l.lineSize = encode cs
  size : l.lineSize = (encode cs).length
  len : l.lineLen = cells cs
  nonNul : ∀ c ∈ cs, c ≠ '\x00'

structure Refines (l : Line) (z : Zipper Char) : Prop extends l.Holds z.text where
  offset : l.cursor.offset = (encode z.left).length
  column : l.cursor.column = cells z.left

/-- The buffer spells the text, and the counters of cells are ahead of it: by `a` at the
cursor and by `b` at the end. -/
structure Spells {α : Type} [Coded α] (l : Line) (z : Zipper α) (a b : ℕ) : Prop where
  bytes : l.line.take l.lineSize = spell z.text
  size : l.lineSize = (spell z.text).length
  len : l.lineLen = breadth z.text + b
  offset : l.cursor.offset = (spell z.left).length
  column : l.cursor.column = breadth z.left + a

theorem Refines.spells {l : Line} {z : Zipper Char} (h : l.Refines z) : l.Spells z 0 0 :=
  ⟨h.bytes, h.size, h.len, h.offset, h.column⟩

theorem Spells.refines {l : Line} {z : Zipper Char} (h : l.Spells z 0 0)
    (hnul : ∀ c ∈ z.text, c ≠ '\x00') : l.Refines z :=
  ⟨⟨h.bytes, h.size, h.len, hnul⟩, h.offset, h.column⟩

theorem Refines.nonNul_lead {l : Line} {z : Zipper Char} (h : l.Refines z) :
    ∀ c ∈ z.text, Coded.lead c ≠ 0 := fun c hc => lead_ne_zero (h.nonNul c hc)

def Moved (l l' : Line) : Prop := ∃ offset column,
  l' = { l with cursor.offset := offset, cursor.column := column }

theorem Moved.refl (l : Line) : l.Moved l := ⟨_, _, rfl⟩

variable {l l' l'' : Line}

theorem Moved.trans (h : l.Moved l') (h' : l'.Moved l'') : l.Moved l'' := by
  obtain ⟨_, _, rfl⟩ := h
  obtain ⟨_, _, rfl⟩ := h'
  exact ⟨_, _, rfl⟩

section

variable {α : Type} [Coded α] {z : Zipper α} {L R : List α} {x : α} {a b : ℕ}

namespace Spells

theorem size_le (h : l.Spells z a b) : l.lineSize ≤ l.line.length := by
  have hlen := congrArg List.length h.bytes
  rw [List.length_take, ← h.size] at hlen
  omega

theorem line_eq (h : l.Spells z a b) :
    l.line = spell z.left ++ (spell z.right ++ l.line.drop l.lineSize) := by
  rw [← List.append_assoc, ← spell_append]
  exact (List.take_append_drop _ _).symm.trans (congrArg (· ++ _) h.bytes)

theorem size_eq (h : l.Spells z a b) :
    l.lineSize = (spell z.left).length + (spell z.right).length := by
  rw [h.size, Zipper.text, spell_append, List.length_append]

theorem offset_add (h : l.Spells z a b) :
    l.cursor.offset + (spell z.right).length = l.lineSize := by
  rw [h.offset, h.size_eq]

theorem move (h : l.Spells z a b) {z' : Zipper α} (hz : z'.text = z.text) (hl : l.Moved l') {a' : ℕ}
    (hoffset : l'.cursor.offset = (spell z'.left).length)
    (hcolumn : l'.cursor.column = breadth z'.left + a') : l'.Spells z' a' b := by
  obtain ⟨_, _, rfl⟩ := hl
  exact ⟨hz ▸ h.bytes, hz ▸ h.size, hz ▸ h.len, hoffset, hcolumn⟩

end Spells

theorem prevAtCursor_eq (h : l.Spells ⟨L ++ [x], R⟩ a b) :
    l.prevAtCursor = .ok (Codepoint.of x) := by
  have hline := h.line_eq
  have hle : l.cursor.offset ≤ l.line.length := by
    have := h.offset_add
    have := h.size_le
    omega
  have htake : l.line.take l.cursor.offset = spell L ++ Coded.bytes x := by
    rw [h.offset, hline, List.take_left, spell_append, spell_singleton]
  rw [prevAtCursor, if_pos hle, htake, List.reverse_append, List.append_assoc, prevCodepoint_bytes]
  rfl

theorem prevAtCursor_nil (h : l.Spells ⟨[], R⟩ a b) :
    l.prevAtCursor = orFault .below (prevCodepoint l.before) := by
  have hzero : l.cursor.offset = 0 := h.offset
  rw [prevAtCursor, hzero, if_pos (Nat.zero_le _)]
  rfl

theorem nextAtCursor_eq (h : l.Spells ⟨L, x :: R⟩ a b) :
    l.nextAtCursor = .ok (Codepoint.of x) := by
  have hline := h.line_eq
  have hdrop : l.line.drop l.cursor.offset =
      Coded.bytes x ++ (spell R ++ l.line.drop l.lineSize) := by
    conv_lhs => rw [hline]
    rw [h.offset, List.drop_left, spell_cons, List.append_assoc]
  rw [nextAtCursor, hdrop, nextCodepoint_bytes]
  rfl

theorem orFault_subWithin (f : Fault) (a b : ℕ) : orFault f (subWithin (a + b) b) = .ok a := by
  rw [subWithin, if_pos (Nat.le_add_left b a), Nat.add_sub_cancel]
  rfl

theorem moveCursorLeft_spec (h : l.Spells z a b) : ∃ l',
    l.moveCursorLeft = .ok (!z.left.isEmpty, l') ∧ l'.Spells z.moveLeft a b ∧ l.Moved l' := by
  obtain ⟨L, R⟩ := z
  induction L using List.reverseRecOn with
  | nil =>
    have hzero : ¬0 < l.cursor.offset := by simp [h.offset]
    refine ⟨l, ?_, h, Moved.refl l⟩
    rw [moveCursorLeft, if_neg hzero]
    rfl
  | append_singleton L x _ =>
    have hoffset : l.cursor.offset = (spell L).length + (Codepoint.of x).size := by
      rw [h.offset, spell_concat_length]
      rfl
    have hcolumn : l.cursor.column = breadth L + a + (Codepoint.of x).len := by
      rw [h.column, breadth_append, breadth_cons, breadth_nil]
      change _ = breadth L + a + Coded.width x
      omega
    have hpos : 0 < (Codepoint.of x).size := Coded.length_pos x
    have hmoved : l.Moved { l with
        cursor.offset := (spell L).length
        cursor.column := breadth L + a } := ⟨_, _, rfl⟩
    rw [Zipper.moveLeft_concat]
    refine ⟨_, ?_, h.move (by simp [Zipper.text]) hmoved rfl rfl, hmoved⟩
    rw [moveCursorLeft, if_pos (by omega), prevAtCursor_eq h, ok_bind, hoffset, hcolumn,
      orFault_subWithin, ok_bind, orFault_subWithin, ok_bind]
    simp [pure, Except.pure]

theorem moveCursorRight_spec (h : l.Spells z a b) : ∃ l',
    l.moveCursorRight = .ok (!z.right.isEmpty, l') ∧ l'.Spells z.moveRight a b ∧ l.Moved l' := by
  obtain ⟨L, R⟩ := z
  have hsize := h.size_eq
  cases R with
  | nil =>
    have hend : l.cursor.offset = l.lineSize := h.offset_add
    have hz : (⟨L, []⟩ : Zipper α).moveRight = ⟨L, []⟩ := by simp [Zipper.moveRight]
    refine ⟨l, ?_, by rw [hz]; exact h, Moved.refl l⟩
    rw [moveCursorRight, if_neg (not_not.mpr hend)]
    rfl
  | cons x R =>
    have hpos := Coded.length_pos x
    have hne : l.cursor.offset ≠ l.lineSize := by
      rw [spell_cons, List.length_append] at hsize
      rw [h.offset]
      omega
    have hmoved : l.Moved { l with
        cursor.offset := l.cursor.offset + (Codepoint.of x).size
        cursor.column := l.cursor.column + (Codepoint.of x).len } := ⟨_, _, rfl⟩
    rw [Zipper.moveRight_cons]
    refine ⟨_, ?_, h.move (by simp [Zipper.text]) hmoved ?_ ?_, hmoved⟩
    · rw [moveCursorRight, if_pos hne, nextAtCursor_eq h, ok_bind]
      rfl
    · rw [spell_concat_length, ← h.offset]
      rfl
    · rw [breadth_append, breadth_cons, breadth_nil]
      simp only [h.column, Codepoint.of]
      omega

/-- The scan below the buffer can run through all of the memory there. -/
def ScansThrough (l : Line) (f : Fault) : Prop :=
  f = .below ∧ ∀ b ∈ l.before, isContinuation b = true

/-- The scan of `prev_codepoint` at the start of the line. -/
def scanBelow (l : Line) : Except Fault Codepoint := orFault .below (prevCodepoint l.before)

theorem Moved.scanBelow_eq (h : l.Moved l') : l'.scanBelow = l.scanBelow := by
  obtain ⟨_, _, rfl⟩ := h
  rfl

theorem scanBelow_ends (l : Line) : Ends (fun _ => True) l.ScansThrough l.scanBelow := by
  rw [scanBelow]
  by_cases h : ∃ b ∈ l.before, isContinuation b = false
  · obtain ⟨cp, hcp⟩ := Option.isSome_iff_exists.mp (prevCodepoint_isSome h)
    rw [hcp]
    trivial
  · have hall : ∀ b ∈ l.before, isContinuation b = true := by simpa using h
    cases prevCodepoint l.before with
    | none => exact ⟨rfl, hall⟩
    | some cp => trivial

/-- The result `l'`, after a scan below the buffer if `below` is true. -/
def scanIf (l : Line) (below : Bool) (l' : Line) : Except Fault Line :=
  if below then l.scanBelow.map fun _ => l' else .ok l'

theorem scanIf_ends (l l' : Line) (below : Bool) :
    Ends (· = l') l.ScansThrough (l.scanIf below l') := by
  have hscan := l.scanBelow_ends
  unfold scanIf
  split
  · cases h : l.scanBelow with
    | ok cp => exact rfl
    | error f => exact hscan.of_error h
  · exact rfl

/-- A loop of `move_cursor_word_start`, by induction on the text before the cursor. The
scan at the start of the line is made when the loop comes there. -/
theorem skipLeft_spec {p : UInt8 → Bool} (h : l.Spells z a b) {fuel : ℕ}
    (hfuel : z.left.length < fuel) : ∃ l',
      skipLeft p fuel l =
        l.scanIf (z.skipLeft fun x => p (Coded.lead x)).left.isEmpty l' ∧
      l'.Spells (z.skipLeft fun x => p (Coded.lead x)) a b ∧ l.Moved l' := by
  obtain ⟨L, R⟩ := z
  induction L using List.reverseRecOn generalizing l R fuel with
  | nil =>
    obtain ⟨fuel, rfl⟩ : ∃ k, fuel = k + 1 := ⟨fuel - 1, by omega⟩
    obtain ⟨l', hleft, -, -⟩ := moveCursorLeft_spec h
    have hzero : ¬0 < l.cursor.offset := by simp [h.offset]
    have hstays : l.moveCursorLeft = .ok (false, l) := by
      rw [moveCursorLeft, if_neg hzero]
      rfl
    rw [Zipper.skipLeft_nil]
    refine ⟨l, ?_, h, Moved.refl l⟩
    -- Whatever the byte below the buffer is, the cursor stays.
    rw [skipLeft, prevAtCursor_nil h, scanIf, List.isEmpty_nil, if_pos rfl, scanBelow]
    cases orFault Fault.below (prevCodepoint l.before) with
    | error f => rfl
    | ok cp =>
      rw [ok_bind, hstays, ok_bind]
      split <;> rfl
  | append_singleton L x ih =>
    obtain ⟨fuel, rfl⟩ : ∃ k, fuel = k + 1 := ⟨fuel - 1, by omega⟩
    have hfuel' : L.length < fuel := by
      simp only [List.length_append, List.length_singleton] at hfuel
      omega
    rw [skipLeft, prevAtCursor_eq h, ok_bind, Zipper.skipLeft_concat]
    change ∃ l', (if p (Coded.lead x) = true then _ else _) = _ ∧ _
    by_cases hp : p (Coded.lead x) = true
    · obtain ⟨l₁, hleft, hl₁, hmoved⟩ := moveCursorLeft_spec h
      rw [Zipper.moveLeft_concat] at hl₁
      obtain ⟨l₂, hskip, hl₂, hmoved₂⟩ := ih (x :: R) hl₁ hfuel'
      simp only [if_pos hp]
      refine ⟨l₂, ?_, hl₂, hmoved.trans hmoved₂⟩
      rw [hleft, ok_bind, if_pos (by simp), hskip, scanIf, hmoved.scanBelow_eq, scanIf]
    · simp only [if_neg hp]
      exact ⟨l, by simp [scanIf, pure, Except.pure], h, Moved.refl l⟩

theorem skipRight_spec {p : UInt8 → Bool} (h : l.Spells z a b)
    (hnul : ∀ x ∈ z.text, Coded.lead x ≠ 0) {fuel : ℕ} (hfuel : z.right.length < fuel) : ∃ l',
      skipRight p fuel l = .ok l' ∧
      l'.Spells (z.skipRight fun x => p (Coded.lead x)) a b ∧ l.Moved l' := by
  obtain ⟨L, R⟩ := z
  -- one turn of the loop for each character to the right of the cursor
  induction R generalizing l L fuel with
  | nil =>
    obtain ⟨fuel, rfl⟩ : ∃ k, fuel = k + 1 := ⟨fuel - 1, by omega⟩
    have hend : ¬l.cursor.offset < l.lineSize := by
      rw [← h.offset_add]
      exact Nat.lt_irrefl _
    rw [Zipper.skipRight_nil]
    refine ⟨l, ?_, h, Moved.refl l⟩
    rw [skipRight, if_neg hend]
    rfl
  | cons x R ih =>
    obtain ⟨fuel, rfl⟩ : ∃ k, fuel = k + 1 := ⟨fuel - 1, by omega⟩
    have hpos := Coded.length_pos x
    have hlt : l.cursor.offset < l.lineSize := by
      rw [← h.offset_add, spell_cons, List.length_append]
      omega
    have hbyte : byteAt l.line l.cursor.offset = some (Coded.lead x) := by
      obtain ⟨lead, tail, hx, -⟩ := Coded.exists_wellFormed x
      have hline := h.line_eq
      rw [spell_cons, hx] at hline
      rw [byteAt, h.offset, Coded.lead, hx, hline, List.getElem?_append_right le_rfl, Nat.sub_self]
      rfl
    have hlead : Coded.lead x ≠ 0 := hnul x (by simp [Zipper.text])
    rw [skipRight, if_pos hlt, hbyte, Zipper.skipRight_cons]
    change ∃ l', (if Coded.lead x = 0 ∨ p (Coded.lead x) = false then _ else _) = _ ∧ _
    -- the loop looks at the first byte of a character, and moves over all of them
    by_cases hp : p (Coded.lead x) = true
    · obtain ⟨l₁, hright, hl₁, hmoved⟩ := moveCursorRight_spec h
      rw [Zipper.moveRight_cons] at hl₁
      obtain ⟨l₂, hskip, hl₂, hmoved₂⟩ := ih (L ++ [x]) hl₁ (by simpa [Zipper.text] using hnul)
        (Nat.lt_of_succ_lt_succ hfuel)
      simp only [if_pos hp]
      refine ⟨l₂, ?_, hl₂, hmoved.trans hmoved₂⟩
      rw [if_neg (by simp [hlead, hp]), hright, ok_bind, hskip]
    · simp only [if_neg hp]
      refine ⟨l, ?_, h, Moved.refl l⟩
      rw [if_pos (Or.inr (Bool.eq_false_iff.mpr hp))]
      rfl

theorem moveCursorWordStart_spec (h : l.Spells z a b) : ∃ l',
    l.moveCursorWordStart =
      l.scanIf ((z.skipLeft leadsSpace).skipLeft (!leadsSpace ·)).left.isEmpty l' ∧
    l'.Spells ((z.skipLeft leadsSpace).skipLeft (!leadsSpace ·)) a b ∧ l.Moved l' := by
  have hfuel {l : Line} {z : Zipper α} (h : l.Spells z a b) :
      z.left.length < l.cursor.offset + 1 := by
    rw [h.offset]
    exact Nat.lt_succ_of_le (length_le_spell z.left)
  obtain ⟨l₁, hskip₁, hl₁, hmoved₁⟩ := skipLeft_spec (p := (· == 0x20)) h (hfuel h)
  obtain ⟨l₂, hskip₂, hl₂, hmoved₂⟩ := skipLeft_spec (p := (· != 0x20)) hl₁ (hfuel hl₁)
  refine ⟨l₂, ?_, hl₂, hmoved₁.trans hmoved₂⟩
  rw [moveCursorWordStart, hskip₁]
  change _ = l.scanIf ((z.skipLeft leadsSpace).skipLeft (!leadsSpace ·)).left.isEmpty l₂
  by_cases hfirst : (z.skipLeft fun x => Coded.lead x == 0x20).left = []
  · -- The second loop makes the scan that the first one has made.
    have hsecond : ((z.skipLeft leadsSpace).skipLeft (!leadsSpace ·)).left = [] := by
      have hleft : (z.skipLeft leadsSpace).left = [] := hfirst
      rw [Zipper.skipLeft, hleft]
      rfl
    have hsecond' : ((z.skipLeft fun x => Coded.lead x == 0x20).skipLeft
        fun x => Coded.lead x != 0x20).left = [] := hsecond
    rw [hfirst, hsecond, List.isEmpty_nil, scanIf, if_pos rfl, scanIf, if_pos rfl]
    cases hscan : l.scanBelow with
    | error f => rfl
    | ok cp =>
      change skipLeft _ _ l₁ = _
      rw [hskip₂, hsecond', List.isEmpty_nil, scanIf, if_pos rfl, hmoved₁.scanBelow_eq, hscan]
  · have hnot : (z.skipLeft fun x => Coded.lead x == 0x20).left.isEmpty = false := by
      simpa using hfirst
    rw [hnot, scanIf, if_neg Bool.false_ne_true, ok_bind, hskip₂, scanIf, hmoved₁.scanBelow_eq]
    rfl

theorem moveCursorWordEnd_spec (h : l.Spells z a b) (hnul : ∀ x ∈ z.text, Coded.lead x ≠ 0) :
    ∃ l', l.moveCursorWordEnd = .ok l' ∧
      l'.Spells ((z.skipRight leadsSpace).skipRight (!leadsSpace ·)) a b ∧ l.Moved l' := by
  have hfuel {l : Line} {z : Zipper α} (h : l.Spells z a b) :
      z.right.length < l.lineSize - l.cursor.offset + 1 := by
    have hadd := h.offset_add
    have := length_le_spell z.right
    omega
  obtain ⟨l₁, hskip₁, hl₁, hmoved₁⟩ := skipRight_spec (p := (· == 0x20)) h hnul (hfuel h)
  have hnul' : ∀ x ∈ (z.skipRight fun x => Coded.lead x == 0x20).text, Coded.lead x ≠ 0 := by
    simpa using hnul
  obtain ⟨l₂, hskip₂, hl₂, hmoved₂⟩ := skipRight_spec (p := (· != 0x20)) hl₁ hnul' (hfuel hl₁)
  refine ⟨l₂, ?_, hl₂, hmoved₁.trans hmoved₂⟩
  rw [moveCursorWordEnd, hskip₁, ok_bind, hskip₂]

theorem moveCursor_spec (h : l.Spells z a b) (hnul : ∀ x ∈ z.text, Coded.lead x ≠ 0)
    (d : CursorDirection) :
    Ends (fun l' => l'.Spells (z.edit leadsSpace d.motion) (d.surplus a b) b ∧ l.Moved l')
      l.ScansThrough (l.moveCursor d) := by
  cases d with
  | moveUp => exact ⟨h, Moved.refl l⟩
  | moveDown => exact ⟨h, Moved.refl l⟩
  | moveRight =>
    obtain ⟨l', hright, hl'⟩ := moveCursorRight_spec h
    rw [moveCursor, hright]
    exact hl'
  | moveLeft =>
    obtain ⟨l', hleft, hl'⟩ := moveCursorLeft_spec h
    rw [moveCursor, hleft]
    exact hl'
  | moveHome =>
    have hmoved : l.Moved { l with cursor.offset := 0, cursor.column := 0 } := ⟨_, _, rfl⟩
    refine ⟨h.move ?_ hmoved ?_ ?_, hmoved⟩
    · exact List.nil_append _
    · rfl
    · rfl
  | moveEnd =>
    have hmoved : l.Moved { l with
        cursor.offset := l.lineSize
        cursor.column := l.lineLen } := ⟨_, _, rfl⟩
    exact ⟨h.move (List.append_nil _) hmoved h.size h.len, hmoved⟩
  | jumpForward =>
    obtain ⟨l', hjump, hl'⟩ := moveCursorWordEnd_spec h hnul
    rw [moveCursor, hjump]
    exact hl'
  | jumpBackward =>
    obtain ⟨l', hjump, hl'⟩ := moveCursorWordStart_spec h
    rw [moveCursor, hjump]
    refine (l.scanIf_ends l' _).mono ?_ fun _ => id
    rintro _ rfl
    exact hl'

end

end Line

end Parcel
