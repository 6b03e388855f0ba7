import Parcel.LineText

/-!
# The line editor edits a text

An insertion or a deletion is the edit of the text that its name says, then a call of
`flush_console`, which redraws the text and leaves it alone.
-/

namespace Parcel
open BoundedReads Faulting Utf8Encoding TextZipper

/-- Faults of `flush_console`, which does not touch the text. -/
def Fault.Screen (f : Fault) : Prop := f = .divide ∨ f = .digits ∨ f = .endless

namespace Line

variable {l l' : Line}

/-- What `flush_console` may change. -/
def Redrawn (l l' : Line) : Prop := ∃ row column terminal,
  l' = { l with cursor.row := row, cursor.renderedColumn := column, terminal := terminal }

theorem Spells.redrawn {α : Type} [Coded α] {z : Zipper α} {a b : ℕ} (h : l.Spells z a b)
    (hl : l.Redrawn l') : l'.Spells z a b := by
  obtain ⟨row, column, terminal, rfl⟩ := hl
  exact ⟨h.bytes, h.size, h.len, h.offset, h.column⟩

theorem Refines.redrawn {z : Zipper Char} (h : l.Refines z) (hl : l.Redrawn l') : l'.Refines z :=
  (h.spells.redrawn hl).refines h.nonNul

def Terminated (l : Line) : Prop := l.line[l.lineSize]? = some 0

theorem Redrawn.terminated (hl : l.Redrawn l') (h : l.Terminated) : l'.Terminated := by
  obtain ⟨row, column, terminal, rfl⟩ := hl
  exact h

theorem Moved.terminated (hl : l.Moved l') (h : l.Terminated) : l'.Terminated := by
  obtain ⟨offset, column, rfl⟩ := hl
  exact h

theorem updateRowCount_redrawn (l : Line) (rows : ℕ) : l.Redrawn (l.updateRowCount rows) := by
  unfold updateRowCount
  split
  · exact ⟨_, _, _, rfl⟩
  · exact ⟨_, _, _, rfl⟩

theorem moveCursorUnlessZero_ends (dir : UInt8) (dist : ℕ) :
    Ends (fun _ => True) Fault.Screen (moveCursorUnlessZero dir dist) := by
  unfold moveCursorUnlessZero moveCursorPos
  split_ifs
  · trivial
  · trivial
  · exact Or.inr (Or.inl rfl)

theorem Redrawn.trans {l'' : Line} (h : l.Redrawn l') (h' : l'.Redrawn l'') : l.Redrawn l'' := by
  obtain ⟨_, _, _, rfl⟩ := h
  obtain ⟨_, _, _, rfl⟩ := h'
  exact ⟨_, _, _, rfl⟩

theorem placeCursor_ends (l : Line) (rows : ℕ) (escSeq : List UInt8) :
    Ends l.Redrawn Fault.Screen (l.placeCursor rows escSeq) := by
  unfold placeCursor
  refine (moveCursorUnlessZero_ends _ _).bind fun up _ => ?_
  refine (moveCursorUnlessZero_ends _ _).bind fun right _ => ?_
  have hrow : l.Redrawn (if l.atEol = true ∧ l.columns = 0 then
      l.updateRowCount (if l.atEol = true ∧ l.columns = 0 then rows + 1 else rows) else l) := by
    split
    · exact updateRowCount_redrawn l _
    · exact ⟨_, _, _, rfl⟩
  exact hrow.trans ⟨_, _, _, rfl⟩

theorem flushConsole_redrawn (l : Line) :
    Ends l.Redrawn (fun f => f.Screen ∨ f = .read ∧ l.line.length < l.lineSize) l.flushConsole := by
  unfold flushConsole
  split
  · exact Or.inl (Or.inl rfl)
  · refine Ends.bind ((moveCursorUnlessZero_ends _ _).mono (fun _ => id) fun _ => Or.inl)
      fun down _ => ?_
    split
    · -- The loop over the rows would not end.
      exact Or.inl (Or.inr (Or.inr rfl))
    · have hredrawn := updateRowCount_redrawn l
        (wrapSub (l.promptLen + l.lineLen + l.consoleWidth) 1 / l.consoleWidth)
      generalize l.updateRowCount _ = m at hredrawn ⊢
      have hline : m.line = l.line ∧ m.lineSize = l.lineSize := by
        obtain ⟨_, _, _, rfl⟩ := hredrawn
        exact ⟨rfl, rfl⟩
      have htext : Ends (fun _ => True) (fun f => f.Screen ∨ f = .read ∧ l.line.length < l.lineSize)
          (orFault .read (copyAt m.line 0 m.lineSize)) := by
        rw [hline.1, hline.2]
        by_cases hle : 0 + l.lineSize ≤ l.line.length
        · rw [copyAt_eq hle]
          trivial
        · cases copyAt l.line 0 l.lineSize with
          | none => exact Or.inr ⟨rfl, by omega⟩
          | some text => trivial
      refine htext.bind fun text _ => ?_
      exact (placeCursor_ends m _ _).mono (fun _ => hredrawn.trans) fun _ => Or.inl

theorem flushConsole_ends (h : l.lineSize ≤ l.line.length) :
    Ends l.Redrawn Fault.Screen l.flushConsole :=
  l.flushConsole_redrawn.mono (fun _ => id) fun _ hf =>
    hf.resolve_right fun hread => not_lt.mpr h hread.2

/-! ## Insertions -/

/-- Nothing but the text differs, as long as the screen is not redrawn. -/
structure SameScreen (l l' : Line) : Prop where
  length_eq : l'.line.length = l.line.length
  before_eq : l'.before = l.before
  promptLen_eq : l'.promptLen = l.promptLen
  width_eq : l'.consoleWidth = l.consoleWidth
  row_eq : l'.cursor.row = l.cursor.row
  rendered_eq : l'.cursor.renderedColumn = l.cursor.renderedColumn

theorem Moved.sameScreen (hl : l.Moved l') : l.SameScreen l' := by
  obtain ⟨offset, column, rfl⟩ := hl
  exact ⟨rfl, rfl, rfl, rfl, rfl, rfl⟩

/-- A new text, then a call of `flush_console`. -/
def Redraws (l : Line) (z : Zipper Char) (x : Except Fault Line) : Prop :=
  ∃ m, m.Refines z ∧ l.SameScreen m ∧ x = flushConsole m

theorem memmove_eq (mem : List UInt8) (dst src n : ℕ) (hsrc : src + n ≤ mem.length)
    (hdst : dst + n ≤ mem.length) :
    ∃ mem', memmove mem dst src n = .ok mem' ∧ mem'.length = mem.length ∧
      mem'.take dst = mem.take dst ∧
      mem'.drop dst = (mem.drop src).take n ++ mem.drop (dst + n) := by
  have hlen : ((mem.drop src).take n).length = n := by
    rw [List.length_take, List.length_drop]
    omega
  obtain ⟨mem', h⟩ := exists_writeAt mem ((mem.drop src).take n) dst (by rw [hlen]; exact hdst)
  rw [hlen] at h
  refine ⟨mem', ?_, h.2⟩
  rw [memmove, copyAt_eq hsrc]
  exact congrArg (orFault Fault.write) h.1

theorem memmove_error (mem : List UInt8) (dst src n : ℕ) (hsrc : src + n ≤ mem.length)
    (hdst : mem.length < dst + n) : memmove mem dst src n = .error .write := by
  have hlen : ((mem.drop src).take n).length = n := by
    rw [List.length_take, List.length_drop]
    omega
  rw [memmove, copyAt_eq hsrc]
  exact congrArg (orFault Fault.write) (writeAt_eq_none (by rw [hlen]; exact hdst))

theorem take_eq_of_le {mem mem' : List UInt8} {i j : ℕ} (hij : i ≤ j)
    (h : mem'.take j = mem.take j) : mem'.take i = mem.take i := by
  have := congrArg (List.take i) h
  rwa [List.take_take, List.take_take, Nat.min_eq_left hij] at this

theorem take_add_of_take {mem A B : List UInt8} {i n : ℕ} (hA : mem.take i = A)
    (hB : (mem.drop i).take n = B) : mem.take (i + n) = A ++ B := by
  rw [List.take_add, hA, hB]

/-- The line after an insertion of `len` bytes in `w` cells, before it is redrawn. -/
def inserted (l : Line) (mem : List UInt8) (len w : ℕ) : Line :=
  { l with
    line := mem
    lineSize := l.lineSize + len
    lineLen := l.lineLen + w
    cursor.offset := l.cursor.offset + len
    cursor.column := l.cursor.column + w }

/-! What the operations hand to `flush_console`, if they call it. -/

def insertLine (ctx : Line) (c : List UInt8) (len : ℕ) : Except Fault (Option Line) := do
  let cpLen ← orFault .read (codepointWidth c len)
  if cpLen = 0 then return none
  return some (ctx.inserted (← ctx.insertBytes c len) len cpLen)

def shrinkLine (ctx : Line) (cp : Codepoint) : Except Fault (Option Line) := do
  let lineSize ← orFault .wrap (subWithin ctx.lineSize cp.size)
  let line ← orFault .write (writeAt ctx.line lineSize [0])
  let lineLen ← orFault .wrap (subWithin ctx.lineLen cp.len)
  return some { ctx with line := line, lineSize := lineSize, lineLen := lineLen }

def deleteLine (ctx : Line) (del : Bool) : Except Fault (Option Line) :=
  if del = false ∧ 0 < ctx.cursor.offset ∧ 0 < ctx.lineSize then do
    let cp ← ctx.prevAtCursor
    let offset ← orFault .wrap (subWithin ctx.cursor.offset cp.size)
    let tail ← orFault .wrap (subWithin ctx.lineSize ctx.cursor.offset)
    let line ← memmove ctx.line offset ctx.cursor.offset tail
    let column ← orFault .wrap (subWithin ctx.cursor.column cp.len)
    shrinkLine { ctx with line := line, cursor.offset := offset, cursor.column := column } cp
  else if del = true ∧ 0 < ctx.lineSize ∧ ctx.cursor.offset < ctx.lineSize then do
    let cp ← ctx.nextAtCursor
    let rest ← orFault .wrap (subWithin ctx.lineSize ctx.cursor.offset)
    let tail ← orFault .wrap (subWithin rest cp.size)
    let line ← memmove ctx.line ctx.cursor.offset (ctx.cursor.offset + cp.size) tail
    shrinkLine { ctx with line := line } cp
  else
    return none

def redraw (ctx : Line) (x : Except Fault (Option Line)) : Except Fault Line := do
  match ← x with
  | some m => flushConsole m
  | none => return ctx

theorem redraw_bind {β : Type} (x : Except Fault β) (f : β → Except Fault (Option Line)) :
    l.redraw (x >>= f) = x >>= fun a => l.redraw (f a) := by
  cases x with
  | error f => rfl
  | ok a => rfl

theorem insertChar_redraw (l : Line) (c : List UInt8) (len : ℕ) :
    (l.insertChar c len).map Prod.snd = l.redraw (l.insertLine c len) := by
  have hmap (x : Except Fault Line) : (x >>= fun m => .ok (true, m)).map Prod.snd = x := by
    cases x with
    | error f => rfl
    | ok m => rfl
  unfold insertChar insertLine
  cases orFault Fault.read (codepointWidth c len) with
  | error f => rfl
  | ok cpLen =>
    rw [ok_bind, ok_bind]
    by_cases hzero : cpLen = 0
    · rw [if_pos hzero, if_pos hzero]
      rfl
    · rw [if_neg hzero, if_neg hzero]
      cases l.insertBytes c len with
      | error f => rfl
      | ok mem => exact hmap (flushConsole (l.inserted mem len cpLen))

theorem shrink_redraw (m : Line) (cp : Codepoint) :
    m.shrink cp = l.redraw (m.shrinkLine cp) := by
  unfold shrink shrinkLine
  simp only [redraw_bind]
  rfl

theorem deleteChar_redraw (l : Line) (del : Bool) :
    l.deleteChar del = l.redraw (l.deleteLine del) := by
  unfold deleteChar deleteLine
  split
  · simp only [redraw_bind, shrink_redraw (l := l)]
  · split
    · simp only [redraw_bind, shrink_redraw (l := l)]
    · rfl

theorem updateCursorPos_redraw (l : Line) (d : CursorDirection) :
    l.updateCursorPos d = l.redraw ((l.moveCursor d).map some) := by
  rw [updateCursorPos]
  cases l.moveCursor d with
  | error f => rfl
  | ok m => rfl

section

variable {α : Type} [Coded α] {z : Zipper α} {a b : ℕ}

/-- A new text and a NUL after it are handed to `flush_console`. -/
def Hands (l : Line) (z : Zipper α) (a b : ℕ) (x : Except Fault (Option Line)) : Prop :=
  ∃ m, m.Spells z a b ∧ l.SameScreen m ∧ m.Terminated ∧ x = .ok (some m)

/-- A new text and a NUL after it, then a call of `flush_console`. -/
def Rewrites (l : Line) (z : Zipper α) (a b : ℕ) (x : Except Fault Line) : Prop :=
  ∃ m, m.Spells z a b ∧ l.SameScreen m ∧ m.Terminated ∧ x = flushConsole m

theorem Hands.rewrites {x : Except Fault (Option Line)} (h : l.Hands z a b x) :
    l.Rewrites z a b (l.redraw x) := by
  obtain ⟨m, hm, hscreen, hnul, rfl⟩ := h
  exact ⟨m, hm, hscreen, hnul, rfl⟩

theorem Rewrites.ends {x : Except Fault Line} (h : l.Rewrites z a b x) :
    Ends (fun l' => l'.Spells z a b ∧ l'.Terminated ∧ l'.line.length = l.line.length)
      Fault.Screen x := by
  obtain ⟨m, hm, hscreen, hnul, rfl⟩ := h
  refine (flushConsole_ends hm.size_le).mono (fun l' hl' => ?_) fun _ => id
  refine ⟨hm.redrawn hl', hl'.terminated hnul, ?_⟩
  obtain ⟨_, _, _, rfl⟩ := hl'
  exact hscreen.length_eq

theorem Spells.tail_eq (h : l.Spells z a b) :
    orFault .wrap (subWithin l.lineSize l.cursor.offset) = .ok (spell z.right).length := by
  rw [← h.offset_add, Nat.add_comm, orFault_subWithin]

theorem makeRoom_eq (h : l.Spells z a b) {n : ℕ} (hfit : l.lineSize + n ≤ l.line.length) :
    ∃ mem, l.makeRoom n = .ok mem ∧ mem.length = l.line.length ∧
      mem.take l.cursor.offset = spell z.left ∧
      (mem.drop (l.cursor.offset + n)).take (spell z.right).length = spell z.right := by
  have hline := h.line_eq
  have htake : l.line.take l.cursor.offset = spell z.left := by
    rw [h.offset, hline, List.take_left]
  -- the source moves nothing when the cursor is at the end
  by_cases hend : l.lineSize = l.cursor.offset
  · have hright : spell z.right = [] := by
      rw [← List.length_eq_zero_iff]
      have := h.offset_add
      omega
    refine ⟨l.line, if_neg (not_not.mpr hend), rfl, htake, ?_⟩
    rw [hright, List.length_nil, List.take_zero]
  · have hsrc : l.cursor.offset + (spell z.right).length ≤ l.line.length := by
      rw [h.offset_add]
      exact (Nat.le_add_right _ n).trans hfit
    have hdst : l.cursor.offset + n + (spell z.right).length ≤ l.line.length := by
      have := h.offset_add
      omega
    have hcopy : (l.line.drop l.cursor.offset).take (spell z.right).length =
        spell z.right := by
      rw [h.offset]
      conv_lhs => rw [hline]
      rw [List.drop_left, List.take_left]
    obtain ⟨mem, hmem, hlen, hbefore, hafter⟩ := memmove_eq l.line _ _ _ hsrc hdst
    refine ⟨mem, ?_, hlen, ?_, ?_⟩
    · rw [makeRoom, if_pos hend, h.tail_eq]
      exact hmem
    · rw [← htake]
      exact take_eq_of_le (Nat.le_add_right _ n) hbefore
    · rw [hafter, hcopy, List.take_left]

theorem copyAt_front (bs rest : List UInt8) :
    orFault .read (copyAt (bs ++ rest) 0 bs.length) = .ok bs := by
  rw [copyAt_eq (by simp), List.drop_zero, List.take_left]
  rfl

theorem insertBytes_eq (h : l.Spells z a b) (bs rest : List UInt8)
    (hfit : l.lineSize + bs.length + 1 ≤ l.line.length) :
    ∃ mem, l.insertBytes (bs ++ rest) bs.length = .ok mem ∧ mem.length = l.line.length ∧
      mem.take (l.lineSize + bs.length) = spell z.left ++ (bs ++ spell z.right) ∧
      mem[l.lineSize + bs.length]? = some 0 := by
  have hsize := h.size_eq
  have hoffset := h.offset
  obtain ⟨m₁, h₁, hlen₁, hleft, hright⟩ := makeRoom_eq h (n := bs.length) (by omega)
  obtain ⟨m₂, h₂, hlen₂, hbefore, hafter⟩ := exists_writeAt m₁ bs l.cursor.offset (by omega)
  obtain ⟨m₃, h₃, hlen₃, hbefore₃, hafter₃⟩ := exists_writeAt m₂ [0]
    (l.lineSize + bs.length) (by simp only [List.length_singleton]; omega)
  refine ⟨m₃, ?_, by omega, ?_, ?_⟩
  · rw [insertBytes, h₁, copyAt_front]
    simp only [orFault, bind, Except.bind, h₂, h₃]
  · have hdrop : (m₂.drop l.cursor.offset).take (bs.length + (spell z.right).length) =
        bs ++ spell z.right := by
      rw [hafter, List.take_length_add_append, hright]
    have hindex : l.lineSize + bs.length =
        l.cursor.offset + (bs.length + (spell z.right).length) := by omega
    rw [hbefore₃, hindex, take_add_of_take (hbefore.trans hleft) hdrop]
  · rw [← Nat.add_zero (l.lineSize + bs.length), ← List.getElem?_drop, hafter₃]
    rfl

theorem insertBytes_error (h : l.Spells z a b) (bs rest : List UInt8)
    (hfit : l.line.length < l.lineSize + bs.length + 1) :
    l.insertBytes (bs ++ rest) bs.length = .error .write := by
  have hadd := h.offset_add
  have hle := h.size_le
  by_cases hroom : l.lineSize + bs.length ≤ l.line.length
  · -- The codepoint fits, the NUL after the line does not.
    obtain ⟨m₁, h₁, hlen₁, -, -⟩ := makeRoom_eq h hroom
    obtain ⟨m₂, h₂, hlen₂, -, -⟩ := exists_writeAt m₁ bs l.cursor.offset (by omega)
    have hnul : writeAt m₂ (l.lineSize + bs.length) [0] = none := by
      apply writeAt_eq_none
      rw [List.length_singleton]
      omega
    rw [insertBytes, h₁, copyAt_front]
    simp only [orFault, bind, Except.bind, h₂, hnul]
  · rw [insertBytes, makeRoom]
    split
    · rw [h.tail_eq]
      have hmove := memmove_error l.line (l.cursor.offset + bs.length)
        l.cursor.offset (spell z.right).length (by omega) (by omega)
      simp only [bind, Except.bind, hmove]
    · have hwrite : writeAt l.line l.cursor.offset bs = none := writeAt_eq_none (by omega)
      rw [copyAt_front]
      simp only [orFault, bind, Except.bind, pure, Except.pure, hwrite]

omit [Coded α] in
theorem insertLine_eq {c mem : List UInt8} {len w : ℕ} (hwidth : codepointWidth c len = some w)
    (hpos : 0 < w) (hmem : l.insertBytes c len = .ok mem) :
    l.insertLine c len = .ok (some (l.inserted mem len w)) := by
  rw [insertLine, hwidth, orFault, ok_bind, if_neg hpos.ne', hmem]
  rfl

theorem insertLine_bytes (h : l.Spells z a b) (x : α) (rest : List UInt8)
    (hfit : l.lineSize + (Coded.bytes x).length + 1 ≤ l.line.length) :
    l.Hands ⟨z.left ++ [x], z.right⟩ a b
      (l.insertLine (Coded.bytes x ++ rest) (Coded.bytes x).length) := by
  obtain ⟨mem, hmem, hlen, htake, hnul⟩ := insertBytes_eq h (Coded.bytes x) rest hfit
  refine ⟨l.inserted mem (Coded.bytes x).length (Coded.width x), ?_,
    ⟨hlen, rfl, rfl, rfl, rfl, rfl⟩, hnul,
    insertLine_eq (Coded.codepointWidth_bytes x rest) (Coded.width_pos x) hmem⟩
  have hsize := h.size_eq
  refine ⟨?_, ?_, ?_, ?_, ?_⟩
  · simp only [inserted, Zipper.text, spell_append, spell_singleton, List.append_assoc]
    exact htake
  · simp only [inserted, Zipper.text, spell_append, spell_singleton, List.length_append]
    omega
  · simp only [inserted, h.len, Zipper.text, breadth_append, breadth_cons, breadth_nil]
    omega
  · rw [spell_concat_length, ← h.offset]
    rfl
  · simp only [inserted, h.column, breadth_append, breadth_cons, breadth_nil]
    omega

theorem insertChar_bytes (h : l.Spells z a b) (x : α) (rest : List UInt8)
    (hfit : l.lineSize + (Coded.bytes x).length + 1 ≤ l.line.length) :
    l.Rewrites ⟨z.left ++ [x], z.right⟩ a b
      ((l.insertChar (Coded.bytes x ++ rest) (Coded.bytes x).length).map Prod.snd) := by
  rw [insertChar_redraw]
  exact (insertLine_bytes h x rest hfit).rewrites

theorem insertLine_zero (h : l.Spells z a b) (c : List UInt8) {len : ℕ} (hlen : len = 0)
    (hfit : l.lineSize + 1 ≤ l.line.length) :
    l.Hands z (a + 1) (b + 1) (l.insertLine c len) := by
  subst hlen
  obtain ⟨mem, hmem, hlength, htake, hnul⟩ := insertBytes_eq h [] c hfit
  refine ⟨l.inserted mem 0 1, ?_, ⟨hlength, rfl, rfl, rfl, rfl, rfl⟩, hnul,
    insertLine_eq (codepointWidth_zero c) Nat.one_pos hmem⟩
  refine ⟨?_, h.size, ?_, h.offset, ?_⟩
  · rw [Zipper.text, spell_append]
    exact htake
  · simp only [inserted, h.len]
    omega
  · simp only [inserted, h.column]
    omega

theorem insertChar_zero (h : l.Spells z a b) (c : List UInt8) {len : ℕ} (hlen : len = 0)
    (hfit : l.lineSize + 1 ≤ l.line.length) :
    l.Rewrites z (a + 1) (b + 1) ((l.insertChar c len).map Prod.snd) := by
  rw [insertChar_redraw]
  exact (insertLine_zero h c hlen hfit).rewrites

theorem insertLine_error (h : l.Spells z a b) (bs rest : List UInt8) {w : ℕ}
    (hwidth : codepointWidth (bs ++ rest) bs.length = some w) (hpos : 0 < w)
    (hfit : l.line.length < l.lineSize + bs.length + 1) :
    l.insertLine (bs ++ rest) bs.length = .error .write := by
  rw [insertLine, hwidth, orFault, ok_bind, if_neg hpos.ne', insertBytes_error h bs rest hfit]
  rfl

theorem insertChar_error (h : l.Spells z a b) (bs rest : List UInt8) {w : ℕ}
    (hwidth : codepointWidth (bs ++ rest) bs.length = some w) (hpos : 0 < w)
    (hfit : l.line.length < l.lineSize + bs.length + 1) :
    (l.insertChar (bs ++ rest) bs.length).map Prod.snd = .error .write := by
  rw [insertChar_redraw, insertLine_error h bs rest hwidth hpos hfit]
  rfl

theorem insertChar_zero_error (h : l.Spells z a b) (c : List UInt8) {len : ℕ} (hlen : len = 0)
    (hfit : l.line.length < l.lineSize + 1) :
    (l.insertChar c len).map Prod.snd = .error .write := by
  subst hlen
  exact insertChar_error h [] c (codepointWidth_zero c) Nat.one_pos hfit

/-! ## Deletions -/

theorem exists_erase {z : Zipper α} {L R : List α} {x : α} (h : l.Spells z a b)
    (hz : z.text = L ++ x :: R) (a' : ℕ) :
    ∃ mem, memmove l.line (spell L).length ((spell L).length + (Coded.bytes x).length)
        (spell R).length = .ok mem ∧
      l.Hands ⟨L, R⟩ a' b
        (shrinkLine { l with
          line := mem
          cursor.offset := (spell L).length
          cursor.column := breadth L + a' } (Codepoint.of x)) := by
  have hpos := Coded.length_pos x
  have hbytes := h.bytes
  have hsize := h.size
  have hle := h.size_le
  have hline := (List.take_append_drop l.lineSize l.line).symm
  rw [hbytes, hz, spell_append, spell_cons, List.append_assoc, List.append_assoc] at hline
  simp only [hz, spell_append, spell_cons, List.length_append] at hsize
  obtain ⟨m₁, h₁, hlen₁, hbefore, hafter⟩ := memmove_eq l.line (spell L).length
    ((spell L).length + (Coded.bytes x).length) (spell R).length (by omega) (by omega)
  have hleft : m₁.take (spell L).length = spell L := by
    rw [hbefore, hline, List.take_left]
  have hright : (m₁.drop (spell L).length).take (spell R).length = spell R := by
    rw [hafter, hline, ← List.drop_drop, List.drop_left, List.drop_left, List.take_left,
      List.take_left]
  have htext : (spell (L ++ R)).length = (spell L).length + (spell R).length := by
    rw [spell_append, List.length_append]
  -- The NUL comes after the text that is left.
  obtain ⟨m₂, h₂, hlen₂, hbefore₂, hafter₂⟩ := exists_writeAt m₁ [0]
    (spell (L ++ R)).length (by rw [List.length_singleton]; omega)
  have hl : Spells { l with
      line := m₂
      lineSize := (spell (L ++ R)).length
      lineLen := breadth (L ++ R) + b
      cursor.offset := (spell L).length
      cursor.column := breadth L + a' } ⟨L, R⟩ a' b := by
    refine ⟨?_, rfl, rfl, rfl, rfl⟩
    rw [hbefore₂, htext, take_add_of_take hleft hright]
    exact (spell_append L R).symm
  have hnul : m₂[(spell (L ++ R)).length]? = some 0 := by
    rw [← Nat.add_zero (spell (L ++ R)).length, ← List.getElem?_drop, hafter₂]
    rfl
  refine ⟨m₁, h₁, _, hl, ⟨hlen₂.trans hlen₁, rfl, rfl, rfl, rfl, rfl⟩, hnul, ?_⟩
  have hsize' : l.lineSize = (spell (L ++ R)).length + (Coded.bytes x).length := by omega
  have hlen : l.lineLen = breadth (L ++ R) + b + Coded.width x := by
    simp only [h.len, hz, breadth_append, breadth_cons]
    omega
  rw [shrinkLine, Codepoint.of, hsize', hlen, orFault_subWithin, orFault_subWithin]
  simp only [bind, Except.bind, pure, Except.pure, orFault, h₂]

theorem backspaceLine_spec (h : l.Spells z a b) :
    l.deleteLine false = .ok none ∧ z.backspace = z ∨
      l.Hands z.backspace a b (l.deleteLine false) := by
  obtain ⟨L, R⟩ := z
  induction L using List.reverseRecOn with
  | nil =>
    have hzero : ¬0 < l.cursor.offset := by simp [h.offset]
    left
    simp only [deleteLine, hzero, false_and, and_false, if_false, Bool.false_eq_true]
    exact ⟨rfl, rfl⟩
  | append_singleton L x _ =>
    have hpos := Coded.length_pos x
    have hadd := h.offset_add
    have hoffset : l.cursor.offset = (spell L).length + (Coded.bytes x).length := by
      rw [h.offset, spell_concat_length]
    have hcolumn : l.cursor.column = breadth L + a + Coded.width x := by
      rw [h.column, breadth_append, breadth_cons, breadth_nil]
      omega
    have htext : (⟨L ++ [x], R⟩ : Zipper α).text = L ++ x :: R := by simp [Zipper.text]
    obtain ⟨mem, hmem, hdone⟩ := exists_erase h htext a
    rw [deleteLine, if_pos ⟨rfl, by omega, by omega⟩, prevAtCursor_eq h, Zipper.backspace_concat]
    simp only [bind, Except.bind, h.tail_eq]
    rw [hoffset, hcolumn, Codepoint.of, orFault_subWithin, orFault_subWithin]
    simp only [hmem]
    exact Or.inr hdone

theorem deleteLine_spec (h : l.Spells z a b) :
    l.deleteLine true = .ok none ∧ z.delete = z ∨
      l.Hands z.delete a b (l.deleteLine true) := by
  obtain ⟨L, R⟩ := z
  have hadd := h.offset_add
  cases R with
  | nil =>
    have hend : ¬l.cursor.offset < l.lineSize := by
      simp only [spell_nil, List.length_nil] at hadd
      omega
    left
    simp only [deleteLine, hend, false_and, and_false, if_false, Bool.true_eq_false]
    exact ⟨rfl, rfl⟩
  | cons x R =>
    have hpos := Coded.length_pos x
    simp only [spell_cons, List.length_append] at hadd
    have hrest : orFault .wrap (subWithin l.lineSize l.cursor.offset) =
        .ok ((spell R).length + (Coded.bytes x).length) := by
      rw [h.tail_eq, spell_cons, List.length_append, Nat.add_comm]
    obtain ⟨mem, hmem, hdone⟩ := exists_erase h (z := ⟨L, x :: R⟩) rfl a
    rw [deleteLine, if_neg (by simp), if_pos ⟨rfl, by omega, by omega⟩, nextAtCursor_eq h]
    simp only [bind, Except.bind, hrest]
    rw [Codepoint.of, orFault_subWithin]
    simp only [h.offset, hmem]
    rw [← h.offset, ← h.column] at hdone
    exact Or.inr hdone

theorem backspace_spec (h : l.Spells z a b) :
    l.deleteChar false = .ok l ∧ z.backspace = z ∨
      l.Rewrites z.backspace a b (l.deleteChar false) := by
  rw [deleteChar_redraw]
  refine (backspaceLine_spec h).imp (fun hnone => ⟨?_, hnone.2⟩) Hands.rewrites
  rw [hnone.1]
  rfl

theorem delete_spec (h : l.Spells z a b) :
    l.deleteChar true = .ok l ∧ z.delete = z ∨
      l.Rewrites z.delete a b (l.deleteChar true) := by
  rw [deleteChar_redraw]
  refine (deleteLine_spec h).imp (fun hnone => ⟨?_, hnone.2⟩) Hands.rewrites
  rw [hnone.1]
  rfl

theorem updateCursorPos_spec (h : l.Spells z a b) (hnul : ∀ x ∈ z.text, Coded.lead x ≠ 0)
    (d : CursorDirection) :
    (∃ m, m.Spells (z.edit leadsSpace d.motion) (d.surplus a b) b ∧ l.Moved m ∧
      l.updateCursorPos d = flushConsole m) ∨
    ∃ f, l.updateCursorPos d = .error f ∧ l.ScansThrough f := by
  have hmove := moveCursor_spec h hnul d
  rw [updateCursorPos]
  cases hm : l.moveCursor d with
  | error f => exact Or.inr ⟨f, rfl, hmove.of_error hm⟩
  | ok m =>
    obtain ⟨hspells, hmoved⟩ := hmove.of_ok hm
    exact Or.inl ⟨m, hspells, hmoved, rfl⟩

end

end Line

end Parcel
