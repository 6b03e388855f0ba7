import Parcel.FlushConsole

/-!
# Runs of the line editor

Operations on a line, one after the other, starting from an empty one. The lines of a run
are compared with the texts that the same edits give.
-/

namespace Parcel
open BoundedReads Faulting Utf8Encoding TextZipper

/-- The operations that `xgetline` performs. -/
inductive Operation
  | insertChar (c : Char)
  | deleteChar (del : Bool)
  | updateCursorPos (direction : CursorDirection)

namespace Operation

def apply (l : Line) : Operation → Except Fault Line
  | .insertChar c => (l.insertChar (encodeChar c) (encodeChar c).length).map Prod.snd
  | .deleteChar del => l.deleteChar del
  | .updateCursorPos direction => l.updateCursorPos direction

/-- The line that an operation hands to `flush_console`, if it calls it. -/
def handed (l : Line) : Operation → Except Fault (Option Line)
  | .insertChar c => l.insertLine (encodeChar c) (encodeChar c).length
  | .deleteChar del => l.deleteLine del
  | .updateCursorPos direction => (l.moveCursor direction).map some

theorem apply_eq_redraw (op : Operation) (l : Line) : op.apply l = l.redraw (op.handed l) := by
  cases op with
  | insertChar c => exact Line.insertChar_redraw l _ _
  | deleteChar del => exact Line.deleteChar_redraw l del
  | updateCursorPos direction => exact Line.updateCursorPos_redraw l direction

def edit : Operation → Edit Char
  | .insertChar c => .insert c
  | .deleteChar false => .backspace
  | .deleteChar true => .delete
  | .updateCursorPos direction => direction.edit

def added : Operation → ℕ
  | .insertChar c => (encodeChar c).length
  | _ => 0

def NonNul : Operation → Prop
  | .insertChar c => c ≠ '\x00'
  | _ => True

end Operation

namespace Line

def run (l : Line) (ops : List Operation) : Except Fault Line :=
  ops.foldlM Operation.apply l

/-- The line after an operation, before `flush_console` has drawn it. -/
def edited (l : Line) (op : Operation) : Except Fault Line :=
  (op.handed l).map fun o => o.getD l

/-- The line after a sequence of operations, whatever becomes of drawing it: what
`flush_console` sets is not read by the functions that edit. -/
def edits (l : Line) (ops : List Operation) : Except Fault Line := ops.foldlM edited l

/-- The line that `xgetline` starts with. -/
def start (prompt : List UInt8) (promptLen : ℕ) (before line : List UInt8)
    (consoleWidth : ℕ) : Line :=
  ⟨prompt, promptLen, before, line, 0, 0, ⟨0, 0, 0, 0⟩, consoleWidth, []⟩

variable {l l' : Line} {z : Zipper Char}

theorem start_refines (prompt : List UInt8) (promptLen : ℕ) (before line : List UInt8)
    (consoleWidth : ℕ) :
    (start prompt promptLen before line consoleWidth).Refines Zipper.empty :=
  ⟨⟨rfl, rfl, rfl, by simp [Zipper.empty, Zipper.text]⟩, rfl, rfl⟩

theorem text_edit_direction (z : Zipper Char) (d : CursorDirection) :
    (z.edit isSpace d.edit).text = z.text := by
  rw [CursorDirection.edit_eq_motion]
  exact text_edit_motion isSpace z d

/-- An operation that hands on no line leaves the text and the cursor. -/
def HandsText (l : Line) (z z' : Zipper Char) (o : Option Line) : Prop :=
  o = none ∧ z' = z ∨ ∃ m, o = some m ∧ m.Refines z' ∧ l.SameScreen m

theorem Hands.ends {z' : Zipper Char} {x : Except Fault (Option Line)} {E : Fault → Prop}
    (h : l.Hands z' 0 0 x) (hnul : ∀ c ∈ z'.text, c ≠ '\x00') : Ends (l.HandsText z z') E x := by
  obtain ⟨m, hm, hscreen, -, rfl⟩ := h
  exact Or.inr ⟨m, rfl, hm.refines hnul, hscreen⟩

theorem deleteLine_ends (h : l.Refines z) (del : Bool) {E : Fault → Prop} :
    Ends (l.HandsText z (z.edit isSpace (Operation.deleteChar del).edit)) E (l.deleteLine del) := by
  have hnul : ∀ c ∈ (z.edit isSpace (Operation.deleteChar del).edit).text, c ≠ '\x00' := by
    have hsub := Zipper.edit_sublist isSpace z (e := (Operation.deleteChar del).edit) fun a => by
      cases del <;> simp [Operation.edit]
    exact fun c hc => h.nonNul c (hsub.subset hc)
  cases del with
  | false =>
    rcases backspaceLine_spec h.spells with ⟨hnone, hz⟩ | hdone
    · rw [hnone]
      exact Or.inl ⟨rfl, hz⟩
    · exact hdone.ends hnul
  | true =>
    rcases deleteLine_spec h.spells with ⟨hnone, hz⟩ | hdone
    · rw [hnone]
      exact Or.inl ⟨rfl, hz⟩
    · exact hdone.ends hnul

theorem handed_ends (h : l.Refines z) (op : Operation) (hop : op.NonNul) :
    Ends (l.HandsText z (z.edit isSpace op.edit))
      (fun f => l.ScansThrough f ∨ l.line.length < l.lineSize + op.added + 1 ∧ op.added ≠ 0)
      (op.handed l) := by
  cases op with
  | insertChar c =>
    have hpos := Coded.length_pos c
    by_cases hfit : l.lineSize + (encodeChar c).length + 1 ≤ l.line.length
    · have hdone := insertLine_bytes h.spells c [] hfit
      rw [List.append_nil] at hdone
      exact hdone.ends (Zipper.forall_mem_insert h.nonNul hop)
    · have herror := insertLine_error h.spells (encodeChar c) [] (codepointWidth_encodeChar c [])
        (cpRenderedWidth_pos c.toNat) (not_le.mp hfit)
      rw [List.append_nil] at herror
      rw [Operation.handed, herror]
      exact Or.inr ⟨not_le.mp hfit, hpos.ne'⟩
  | deleteChar del => exact deleteLine_ends h del
  | updateCursorPos d =>
    have hsurplus : d.surplus 0 0 = 0 := by cases d <;> rfl
    have hmove := moveCursor_spec h.spells h.nonNul_lead d
    rw [Operation.handed]
    cases hm : l.moveCursor d with
    | error f => exact Or.inl (hmove.of_error hm)
    | ok m =>
      obtain ⟨hspells, hmoved⟩ := hmove.of_ok hm
      -- A character is a separator if its first byte is a space.
      rw [leadsSpace_char, ← CursorDirection.edit_eq_motion, hsurplus] at hspells
      refine Or.inr ⟨m, rfl, hspells.refines fun c hc => h.nonNul c ?_, hmoved.sameScreen⟩
      rwa [text_edit_direction] at hc

theorem apply_cases (h : l.Refines z) (op : Operation) (hop : op.NonNul)
    (hfit : l.lineSize + op.added + 1 ≤ l.line.length ∨ op.added = 0) :
    (op.apply l = .ok l ∧ z.edit isSpace op.edit = z) ∨
      l.Redraws (z.edit isSpace op.edit) (op.apply l) ∨
      ∃ f, op.apply l = .error f ∧ l.ScansThrough f := by
  have hends := handed_ends h op hop
  rw [Operation.apply_eq_redraw]
  cases hx : op.handed l with
  | error f =>
    refine Or.inr (Or.inr ⟨f, rfl, (hends.of_error hx).resolve_right ?_⟩)
    rintro ⟨hroom, hadded⟩
    exact not_le.mpr hroom (hfit.resolve_right hadded)
  | ok o =>
    rcases hends.of_ok hx with ⟨rfl, hz⟩ | ⟨m, rfl, hm, hscreen⟩
    · exact Or.inl ⟨rfl, hz⟩
    · exact Or.inr (Or.inl ⟨m, hm, hscreen, rfl⟩)

def SameMemory (l l' : Line) : Prop := l'.line.length = l.line.length ∧ l'.before = l.before

theorem apply_ends (h : l.Refines z) (op : Operation) (hop : op.NonNul)
    (hfit : l.lineSize + op.added + 1 ≤ l.line.length ∨ op.added = 0) :
    Ends (fun l' => l'.Refines (z.edit isSpace op.edit) ∧ l.SameMemory l')
      (fun f => f.Screen ∨ l.ScansThrough f) (op.apply l) := by
  rcases apply_cases h op hop hfit with ⟨happly, hz⟩ | ⟨m, hm, hscreen, happly⟩ | ⟨f, happly, hf⟩
  · rw [happly, hz]
    exact ⟨h, rfl, rfl⟩
  · rw [happly]
    refine (flushConsole_ends hm.spells.size_le).mono (fun l' hl' => ?_) fun _ => Or.inl
    obtain ⟨_, _, _, rfl⟩ := hl'
    exact ⟨hm.redrawn ⟨_, _, _, rfl⟩, hscreen.length_eq, hscreen.before_eq⟩
  · rw [happly]
    exact Or.inr hf

theorem edited_ends (h : l.Refines z) (op : Operation) (hop : op.NonNul)
    (hfit : l.lineSize + op.added + 1 ≤ l.line.length) :
    Ends (fun l' => l'.Refines (z.edit isSpace op.edit) ∧ l.SameMemory l') l.ScansThrough
      (l.edited op) := by
  have hends := handed_ends h op hop
  rw [edited]
  cases hx : op.handed l with
  | error f =>
    refine (hends.of_error hx).resolve_right ?_
    exact fun hshort => absurd hshort.1 (by omega)
  | ok o =>
    rcases hends.of_ok hx with ⟨rfl, hz⟩ | ⟨m, rfl, hm, hscreen⟩
    · rw [hz]
      exact ⟨h, rfl, rfl⟩
    · exact ⟨hm, hscreen.length_eq, hscreen.before_eq⟩

theorem added_edit (z : Zipper Char) (op : Operation) :
    (encode (z.edit isSpace op.edit).text).length ≤ (encode z.text).length + op.added := by
  cases op with
  | insertChar c =>
    simp only [Operation.edit, Zipper.edit, Zipper.text, encode_append, encode_singleton,
      List.length_append, Operation.added]
    omega
  | deleteChar del =>
    have hsub := Zipper.edit_sublist isSpace z (e := (Operation.deleteChar del).edit) fun a => by
      cases del <;> simp [Operation.edit]
    exact (hsub.flatMap encodeChar).length_le
  | updateCursorPos d => exact (congrArg _ (congrArg encode (text_edit_direction z d))).le

def room (ops : List Operation) : ℕ := (ops.map Operation.added).sum

/-- What holds after a whole run, by induction on the operations. -/
theorem run_ends (h : l.Refines z) {ops : List Operation} (hops : ∀ op ∈ ops, op.NonNul)
    (hfit : l.lineSize + room ops + 1 ≤ l.line.length) :
    Ends (fun l' => l'.Refines (z.run isSpace (ops.map Operation.edit)) ∧ l.SameMemory l')
      (fun f => f.Screen ∨ l.ScansThrough f) (l.run ops) := by
  induction ops generalizing l z with
  | nil => exact ⟨h, rfl, rfl⟩
  | cons op ops ih =>
    have hroom : room (op :: ops) = op.added + room ops := rfl
    refine (apply_ends h op (hops op List.mem_cons_self) (Or.inl (by omega))).bind ?_
    rintro l' ⟨hl', hlen, hbefore⟩
    have hsize := added_edit z op
    rw [← hl'.size, ← h.size] at hsize
    refine (ih hl' (fun o ho => hops o (List.mem_cons_of_mem _ ho)) (by omega)).mono ?_ ?_
    · rintro l'' ⟨hl'', hmem⟩
      exact ⟨hl'', hmem.1.trans hlen, hmem.2.trans hbefore⟩
    · rintro f (hf | ⟨rfl, hall⟩)
      · exact Or.inl hf
      · exact Or.inr ⟨rfl, hbefore ▸ hall⟩

theorem edits_ends (h : l.Refines z) {ops : List Operation} (hops : ∀ op ∈ ops, op.NonNul)
    (hfit : l.lineSize + room ops + 1 ≤ l.line.length) :
    Ends (fun l' => l'.Refines (z.run isSpace (ops.map Operation.edit))) l.ScansThrough
      (l.edits ops) := by
  induction ops generalizing l z with
  | nil => exact h
  | cons op ops ih =>
    have hroom : room (op :: ops) = op.added + room ops := rfl
    refine (edited_ends h op (hops op List.mem_cons_self) (by omega)).bind ?_
    rintro l' ⟨hl', hlen, hbefore⟩
    have hsize := added_edit z op
    rw [← hl'.size, ← h.size] at hsize
    refine (ih hl' (fun o ho => hops o (List.mem_cons_of_mem _ ho)) (by omega)).mono
      (fun _ hdone => hdone) ?_
    rintro f ⟨rfl, hall⟩
    exact ⟨rfl, hbefore ▸ hall⟩

theorem handed_refines (h : l.Refines z) {done rest : List Operation} {op : Operation}
    (hops : ∀ o ∈ done ++ op :: rest, o.NonNul)
    (hfit : l.lineSize + room (done ++ op :: rest) + 1 ≤ l.line.length) (hrun : l.run done = .ok l')
    {m : Line} (hm : op.handed l' = .ok (some m)) :
    m.Refines (z.run isSpace ((done ++ [op]).map Operation.edit)) := by
  have hroom : room (done ++ op :: rest) = room done + room (op :: rest) := by
    rw [room, room, room, List.map_append, List.sum_append]
  have hdone : l'.Refines (z.run isSpace (done.map Operation.edit)) :=
    ((run_ends h (fun o ho => hops o (List.mem_append_left _ ho)) (by omega)).of_ok hrun).1
  have hop : op.NonNul := hops op (List.mem_append_right _ List.mem_cons_self)
  rcases (handed_ends hdone op hop).of_ok hm with ⟨hnone, -⟩ | ⟨m', hsome, hm', -⟩
  · cases hnone
  · obtain rfl := Option.some.inj hsome
    rw [List.map_append, List.map_cons, List.map_nil, Zipper.run, List.foldl_append]
    exact hm'

/-- A prompt that ends inside a row, with no row or distance above `bound`. -/
structure OnScreen (l : Line) (bound : ℕ) : Prop where
  width_pos : 0 < l.consoleWidth
  width_lt : l.consoleWidth < 100000
  prompt_mod : l.promptLen % l.consoleWidth ≠ 0
  bound_lt : bound < 100000
  row_le : l.cursor.row ≤ bound
  rendered : (l.promptLen + l.cursor.renderedColumn) / l.consoleWidth <
    max l.cursor.row (l.promptLen / l.consoleWidth + 1)

theorem flushConsole_ok (h : l.Refines z) {bound : ℕ} (hscreen : l.OnScreen bound)
    (hbound : l.promptLen + l.lineLen + 1 ≤ bound) :
    ∃ l', l.flushConsole = .ok l' ∧ l'.OnScreen bound := by
  obtain ⟨hw, hwidth, hprompt, hsmall, hrow, hplaced⟩ := hscreen
  have hlen : l.promptLen + l.lineLen + l.consoleWidth < 2 ^ 64 := by omega
  have hpos : 0 < l.promptLen :=
    Nat.pos_of_ne_zero fun hzero => hprompt (by rw [hzero, Nat.zero_mod])
  have hrows : l.textRows + 1 ≤ bound := by
    rw [textRows_eq hw hlen]
    exact (Nat.succ_le_succ (rows_le (by omega) hw)).trans hbound
  have hdefined := flushDefined_of_row h hw hlen hplaced (Or.inl hprompt)
  obtain ⟨l', hl'⟩ := hdefined.flushConsole_ok h.spells.size_le hw hwidth hsmall hrow hrows
  have hplaced' := hdefined.placed hw hl'
  obtain ⟨hrow', -⟩ := l.flushConsole_cursor.of_ok hl'
  have hbelow : l.rowsBelow ≤ l.textRows + 1 := by
    rw [rowsBelow]
    split
    · exact le_rfl
    · exact Nat.le_succ _
  obtain ⟨_, _, _, rfl⟩ := l.flushConsole_redrawn.of_ok hl'
  refine ⟨_, hl', hw, hwidth, hprompt, hsmall, ?_, hplaced'⟩
  rw [hrow']
  exact max_le (max_le hrow ((Nat.le_succ _).trans hrows)) (hbelow.trans hrows)

theorem cpRenderedWidth_le (c : ℕ) : cpRenderedWidth c ≤ 2 := by
  unfold cpRenderedWidth
  split_ifs <;> decide

theorem cells_edit (z : Zipper Char) (op : Operation) :
    cells (z.edit isSpace op.edit).text ≤ cells z.text + 2 := by
  by_cases hop : ∀ a, op.edit ≠ .insert a
  · have hsub := (Zipper.edit_sublist isSpace z hop).map fun c => cpRenderedWidth c.toNat
    exact (hsub.sum_le_sum fun _ _ => Nat.zero_le _).trans (Nat.le_add_right _ _)
  · obtain ⟨c, hc⟩ : ∃ c, op.edit = .insert c := by simpa using hop
    have := cpRenderedWidth_le c.toNat
    rw [hc]
    simp only [Zipper.edit, Zipper.text, cells_append, cells_cons, cells_nil]
    omega

theorem OnScreen.of_sameScreen {bound : ℕ} (h : l.OnScreen bound) (hl : l.SameScreen l') :
    l'.OnScreen bound := by
  obtain ⟨hw, hwidth, hprompt, hsmall, hrow, hrend⟩ := h
  rw [← hl.width_eq] at hw hwidth hprompt hrend
  rw [← hl.promptLen_eq] at hprompt hrend
  rw [← hl.row_eq] at hrow hrend
  rw [← hl.rendered_eq] at hrend
  exact ⟨hw, hwidth, hprompt, hsmall, hrow, hrend⟩

theorem apply_ok (h : l.Refines z) (op : Operation) (hop : op.NonNul)
    (hfit : l.lineSize + op.added + 1 ≤ l.line.length ∨ op.added = 0) {bound : ℕ}
    (hscreen : l.OnScreen bound) (hbound : l.promptLen + l.lineLen + 3 ≤ bound)
    (hbefore : ∃ b ∈ l.before, isContinuation b = false) :
    ∃ l', op.apply l = .ok l' ∧ l'.OnScreen bound ∧ l'.promptLen = l.promptLen := by
  rcases apply_cases h op hop hfit with ⟨happly, -⟩ | ⟨m, hm, hsame, happly⟩ | ⟨f, -, -, hall⟩
  · exact ⟨l, happly, hscreen, rfl⟩
  · have hcells := cells_edit z op
    rw [← hm.len, ← h.len] at hcells
    obtain ⟨l', hl', hscreen'⟩ := flushConsole_ok hm (hscreen.of_sameScreen hsame) (by
      rw [hsame.promptLen_eq]
      omega)
    obtain ⟨_, _, _, rfl⟩ := (flushConsole_ends hm.spells.size_le).of_ok hl'
    exact ⟨_, happly.trans hl', hscreen', hsame.promptLen_eq⟩
  · obtain ⟨b, hb, hnot⟩ := hbefore
    rw [hall b hb] at hnot
    exact absurd hnot (by decide)

theorem run_ok (h : l.Refines z) {ops : List Operation} (hops : ∀ op ∈ ops, op.NonNul)
    (hfit : l.lineSize + room ops + 1 ≤ l.line.length) (bound : ℕ) (hscreen : l.OnScreen bound)
    (hbound : l.promptLen + l.lineLen + 2 * ops.length + 1 ≤ bound)
    (hbefore : ∃ b ∈ l.before, isContinuation b = false) : ∃ l', l.run ops = .ok l' := by
  induction ops generalizing l z with
  | nil => exact ⟨l, rfl⟩
  | cons op ops ih =>
    have hroom : room (op :: ops) = op.added + room ops := rfl
    have hone : l.lineSize + op.added + 1 ≤ l.line.length := by omega
    have hop := hops op List.mem_cons_self
    rw [List.length_cons] at hbound
    obtain ⟨l', happly, hscreen', hprompt⟩ := apply_ok h op hop (Or.inl hone) hscreen
      (by omega) hbefore
    obtain ⟨hl', hlen, hmem⟩ := (apply_ends h op hop (Or.inl hone)).of_ok happly
    have hsize := added_edit z op
    have hcells := cells_edit z op
    rw [← hl'.size, ← h.size] at hsize
    rw [← hl'.len, ← h.len] at hcells
    obtain ⟨l'', hrun⟩ := ih hl' (fun o ho => hops o (List.mem_cons_of_mem _ ho)) (by omega)
      hscreen' (by omega) (hmem ▸ hbefore)
    refine ⟨l'', ?_⟩
    rw [run, List.foldlM_cons, happly]
    exact hrun

end Line

/-- In every sequence of operations on an empty line that has room for what is inserted,
the buffer and its counters stand for the text that the edits give, also in a line that
`flush_console` is handed and does not come to draw. Only `flush_console` and a scan through
all of the memory below the buffer can stop a run, and neither does when the prompt ends
inside a row of the screen and a byte of that memory ends the scan. An operation with
nothing to delete or no room to move leaves the line as it is. -/
theorem line_editor_edits_text (prompt : List UInt8) (promptLen : ℕ) (before line : List UInt8)
    (consoleWidth : ℕ) (ops : List Operation) (hops : ∀ op ∈ ops, op.NonNul)
    (hroom : Line.room ops + 1 ≤ line.length) :
    let l₀ := Line.start prompt promptLen before line consoleWidth
    let z := Zipper.empty.run isSpace (ops.map Operation.edit)
    (∀ l, l₀.edits ops = .ok l → l.Refines z) ∧
      (∀ f, l₀.edits ops = .error f → f = .below ∧ ∀ b ∈ before, isContinuation b = true) ∧
      (∀ done op rest l m, ops = done ++ op :: rest → l₀.run done = .ok l →
        op.handed l = .ok (some m) →
        m.Refines (Zipper.empty.run isSpace ((done ++ [op]).map Operation.edit))) ∧
      (∀ l, l₀.run ops = .ok l → l.Refines z) ∧
      (∀ f, l₀.run ops = .error f →
        f.Screen ∨ f = .below ∧ ∀ b ∈ before, isContinuation b = true) ∧
      (0 < consoleWidth → consoleWidth < 100000 → promptLen % consoleWidth ≠ 0 →
        promptLen + 2 * ops.length + 1 < 100000 → (∃ b ∈ before, isContinuation b = false) →
        ∃ l, l₀.run ops = .ok l) ∧
      ∀ (l : Line) (op : Operation) (l' : Line), l₀.run ops = .ok l → z.Stuck op.edit →
        op.apply l = .ok l' →
        l'.line.take l'.lineSize = l.line.take l.lineSize ∧ l'.lineSize = l.lineSize ∧
          l'.lineLen = l.lineLen ∧ l'.cursor.offset = l.cursor.offset ∧
          l'.cursor.column = l.cursor.column := by
  intro l₀ z
  have hstart : l₀.Refines Zipper.empty := Line.start_refines _ _ _ _ _
  have hfit : l₀.lineSize + Line.room ops + 1 ≤ l₀.line.length := by
    change 0 + Line.room ops + 1 ≤ line.length
    omega
  have hends := Line.run_ends hstart hops hfit
  have hedits := Line.edits_ends hstart hops hfit
  refine ⟨fun l hl => hedits.of_ok hl, fun f hf => hedits.of_error hf, ?_,
    fun l hl => (hends.of_ok hl).1, fun f hf => hends.of_error hf, ?_, ?_⟩
  · rintro done op rest l m rfl hrun hm
    exact Line.handed_refines hstart hops hfit hrun hm
  · intro hw hwidth hprompt hbound hbefore
    refine Line.run_ok hstart hops hfit (promptLen + 2 * ops.length + 1)
      ⟨hw, hwidth, hprompt, hbound, Nat.zero_le _, ?_⟩ (Nat.le_refl _) hbefore
    exact lt_max_of_lt_right (Nat.lt_succ_self _)
  · intro l op l' hl hstuck hop
    have hrefines := (hends.of_ok hl).1
    have hnul : op.NonNul ∧ op.added = 0 := by
      cases op with
      | insertChar c => exact hstuck.elim
      | deleteChar del => exact ⟨trivial, rfl⟩
      | updateCursorPos d => exact ⟨trivial, rfl⟩
    have hstep := ((Line.apply_ends hrefines op hnul.1 (Or.inr hnul.2)).of_ok hop).1
    -- Both lines stand for the same text with the same cursor.
    rw [Zipper.edit_of_stuck isSpace hstuck] at hstep
    exact ⟨hstep.bytes.trans hrefines.bytes.symm, hstep.size.trans hrefines.size.symm,
      hstep.len.trans hrefines.len.symm, hstep.offset.trans hrefines.offset.symm,
      hstep.column.trans hrefines.column.symm⟩

/-- Characters of one, two and three bytes, a jump back over a space and a deletion; and on
a console as wide as the prompt, where the deletion cannot be drawn. -/
theorem line_editor_edits_text_small : (∃ l,
    (Line.start [0x3e, 0x20] 2 [0] (List.replicate 64 0) 80).run
      [.insertChar 'a', .insertChar ' ', .insertChar 'é', .insertChar '世', .insertChar ' ',
        .updateCursorPos .jumpBackward, .deleteChar true] = .ok l ∧
      l.Refines ⟨['a', ' '], ['世', ' ']⟩) ∧
    ∃ l, (Line.start [0x3e, 0x20] 2 [0] (List.replicate 64 0) 2).run
        [.insertChar 'a', .deleteChar false] = .error .digits ∧
      (Line.start [0x3e, 0x20] 2 [0] (List.replicate 64 0) 2).edits
        [.insertChar 'a', .deleteChar false] = .ok l ∧
      l.Refines ⟨[], []⟩ := by
  have h := line_editor_edits_text [0x3e, 0x20] 2 [0] (List.replicate 64 0) 80
    [.insertChar 'a', .insertChar ' ', .insertChar 'é', .insertChar '世', .insertChar ' ',
      .updateCursorPos .jumpBackward, .deleteChar true] (by simp [Operation.NonNul]) (by decide)
  have hnarrow := line_editor_edits_text [0x3e, 0x20] 2 [0] (List.replicate 64 0) 2
    [.insertChar 'a', .deleteChar false] (by simp [Operation.NonNul]) (by decide)
  obtain ⟨l, hl⟩ := h.2.2.2.2.2.1 (by decide) (by decide) (by decide) (by decide)
    ⟨0, by decide, rfl⟩
  obtain ⟨m, hm⟩ : ∃ m, (Line.start [0x3e, 0x20] 2 [0] (List.replicate 64 0) 2).edits
      [.insertChar 'a', .deleteChar false] = .ok m := ⟨_, rfl⟩
  exact ⟨⟨l, hl, h.2.2.2.1 l hl⟩, m, by decide +kernel, hm, hnarrow.1 m hm⟩

end Parcel
