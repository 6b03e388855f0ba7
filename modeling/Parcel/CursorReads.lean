import Parcel.EditorRuns

/-!
# Reads at the cursor

`prev_codepoint` is called at the cursor. A step to the left and a backspace look at the
position of the cursor first; a jump to the left looks at it after the call, and so reads
before the line when it comes to the first character.
-/

namespace Parcel
open BoundedReads Faulting Utf8Encoding TextZipper

namespace Line

/-- The line with no memory below its buffer: a read before the first byte is a fault. -/
def alone (l : Line) : Line := { l with before := [] }

variable {l : Line}

abbrev ReadsWithin (x : Except Fault Line) : Prop := Ends (fun _ => True) (· ≠ .below) x

theorem flushConsole_readsWithin (l : Line) : ReadsWithin l.flushConsole := by
  refine l.flushConsole_redrawn.mono (fun _ _ => trivial) ?_
  rintro f ((rfl | rfl | rfl) | ⟨rfl, -⟩) <;> decide

theorem moveCursorRight_readsWithin (l : Line) :
    Ends (fun _ => True) (· ≠ .below) l.moveCursorRight := by
  unfold moveCursorRight nextAtCursor
  split
  · cases nextCodepoint (l.line.drop l.cursor.offset) with
    | none => exact Fault.noConfusion
    | some cp => trivial
  · trivial

theorem skipRight_readsWithin (p : UInt8 → Bool) (fuel : ℕ) (l : Line) :
    ReadsWithin (skipRight p fuel l) := by
  induction fuel generalizing l with
  | zero => exact Fault.noConfusion
  | succ fuel ih =>
    rw [skipRight]
    split
    · have hbyte : Ends (fun _ => True) (· ≠ .below)
          (orFault Fault.read (byteAt l.line l.cursor.offset)) := by
        cases byteAt l.line l.cursor.offset with
        | none => exact Fault.noConfusion
        | some b => trivial
      refine hbyte.bind fun b _ => ?_
      split
      · trivial
      · exact l.moveCursorRight_readsWithin.bind fun moved _ => ih moved.2
    · trivial

section

variable {α : Type} [Coded α] {z : Zipper α} {a b : ℕ}

theorem Spells.alone (h : l.Spells z a b) : l.alone.Spells z a b :=
  ⟨h.bytes, h.size, h.len, h.offset, h.column⟩

theorem Rewrites.readsWithin {x : Except Fault Line} (h : l.Rewrites z a b x) : ReadsWithin x := by
  refine h.ends.mono (fun _ _ => trivial) ?_
  rintro f (rfl | rfl | rfl) <;> decide

theorem deleteChar_readsWithin (h : l.Spells z a b) (del : Bool) :
    ReadsWithin (l.deleteChar del) := by
  cases del with
  | false =>
    rcases backspace_spec h with ⟨heq, -⟩ | hdone
    · rw [heq]
      trivial
    · exact hdone.readsWithin
  | true =>
    rcases delete_spec h with ⟨heq, -⟩ | hdone
    · rw [heq]
      trivial
    · exact hdone.readsWithin

theorem insertChar_readsWithin (h : l.Spells z a b) (x : α) :
    ReadsWithin ((l.insertChar (Coded.bytes x) (Coded.bytes x).length).map Prod.snd) := by
  by_cases hfit : l.lineSize + (Coded.bytes x).length + 1 ≤ l.line.length
  · have hdone := insertChar_bytes h x [] hfit
    rw [List.append_nil] at hdone
    exact hdone.readsWithin
  · have herror := insertChar_error h (Coded.bytes x) [] (Coded.codepointWidth_bytes x [])
      (Coded.width_pos x) (not_le.mp hfit)
    rw [List.append_nil] at herror
    rw [herror]
    exact Fault.noConfusion

theorem updateCursorPos_readsWithin (h : l.Spells z a b) {d : CursorDirection}
    (hd : d ≠ .jumpBackward) : ReadsWithin (l.updateCursorPos d) := by
  have hmove : ReadsWithin (l.moveCursor d) := by
    cases d with
    | moveUp => trivial
    | moveDown => trivial
    | moveRight => exact l.moveCursorRight_readsWithin.bind fun _ _ => trivial
    | moveLeft =>
      obtain ⟨l', hleft, -⟩ := moveCursorLeft_spec h
      rw [moveCursor, hleft]
      trivial
    | moveHome => trivial
    | moveEnd => trivial
    | jumpForward =>
      -- Forward, only `next_codepoint` is called.
      exact (skipRight_readsWithin _ _ l).bind fun l' _ => skipRight_readsWithin _ _ l'
    | jumpBackward => exact absurd rfl hd
  exact hmove.bind fun m _ => m.flushConsole_readsWithin

theorem jumpBackward_below_iff (h : l.Spells z a b) (hbefore : l.before = []) :
    l.updateCursorPos .jumpBackward = .error .below ↔
      ((z.skipLeft leadsSpace).skipLeft (!leadsSpace ·)).left = [] := by
  obtain ⟨l', hjump, -, -⟩ := moveCursorWordStart_spec h
  rw [updateCursorPos, moveCursor, hjump, scanIf, scanBelow, hbefore]
  split
  · -- There is no byte below for `prev_codepoint` to stop at.
    rename_i hleft
    exact iff_of_true rfl (List.isEmpty_iff.mp hleft)
  · rename_i hleft
    refine iff_of_false (fun hbelow => ?_) fun hnil => hleft (List.isEmpty_iff.mpr hnil)
    exact l'.flushConsole_readsWithin.of_error hbelow rfl

end

end Line

/-- An edit of a line of codepoints reads inside the line exactly when it is no jump to the
left, or one with a space before the word that it jumps to. -/
theorem cursor_reads_within_iff {l : Line} {z : Zipper Char} {a b : ℕ} (h : l.Spells z a b)
    (op : Operation) :
    op.apply l.alone ≠ .error .below ↔
      (op = .updateCursorPos .jumpBackward → ∃ c, c ≠ ' ' ∧ [' ', c].Sublist z.left) := by
  have hwithin {op : Operation} (hends : Line.ReadsWithin (op.apply l.alone)) :
      op.apply l.alone ≠ .error .below := fun hbelow => hends.of_error hbelow rfl
  by_cases hop : op = .updateCursorPos .jumpBackward
  · subst hop
    have hiff := (Line.jumpBackward_below_iff h.alone rfl).not
    rw [leadsSpace_char, ← Ne, ← Ne, Zipper.left_jumpBackward_ne_nil isSpace z] at hiff
    refine hiff.trans ⟨fun hspace _ => ?_, fun hspace => ?_⟩
    · obtain ⟨s, c, hs, hc, hsub⟩ := hspace
      obtain rfl : s = ' ' := eq_of_beq hs
      exact ⟨c, ne_of_beq_false hc, hsub⟩
    · obtain ⟨c, hc, hsub⟩ := hspace rfl
      exact ⟨' ', c, rfl, beq_false_of_ne hc, hsub⟩
  · refine iff_of_true (hwithin ?_) fun hjump => absurd hjump hop
    cases op with
    | insertChar c => exact Line.insertChar_readsWithin h.alone c
    | deleteChar del => exact Line.deleteChar_readsWithin h.alone del
    | updateCursorPos d =>
      exact Line.updateCursorPos_readsWithin h.alone fun hd => hop (by rw [hd])

/-- A jump from the end of two words. -/
theorem cursor_reads_within_words :
    (Operation.updateCursorPos .jumpBackward).apply (Line.alone ⟨[0x3e], 1, [0],
      [0x61, 0x20, 0x62, 0], 3, 3, ⟨1, 3, 3, 3⟩, 80, []⟩) ≠ .error .below :=
  (cursor_reads_within_iff (z := ⟨['a', ' ', 'b'], []⟩) (a := 0) (b := 0)
    ⟨by decide, by decide, by decide, by decide, by decide⟩ _).mpr
    fun _ => ⟨'b', by decide, List.sublist_cons_self _ _⟩

/-- A jump from the end of one word: the loop is left after a read at index `-1`. -/
theorem jump_reads_before_line :
    ∃ (l : Line) (z : Zipper Char), l.Spells z 0 0 ∧ z = ⟨['a'], []⟩ ∧
      l.alone.updateCursorPos .jumpBackward = .error .below :=
  ⟨⟨[0x3e], 1, [0], [0x61, 0], 1, 1, ⟨1, 1, 1, 1⟩, 80, []⟩, ⟨['a'], []⟩,
    ⟨by decide, by decide, by decide, by decide, by decide⟩, rfl, rfl⟩

end Parcel
