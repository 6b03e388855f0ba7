import Parcel.LineBuffer

/-!
# Arbitrary input

The keys of `xgetline` are made of any bytes. `xgetcp` trusts a lead byte, so the line
spells characters, or at least sequences of the length that their lead bytes announce, only
if the other bytes of every key are what the lead byte promises. A key that `xgetcp`
rejects is inserted as a codepoint of no bytes.
-/

namespace Parcel
open BoundedReads Faulting Utf8Encoding TextZipper

namespace Line

/-- The buffer spells a text without NUL, and the counters of cells may be ahead of it. -/
def Spelled (α : Type) [Coded α] (l : Line) : Prop :=
  ∃ (z : Zipper α) (a b : ℕ), l.Spells z a b ∧ ∀ x ∈ z.text, Coded.lead x ≠ 0

/-- The line still spells something, and is not longer. -/
structure Carried (α : Type) [Coded α] (l l' : Line) : Prop where
  spelled : l'.Spelled α
  terminated : l.Terminated → l'.Terminated
  size_le : l'.lineSize ≤ l.lineSize

def KeyFault (f : Fault) : Prop := f.Screen ∨ f = .below

variable {α : Type} [Coded α] {l l' : Line}

theorem Carried.refl (h : l.Spelled α) : l.Carried α l := ⟨h, id, le_rfl⟩

theorem Spelled.redrawn (h : l.Spelled α) (hl : l.Redrawn l') : l'.Spelled α := by
  obtain ⟨z, a, b, hz, hnul⟩ := h
  exact ⟨z, a, b, hz.redrawn hl, hnul⟩

section

variable {z z' : Zipper α} {a b a' b' : ℕ} {x : Except Fault Line}

theorem Rewrites.carried (h : l.Spells z a b) (hnul : ∀ x ∈ z.text, Coded.lead x ≠ 0)
    (hsub : z'.text.Sublist z.text) (hx : l.Rewrites z' a' b' x) :
    Ends (l.Carried α) KeyFault x := by
  refine hx.ends.mono ?_ fun _ => Or.inl
  rintro l' ⟨hl', hterminated, -⟩
  refine ⟨⟨z', a', b', hl', fun x hx => hnul x (hsub.subset hx)⟩, fun _ => hterminated, ?_⟩
  rw [hl'.size, h.size]
  exact (hsub.flatMap Coded.bytes).length_le

theorem deleteChar_carried (h : l.Spelled α) (del : Bool) :
    Ends (l.Carried α) KeyFault (l.deleteChar del) := by
  have hspelled := h
  obtain ⟨z, a, b, hz, hnul⟩ := h
  cases del with
  | false =>
    rcases backspace_spec hz with ⟨heq, -⟩ | hdone
    · rw [heq]
      exact Carried.refl hspelled
    · -- A deletion leaves an item out.
      exact hdone.carried hz hnul (z.edit_sublist leadsSpace (e := .backspace) (by simp))
  | true =>
    rcases delete_spec hz with ⟨heq, -⟩ | hdone
    · rw [heq]
      exact Carried.refl hspelled
    · exact hdone.carried hz hnul (z.edit_sublist leadsSpace (e := .delete) (by simp))

theorem updateCursorPos_carried (h : l.Spelled α) (d : CursorDirection) :
    Ends (l.Carried α) KeyFault (l.updateCursorPos d) := by
  obtain ⟨z, a, b, hz, hnul⟩ := h
  rcases updateCursorPos_spec hz hnul d with ⟨m, hm, hmoved, heq⟩ | ⟨f, hf, hscan⟩
  · rw [heq]
    refine (flushConsole_ends hm.size_le).mono (fun l' hl' => ?_) fun _ => Or.inl
    refine ⟨⟨_, _, _, hm.redrawn hl', ?_⟩, fun ht => hl'.terminated (hmoved.terminated ht), ?_⟩
    · rwa [text_edit_motion]
    · obtain ⟨_, _, _, rfl⟩ := hl'
      obtain ⟨_, _, rfl⟩ := hmoved
      exact le_rfl
  · rw [hf]
    exact Or.inr hscan.1

end

theorem Carried.closed {I : Line → Prop} (hspelled : ∀ l, I l → l.Spelled α)
    (hcarried : ∀ l l', I l → l.Carried α l' → I l') : Closed I KeyFault where
  deleteChar {l} h del :=
    (deleteChar_carried (hspelled l h) del).mono (fun l' => hcarried l l' h) fun _ => id
  updateCursorPos {l} h d :=
    (updateCursorPos_carried (hspelled l h) d).mono (fun l' => hcarried l l' h) fun _ => id
  ringBell {l} h :=
    hcarried l _ h ⟨(hspelled l h).redrawn ⟨_, _, _, rfl⟩, id, le_rfl⟩

def Grown (l l' : Line) : Prop := ∃ bytes before,
  l' = { l with line := l.line ++ bytes, before := before }

theorem Spelled.grown (h : l.Spelled α) (hl : l.Grown l') : l'.Spelled α := by
  obtain ⟨z, a, b, hz, hnul⟩ := h
  obtain ⟨bytes, before, rfl⟩ := hl
  refine ⟨z, a, b, ⟨?_, hz.size, hz.len, hz.offset, hz.column⟩, hnul⟩
  exact (List.take_append_of_le_length hz.size_le).trans hz.bytes

theorem Terminated.grown (h : l.Terminated) (hl : l.Grown l') : l'.Terminated := by
  obtain ⟨bytes, before, rfl⟩ := hl
  obtain ⟨hlt, -⟩ := List.getElem?_eq_some_iff.mp h
  exact (List.getElem?_append_left hlt).trans h

end Line

theorem grow_cases (heap : Heap) (s : Editor) :
    (∃ s', grow heap s = .next s' ∧ s.ctx.Grown s'.ctx ∧ s'.stdin = s.stdin) ∨
      grow heap s = .failed ∨ grow heap s = .exited := by
  unfold grow
  split
  · split
    · exact Or.inr (Or.inl rfl)
    · cases heap (doubled s.lineAllocation) with
      | none => exact Or.inr (Or.inr rfl)
      | some block => exact Or.inl ⟨_, rfl, ⟨_, _, rfl⟩, rfl⟩
  · exact Or.inl ⟨s, rfl, ⟨[], s.ctx.before, by rw [List.append_nil]⟩, rfl⟩

section

variable {I J : Line → Prop} {E : Fault → Prop} {heap : Heap} {s : Editor}

theorem lineTurn_ends_of_grown (h : I s.ctx) (hgrown : ∀ l l', I l → l.Grown l' → I l')
    (hkey : ∀ s', I s'.ctx → Ends (fun t => ∃ n, t.Carries J n) E (handleKey s' s.key)) :
    Ends (fun t => ∃ n, t.Carries J n) E (lineTurn heap s) := by
  rw [lineTurn]
  rcases grow_cases heap s with ⟨s', hgrow, hctx, hstdin⟩ | hgrow | hgrow
  · rw [hgrow]
    have hkey' : (xgetcp s'.stdin).1 = s.key := by rw [hstdin, Editor.key]
    simp only [hkey']
    exact hkey { s' with stdin := (xgetcp s'.stdin).2 } (hgrown _ _ h hctx)
  · rw [hgrow]
    exact ⟨0, trivial⟩
  · rw [hgrow]
    exact ⟨0, trivial⟩

theorem lineTurn_carries (hI : Closed I E) (hgrown : ∀ l l', I l → l.Grown l' → I l')
    (h : I s.ctx) (hkey : ¬s.key.Inserts) :
    Ends (fun t => ∃ n, t.Carries I n) E (lineTurn heap s) :=
  lineTurn_ends_of_grown h hgrown fun s' hs' =>
    (hI.handleKey hs' hkey).mono (fun _ ht => ⟨s'.lineAllocation, ht⟩) fun _ => id

theorem lineTurn_inserts (hgrown : ∀ l l', I l → l.Grown l' → I l') (h : I s.ctx)
    (hkey : s.key.Inserts)
    (hinsert : ∀ l, I l → Ends J E ((l.insertChar s.key.c s.key.len).map Prod.snd)) :
    Ends (fun t => ∃ n, t.Carries J n) E (lineTurn heap s) := by
  refine lineTurn_ends_of_grown h hgrown fun s' hs' => ?_
  rw [handleKey_insert s' hkey]
  exact (hinsert s'.ctx hs').bind fun l' hl' => ⟨s'.lineAllocation, hl', rfl⟩

end

/-- The key is an item that a line can consist of, or was rejected. -/
def KeyPress.Codes (α : Type) [Coded α] (key : KeyPress) : Prop :=
  key.len = 0 ∨ ∃ (x : α) (rest : List UInt8),
    key.c = Coded.bytes x ++ rest ∧ key.len = (Coded.bytes x).length

theorem Line.insertChar_spelled {α : Type} [Coded α] {l : Line} (h : l.Spelled α) {key : KeyPress}
    (hkey : key.Inserts) (hcodes : key.Codes α) :
    Ends (fun l' => l'.Spelled α ∧ l'.Terminated) (fun f => KeyFault f ∨ f = .write)
      ((l.insertChar key.c key.len).map Prod.snd) := by
  obtain ⟨z, a, b, hz, hnul⟩ := h
  rcases hcodes with hlen | ⟨x, rest, hc, hlen⟩
  · -- Nothing is spelled that was not before, but there is one cell more.
    by_cases hfit : l.lineSize + 1 ≤ l.line.length
    · refine (insertChar_zero hz key.c hlen hfit).ends.mono ?_ fun _ hf => Or.inl (Or.inl hf)
      rintro l' ⟨hl', hterminated, -⟩
      exact ⟨⟨z, _, _, hl', hnul⟩, hterminated⟩
    · rw [insertChar_zero_error hz key.c hlen (not_le.mp hfit)]
      exact Or.inr rfl
  · have hx : Coded.lead x ≠ 0 := by
      have hfirst := KeyPress.first_ne hkey
      obtain ⟨lead, tail, hbytes, -⟩ := Coded.exists_wellFormed x
      rw [KeyPress.first, hc, hbytes] at hfirst
      rw [Coded.lead, hbytes]
      exact hfirst
    rw [hc, hlen]
    by_cases hfit : l.lineSize + (Coded.bytes x).length + 1 ≤ l.line.length
    · refine (insertChar_bytes hz x rest hfit).ends.mono ?_ fun _ hf => Or.inl (Or.inl hf)
      rintro l' ⟨hl', hterminated, -⟩
      exact ⟨⟨_, _, _, hl', Zipper.forall_mem_insert hnul hx⟩, hterminated⟩
    · rw [insertChar_error hz (Coded.bytes x) rest (Coded.codepointWidth_bytes x rest)
        (Coded.width_pos x) (not_le.mp hfit)]
      exact Or.inr rfl

/-! ## Lead bytes without their continuation -/

def KeyPress.Continued (key : KeyPress) : Prop :=
  ∀ b ∈ (key.c.take key.len).tail, isContinuation b = true

theorem KeyPress.WellFormed.continued {key : KeyPress} (h : key.WellFormed) : key.Continued := by
  obtain ⟨c, rest, hc, hlen⟩ := h
  obtain ⟨lead, tail, hbytes, hwf⟩ := exists_wellFormed c
  intro b hb
  rw [hc, hlen, List.take_left, hbytes, List.tail_cons] at hb
  exact hwf.tail_all b hb

theorem leadLength_spec : ∀ n < 256, leadLength (UInt8.ofNat n) ≠ 0 →
    announced (UInt8.ofNat n) = leadLength (UInt8.ofNat n) ∧
      isContinuation (UInt8.ofNat n) = false ∧ UInt8.ofNat n ≤ 0xf4 ∧
      leadLength (UInt8.ofNat n) ≤ 4 := by
  decide +kernel

theorem ascii_spec : ∀ n < 256, UInt8.ofNat n < 0x80 →
    announced (UInt8.ofNat n) = 1 ∧ isContinuation (UInt8.ofNat n) = false ∧
      UInt8.ofNat n ≤ 0xf4 := by
  decide +kernel

theorem xgetcp_cases (stdin : Stdin) :
    (xgetcp stdin).1.len = 0 ∨ ∃ (lead : UInt8) (bytes rest : List UInt8),
      (xgetcp stdin).1.c = lead :: bytes ++ rest ∧ (xgetcp stdin).1.len = bytes.length + 1 ∧
        announced lead = bytes.length + 1 ∧ isContinuation lead = false ∧ lead ≤ 0xf4 := by
  unfold xgetcp
  split
  · exact Or.inl rfl
  · rename_i c piece stdin' _
    have hascii := ascii_spec c.toNat c.toNat_lt
    have hspec := leadLength_spec c.toNat c.toNat_lt
    rw [UInt8.ofNat_toNat] at hascii hspec
    split_ifs with hlt hzero
    · -- One byte below 0x80.
      exact Or.inr ⟨c, [], [0, 0, 0], rfl, rfl, hascii hlt⟩
    · exact Or.inl rfl
    · obtain ⟨hannounced, hnot, hle, hfour⟩ := hspec hzero
      generalize readStdin (leadLength c - 1) stdin' = read
      obtain ⟨bytes, stdin''⟩ := read
      -- The second read can be short.
      by_cases hlen : bytes.length = leadLength c - 1
      · right
        have hsize : leadLength c = bytes.length + 1 := by omega
        refine ⟨c, bytes, [0, 0, 0].take (4 - (bytes.length + 1)), ?_, ?_,
          hannounced.trans hsize, hnot, hle⟩
        · simp only [List.take_append, List.length_cons]
          rw [List.take_of_length_le]
          rw [List.length_cons]
          omega
        · exact (if_pos hlen).trans hsize
      · exact Or.inl (if_neg hlen)

theorem KeyPress.Continued.codes {s : Editor} (h : s.key.Continued) : s.key.Codes ByteSeq := by
  rcases xgetcp_cases s.stdin with hzero | ⟨lead, bytes, rest, hc, hlen, hannounced, hnot, hle⟩
  · exact Or.inl hzero
  · right
    have htail : ∀ b ∈ bytes, isContinuation b = true := by
      intro b hb
      have hc' : s.key.c = (lead :: bytes) ++ rest := hc
      have hlen' : s.key.len = (lead :: bytes).length := hlen
      apply h b
      rwa [hc', hlen', List.take_left, List.tail_cons]
    exact ⟨⟨lead, bytes, hannounced, hnot, htail, hle⟩, rest, hc, hlen⟩

theorem Editor.start_spelled (α : Type) [Coded α] (block : HeapBlock 64) (prompt : List UInt8)
    (promptLen consoleWidth : ℕ) (stdin : Stdin) :
    (Editor.start block prompt promptLen consoleWidth stdin).ctx.Spelled α :=
  ⟨Zipper.empty, 0, 0, ⟨rfl, rfl, rfl, rfl, rfl⟩, List.forall_mem_nil _⟩

theorem lineTurn_spelled {α : Type} [Coded α] {heap : Heap} {s : Editor} (h : s.ctx.Spelled α)
    (hkey : s.key.Inserts → s.key.Codes α) :
    Ends (fun t => ∃ n, t.Carries (Line.Spelled α) n) (fun f => Line.KeyFault f ∨ f = .write)
      (lineTurn heap s) := by
  by_cases hinserts : s.key.Inserts
  · refine lineTurn_inserts (fun l l' => Line.Spelled.grown) h hinserts fun l hl => ?_
    exact (Line.insertChar_spelled hl hinserts (hkey hinserts)).mono (fun _ => And.left) fun _ => id
  · have hclosed : Closed (Line.Spelled α) Line.KeyFault :=
      Line.Carried.closed (fun l => id) fun l l' _ => Line.Carried.spelled
    exact (lineTurn_carries hclosed (fun l l' => Line.Spelled.grown) h hinserts).mono
      (fun _ => id) fun _ => Or.inl

theorem Editor.Reaches.spelled {α : Type} [Coded α] {heap : Heap} {s₀ s : Editor}
    (h₀ : s₀.ctx.Spelled α)
    (hkeys : ∀ s, Reaches heap s₀ s → s.key.Inserts → s.key.Codes α)
    (h : Reaches heap s₀ s) : s.ctx.Spelled α := by
  induction h with
  | start => exact h₀
  | @turn s s' hs hturn ih =>
    obtain ⟨n, hn, -⟩ := (lineTurn_spelled ih (hkeys s hs)).of_ok hturn
    exact hn

/-- In a run of `xgetline` in which the bytes after a lead byte continue it, the cursor stays
in the line and no difference of an edit wraps. -/
theorem cursor_stays_in_line (heap : Heap) (block : HeapBlock 64) (prompt : List UInt8)
    (promptLen consoleWidth : ℕ) (stdin : Stdin)
    (hkeys : ∀ s, Editor.Reaches heap
      (Editor.start block prompt promptLen consoleWidth stdin) s →
        s.key.Inserts → s.key.Continued) :
    ∀ s, Editor.Reaches heap (Editor.start block prompt promptLen consoleWidth stdin) s →
      s.ctx.cursor.offset ≤ s.ctx.lineSize ∧ lineTurn heap s ≠ .error .wrap := by
  intro s hs
  have hcodes : ∀ s, Editor.Reaches heap
      (Editor.start block prompt promptLen consoleWidth stdin) s →
        s.key.Inserts → s.key.Codes ByteSeq := fun s hs hinserts => (hkeys s hs hinserts).codes
  have hspelled := hs.spelled (Editor.start_spelled ByteSeq _ _ _ _ _) hcodes
  refine ⟨?_, fun hwrap => ?_⟩
  · obtain ⟨z, a, b, hz, -⟩ := hspelled
    exact hz.offset_add ▸ Nat.le_add_right _ _
  · rcases (lineTurn_spelled hspelled (hcodes s hs)).of_error hwrap with (hf | hf) | hf
    · rcases hf with hf | hf | hf <;> exact absurd hf (by decide)
    · exact absurd hf (by decide)
    · exact absurd hf (by decide)

/-- After codepoints of one and of two bytes. -/
theorem cursor_stays_in_line_typed :
    ∃ s, Editor.after (fun _ => none) 2 (Editor.start ⟨Vector.replicate 64 0, [0]⟩
        [0x3e, 0x20] 2 80 (['a', 'é', '世'].map encodeChar)) = some s ∧
      s.ctx.cursor.offset ≤ s.ctx.lineSize ∧ lineTurn (fun _ => none) s ≠ .error .wrap := by
  have hrun : (Editor.after (fun _ => none) 2 (Editor.start ⟨Vector.replicate 64 0, [0]⟩
      [0x3e, 0x20] 2 80 (['a', 'é', '世'].map encodeChar))).isSome = true := by
    decide +kernel
  obtain ⟨s, hs⟩ := Option.isSome_iff_exists.mp hrun
  exact ⟨s, hs, cursor_stays_in_line (fun _ => none) ⟨Vector.replicate 64 0, [0]⟩ [0x3e, 0x20] 2 80
    (['a', 'é', '世'].map encodeChar)
    (fun _ hr hkey => ((hr.typed ⟨['a', 'é', '世'], by simp, rfl⟩).wellFormed hkey).continued)
    s (Editor.Reaches.start.after hs)⟩

/-- After a lead byte of two and a letter, a deletion takes the letter with both cells. -/
theorem split_character_wraps :
    ∃ (heap : Heap) (block : HeapBlock 64) (stdin : Stdin) (s : Editor),
      Editor.Reaches heap (Editor.start block [0x3e, 0x20] 2 80 stdin) s ∧
        lineTurn heap s = .error .wrap := by
  refine ⟨fun _ => none, ⟨Vector.replicate 64 0, [0]⟩, [[0xc3, 0x41], [0x7f], [0x7f]], ?_⟩
  have hrun : ((Editor.after (fun _ => none) 2 (Editor.start
      ⟨Vector.replicate 64 0, [0]⟩ [0x3e, 0x20] 2 80
      [[0xc3, 0x41], [0x7f], [0x7f]])).map fun s =>
        match lineTurn (fun _ => none) s with
        | .error .wrap => true
        | _ => false) = some true := by
    decide +kernel
  obtain ⟨s, hs, hturn⟩ := Option.map_eq_some_iff.mp hrun
  refine ⟨s, Editor.Reaches.start.after hs, ?_⟩
  split at hturn
  · assumption
  · exact absurd hturn (by decide)

/-! ## Rejected keys -/

theorem keys_lt : ∀ n < 256, 0x80 ≤ UInt8.ofNat n →
    UInt8.ofNat n ∉ [KeyPress.nul, KeyPress.tab, KeyPress.enter, KeyPress.esc,
      KeyPress.backspace] := by
  decide +kernel

theorem xgetcp_rejected (stdin : Stdin) (hlen : (xgetcp stdin).1.len = 0) :
    (xgetcp stdin).1.first = KeyPress.nul ∨ (xgetcp stdin).1.Inserts := by
  unfold xgetcp at hlen ⊢
  split at hlen
  · exact Or.inl rfl
  · rename_i c piece stdin' _
    have hkeys := keys_lt c.toNat c.toNat_lt
    rw [UInt8.ofNat_toNat] at hkeys
    split_ifs at hlen ⊢ with hlt hzero
    · exact Or.inr (hkeys (UInt8.not_lt.mp hlt))
    · exact Or.inr (hkeys (UInt8.not_lt.mp hlt))

theorem Line.insertChar_counts {l l' : Line} {c : List UInt8} {len : ℕ} (hlen : len = 0)
    (h : (l.insertChar c len).map Prod.snd = .ok l') : l'.lineLen = l.lineLen + 1 := by
  have hwidth : codepointWidth c len = some 1 := hlen ▸ codepointWidth_zero c
  rw [insertChar_redraw] at h
  -- Whether the NUL has room does not depend on the cell.
  cases hmem : l.insertBytes c len with
  | error f =>
    rw [insertLine, hwidth, orFault, ok_bind, if_neg Nat.one_ne_zero, hmem] at h
    exact absurd h (by simp [redraw, bind, Except.bind])
  | ok mem =>
    rw [insertLine_eq hwidth Nat.one_pos hmem] at h
    obtain ⟨_, _, _, rfl⟩ := (flushConsole_redrawn _).of_ok h
    rfl

theorem rejected_key_counts {heap : Heap} {s s' : Editor} (hlen : s.key.len = 0)
    (hfirst : s.key.first ≠ KeyPress.nul) (hturn : lineTurn heap s = .ok (.next s')) :
    s'.ctx.lineLen = s.ctx.lineLen + 1 := by
  have hgrown (l l' : Line) (h : l.lineLen = s.ctx.lineLen) (hl : l.Grown l') :
      l'.lineLen = s.ctx.lineLen := by
    obtain ⟨_, _, rfl⟩ := hl
    exact h
  have hinserts : s.key.Inserts := (xgetcp_rejected s.stdin hlen).resolve_left hfirst
  have hinsert (l : Line) (hl : l.lineLen = s.ctx.lineLen) :
      Ends (fun l' => l'.lineLen = s.ctx.lineLen + 1) (fun _ => True)
        ((l.insertChar s.key.c s.key.len).map Prod.snd) := by
    cases hx : (l.insertChar s.key.c s.key.len).map Prod.snd with
    | error f => trivial
    | ok l' => exact (Line.insertChar_counts hlen hx).trans (congrArg (· + 1) hl)
  have hends : Ends (fun t => ∃ n, t.Carries (fun l => l.lineLen = s.ctx.lineLen + 1) n)
      (fun _ => True) (lineTurn heap s) := lineTurn_inserts hgrown rfl hinserts hinsert
  obtain ⟨n, hn, -⟩ := hends.of_ok hturn
  exact hn

/-- An iteration for a key that `xgetcp` rejects, after it has stored a byte, never leaves
the line as it was. -/
theorem rejected_key_changes_line (heap : Heap) (s : Editor) (hlen : s.key.len = 0)
    (hfirst : s.key.first ≠ KeyPress.nul) :
    ¬∃ s', lineTurn heap s = .ok (.next s') ∧
      s'.ctx.line.take s'.ctx.lineSize = s.ctx.line.take s.ctx.lineSize ∧
      s'.ctx.lineSize = s.ctx.lineSize ∧ s'.ctx.lineLen = s.ctx.lineLen ∧
      s'.ctx.cursor.offset = s.ctx.cursor.offset ∧
      s'.ctx.cursor.column = s.ctx.cursor.column := by
  rintro ⟨s', hturn, -, -, hlineLen, -⟩
  have hcounts := rejected_key_counts hlen hfirst hturn
  omega

/-- A stray continuation byte. -/
theorem rejected_key_changes_line_stray :
    ¬∃ s', lineTurn (fun _ => none) (Editor.start ⟨Vector.replicate 64 0, [0]⟩ [0x3e, 0x20] 2 80
        [[0x80]]) = .ok (.next s') ∧
      s'.ctx.line.take s'.ctx.lineSize = ([] : List UInt8) ∧
      s'.ctx.lineSize = 0 ∧ s'.ctx.lineLen = 0 ∧
      s'.ctx.cursor.offset = 0 ∧ s'.ctx.cursor.column = 0 :=
  rejected_key_changes_line (fun _ => none) (Editor.start ⟨Vector.replicate 64 0, [0]⟩
    [0x3e, 0x20] 2 80 [[0x80]]) (by decide) (by decide)

theorem Editor.after_one {heap : Heap} {s s' : Editor} (h : Editor.after heap 1 s = some s') :
    lineTurn heap s = .ok (.next s') := by
  rw [Editor.after] at h
  split at h
  · rename_i next hturn
    rw [hturn]
    obtain rfl := Option.some.inj h
    rfl
  · exact absurd h.symm (Option.some_ne_none s')

/-- The iteration ends, with a line of one cell and no bytes. -/
theorem stray_byte_counts :
    ∃ (heap : Heap) (block : HeapBlock 64) (stdin : Stdin) (s' : Editor),
      (xgetcp stdin).1.len = 0 ∧ (xgetcp stdin).1.first ≠ KeyPress.nul ∧
      lineTurn heap (Editor.start block [0x3e, 0x20] 2 80 stdin) = .ok (.next s') ∧
      s'.ctx.lineSize = 0 ∧ s'.ctx.lineLen = 1 ∧ s'.ctx.cursor.column = 1 := by
  have hrun : (Editor.after (fun _ => none) 1 (Editor.start ⟨Vector.replicate 64 0, [0]⟩
      [0x3e, 0x20] 2 80 [[0x80]])).any (fun s' => decide (s'.ctx.lineSize = 0 ∧
        s'.ctx.lineLen = 1 ∧ s'.ctx.cursor.column = 1)) = true := by
    decide +kernel
  obtain ⟨s', hs', hline⟩ := (Option.any_eq_true _ _).mp hrun
  exact ⟨fun _ => none, ⟨Vector.replicate 64 0, [0]⟩, [[0x80]], s', by decide, by decide,
    Editor.after_one hs', of_decide_eq_true hline⟩

/-! ## Returned lines -/

/-- The states that `xgetline` comes to at the start of an iteration, with the keys before. -/
inductive Editor.History (heap : Heap) (s₀ : Editor) : List KeyPress → Editor → Prop
  | start : History heap s₀ [] s₀
  | turn {keys : List KeyPress} {s s' : Editor} (hs : History heap s₀ keys s)
    (hturn : lineTurn heap s = .ok (.next s')) : History heap s₀ (keys ++ [s.key]) s'

namespace Line

variable {l l' : Line}

/-- The buffer spells characters, and their NUL is in it. -/
def Written (l : Line) : Prop := l.Spelled Char ∧ l.Terminated

def Fresh (l : Line) : Prop := l.Spelled Char ∧ (l.Terminated ∨ l.lineSize = 0)

theorem Written.grown (h : l.Written) (hl : l.Grown l') : l'.Written :=
  ⟨h.1.grown hl, h.2.grown hl⟩

theorem Fresh.grown (h : l.Fresh) (hl : l.Grown l') : l'.Fresh := by
  refine ⟨h.1.grown hl, h.2.imp (fun ht => ht.grown hl) fun hsize => ?_⟩
  obtain ⟨_, _, rfl⟩ := hl
  exact hsize

theorem Written.closed : Closed Written KeyFault :=
  Carried.closed (fun _ => And.left) fun _ _ h hl => ⟨hl.spelled, hl.terminated h.2⟩

theorem Fresh.closed : Closed Fresh KeyFault :=
  Carried.closed (fun _ => And.left) fun _ _ h hl =>
    ⟨hl.spelled, h.2.imp hl.terminated fun hsize => Nat.le_zero.mp (hl.size_le.trans hsize.le)⟩

end Line

/-- Every key that inserts something writes the NUL, by induction on the turns. -/
theorem Editor.History.written {heap : Heap} {s₀ s : Editor} {keys : List KeyPress}
    (h₀ : s₀.ctx.Fresh) (hkeys : ∀ key ∈ keys, key.Inserts → key.Codes Char)
    (h : History heap s₀ keys s) :
    s.ctx.Fresh ∧ ((∃ key ∈ keys, key.Inserts) → s.ctx.Written) := by
  induction h with
  | start => exact ⟨h₀, by simp⟩
  | @turn keys s s' hs hturn ih =>
    obtain ⟨hfresh, hwritten⟩ := ih fun key hkey => hkeys key (List.mem_append_left _ hkey)
    have hkey := hkeys s.key (by simp)
    by_cases hinserts : s.key.Inserts
    · have hinsert (l : Line) (hl : l.Fresh) :=
        Line.insertChar_spelled hl.1 hinserts (hkey hinserts)
      obtain ⟨n, hn, -⟩ := (lineTurn_inserts (J := Line.Written) (fun _ _ => Line.Fresh.grown)
        hfresh hinserts hinsert).of_ok hturn
      exact ⟨⟨hn.1, Or.inl hn.2⟩, fun _ => hn⟩
    · -- The history has one key more, which inserts nothing.
      constructor
      · obtain ⟨n, hn, -⟩ := (lineTurn_carries Line.Fresh.closed (fun _ _ => Line.Fresh.grown)
          hfresh hinserts).of_ok hturn
        exact hn
      · rintro ⟨key, hmem, hkey⟩
        rcases List.mem_append.mp hmem with hmem | hmem
        · obtain ⟨n, hn, -⟩ := (lineTurn_carries Line.Written.closed
            (fun _ _ => Line.Written.grown) (hwritten ⟨key, hmem, hkey⟩) hinserts).of_ok hturn
          exact hn
        · rw [List.mem_singleton.mp hmem] at hkey
          exact absurd hkey hinserts

/-- A line without bytes is returned for a NUL only. -/
theorem handleKey_returned (s : Editor) (key : KeyPress) :
    Ends (fun t => ∀ ctx, t = .returned ctx →
      ¬key.Inserts ∧ (key.first = KeyPress.nul ∨ s.ctx.lineSize ≠ 0)) (fun _ => True)
      (handleKey s key) := by
  have hnext (s' : Editor) : ∀ ctx, LineTurn.next s' = .returned ctx →
      ¬key.Inserts ∧ (key.first = KeyPress.nul ∨ s.ctx.lineSize ≠ 0) :=
    fun ctx h => LineTurn.noConfusion h
  unfold handleKey
  split_ifs with hnul htab henter hsize
  · exact fun _ _ => ⟨fun h => h (by simp [hnul]), Or.inl hnul⟩
  · exact hnext _
  · refine (Ends.trivial _).bind fun ctx _ => ?_
    exact fun _ _ => ⟨fun h => h (by simp [henter]), Or.inr hsize⟩
  · exact hnext _
  · exact (Ends.trivial _).bind fun _ _ => hnext _
  · exact (Ends.trivial _).bind fun _ _ => hnext _
  · exact (Ends.trivial _).bind fun _ _ => hnext _

theorem lineTurn_returned {heap : Heap} {s : Editor} {ctx : Line}
    (hturn : lineTurn heap s = .ok (.returned ctx)) :
    ¬s.key.Inserts ∧ (s.key.first = KeyPress.nul ∨ s.ctx.lineSize ≠ 0) := by
  rw [lineTurn] at hturn
  rcases grow_cases heap s with ⟨s', hgrow, ⟨bytes, before, hctx⟩, hstdin⟩ | hgrow | hgrow
  · have hsize : s'.ctx.lineSize = s.ctx.lineSize := by rw [hctx]
    rw [hgrow] at hturn
    have hreturned := (handleKey_returned _ _).of_ok hturn ctx rfl
    rwa [hstdin, hsize] at hreturned
  · rw [hgrow] at hturn
    exact LineTurn.noConfusion (Except.ok.inj hturn)
  · rw [hgrow] at hturn
    exact LineTurn.noConfusion (Except.ok.inj hturn)

theorem zero_notMem_spell {α : Type} [Coded α] {as : List α} (h : ∀ x ∈ as, Coded.lead x ≠ 0) :
    0 ∉ spell as := by
  intro hmem
  obtain ⟨x, hx, hzero⟩ := List.mem_flatMap.mp hmem
  obtain ⟨lead, tail, hbytes, hwf⟩ := Coded.exists_wellFormed x
  have hlead := h x hx
  rw [Coded.lead, hbytes] at hlead
  rw [hbytes] at hzero
  rcases List.mem_cons.mp hzero with hzero | hzero
  · exact hlead hzero.symm
  · exact absurd (hwf.tail_all 0 hzero) (by decide)

/-- In a run of `xgetline` on rejected keys and codepoints, in which a NUL comes after some
of them, the returned buffer holds characters and then the NUL, whatever was in it. -/
theorem returned_line_terminated (heap : Heap) (block : HeapBlock 64) (prompt : List UInt8)
    (promptLen consoleWidth : ℕ) (stdin : Stdin) (keys : List KeyPress) (s : Editor) (ctx : Line)
    (hs : Editor.History heap (Editor.start block prompt promptLen consoleWidth stdin) keys s)
    (hturn : lineTurn heap s = .ok (.returned ctx))
    (hkeys : ∀ key ∈ keys, key.Inserts → key.len = 0 ∨ key.WellFormed)
    (hnul : s.key.first = KeyPress.nul → ∃ key ∈ keys, key.Inserts) :
    ctx.line[ctx.lineSize]? = some 0 ∧ 0 ∉ ctx.line.take ctx.lineSize ∧
      ∃ cs : List Char, ctx.line.take ctx.lineSize = encode cs := by
  have hstart : (Editor.start block prompt promptLen consoleWidth stdin).ctx.Fresh :=
    ⟨Editor.start_spelled Char _ _ _ _ _, Or.inr rfl⟩
  obtain ⟨hfresh, hwritten⟩ := hs.written hstart hkeys
  obtain ⟨hnot, hreturn⟩ := lineTurn_returned hturn
  -- Before the last key the NUL is in the buffer.
  have hbefore : s.ctx.Written := by
    rcases hreturn with hfirst | hsize
    · exact hwritten (hnul hfirst)
    · exact ⟨hfresh.1, hfresh.2.resolve_right hsize⟩
  obtain ⟨n, ⟨z, a, b, hz, hlead⟩, hterminated⟩ := (lineTurn_carries Line.Written.closed
    (fun _ _ => Line.Written.grown) hbefore hnot).of_ok hturn
  refine ⟨hterminated, ?_, z.text, hz.bytes⟩
  rw [hz.bytes]
  exact zero_notMem_spell hlead

theorem Editor.Reaches.history {heap : Heap} {s₀ s : Editor} (h : Reaches heap s₀ s) :
    ∃ keys, History heap s₀ keys s := by
  induction h with
  | start => exact ⟨[], .start⟩
  | @turn s s' hs hturn ih =>
    obtain ⟨keys, hkeys⟩ := ih
    exact ⟨keys ++ [s.key], hkeys.turn hturn⟩

theorem Editor.History.reaches {heap : Heap} {s₀ s : Editor} {keys : List KeyPress}
    (h : History heap s₀ keys s) : Reaches heap s₀ s := by
  induction h with
  | start => exact .start
  | turn hs hturn ih => exact ih.turn hturn

theorem Editor.History.typed {heap : Heap} {s₀ s : Editor} {keys : List KeyPress}
    (h₀ : Typed s₀.stdin) (h : History heap s₀ keys s) :
    ∀ key ∈ keys, key.Inserts → key.WellFormed := by
  induction h with
  | start => exact List.forall_mem_nil _
  | @turn keys s s' hs hturn ih =>
    intro key hmem hinserts
    rcases List.mem_append.mp hmem with hmem | hmem
    · exact ih key hmem hinserts
    · rw [List.mem_singleton.mp hmem] at hinserts ⊢
      exact (hs.reaches.typed h₀).wellFormed hinserts

def Editor.returns (heap : Heap) (asked : Editor → Line → Bool) (s : Editor) : Bool :=
  match lineTurn heap s with
  | .ok (.returned ctx) => asked s ctx
  | _ => false

theorem Editor.Reaches.returned (heap : Heap) (asked : Editor → Line → Bool) (s₀ : Editor) (n : ℕ)
    (h : (Editor.after heap n s₀).any (Editor.returns heap asked) = true) :
    ∃ s ctx, Editor.Reaches heap s₀ s ∧ lineTurn heap s = .ok (.returned ctx) ∧
      asked s ctx = true := by
  obtain ⟨s, hs, hreturns⟩ := (Option.any_eq_true _ _).mp h
  rw [Editor.returns] at hreturns
  split at hreturns
  · rename_i ctx hturn
    exact ⟨s, ctx, Editor.Reaches.start.after hs, hturn, hreturns⟩
  · exact absurd hreturns Bool.false_ne_true

/-- Two codepoints and `ENTER`, in a block of other bytes. -/
theorem returned_line_terminated_enter :
    ∃ (s : Editor) (ctx : Line),
      Editor.Reaches (fun _ => none) (Editor.start ⟨Vector.replicate 64 1, [0]⟩ [0x3e, 0x20] 2 80
        (['a', 'é', '\r'].map encodeChar)) s ∧
      lineTurn (fun _ => none) s = .ok (.returned ctx) ∧
      ctx.line[ctx.lineSize]? = some 0 ∧ 0 ∉ ctx.line.take ctx.lineSize ∧
      ∃ cs : List Char, ctx.line.take ctx.lineSize = encode cs := by
  obtain ⟨s, ctx, hreaches, hreturned, hkey⟩ := Editor.Reaches.returned
    (fun _ => none) (fun s _ => decide (s.key.first ≠ KeyPress.nul))
    (Editor.start ⟨Vector.replicate 64 1, [0]⟩ [0x3e, 0x20] 2 80
      (['a', 'é', '\r'].map encodeChar)) 2 (by decide +kernel)
  obtain ⟨keys, hkeys⟩ := hreaches.history
  exact ⟨s, ctx, hreaches, hreturned, returned_line_terminated (fun _ => none)
    ⟨Vector.replicate 64 1, [0]⟩ [0x3e, 0x20] 2 80 (['a', 'é', '\r'].map encodeChar) keys s ctx
    hkeys hreturned
    (fun key hkey hinserts =>
      Or.inr (hkeys.typed ⟨['a', 'é', '\r'], by simp, rfl⟩ key hkey hinserts))
    fun hnul => absurd hnul (of_decide_eq_true hkey)⟩

theorem letter_after_lead_ne_encode (cs : List Char) : [0xc3, 0x41] ≠ encode cs := by
  intro h
  cases cs with
  | nil => exact List.cons_ne_nil _ _ h
  | cons c cs =>
    obtain ⟨lead, tail, hbytes, hwf⟩ := exists_wellFormed c
    rw [encode_cons, hbytes, List.cons_append] at h
    obtain ⟨rfl, htail⟩ := List.cons.inj h
    have hlen : 2 = tail.length + 1 := hwf.announced_eq
    obtain ⟨b, rfl⟩ := List.length_eq_one_iff.mp (Nat.succ.inj hlen).symm
    obtain ⟨rfl, -⟩ := List.cons.inj htail
    exact absurd (hwf.tail_all 0x41 (by simp)) (by decide)

/-- The input ends before a key, and the first byte of the block is returned; a letter after
a lead byte of two comes back as it was. -/
theorem returned_line_unwritten :
    (∃ (heap : Heap) (block : HeapBlock 64) (ctx : Line),
      lineTurn heap (Editor.start block [0x3e, 0x20] 2 80 []) = .ok (.returned ctx) ∧
        ctx.line[ctx.lineSize]? ≠ some 0) ∧
    ∃ (heap : Heap) (block : HeapBlock 64) (s : Editor) (ctx : Line),
      Editor.Reaches heap (Editor.start block [0x3e, 0x20] 2 80 [[0xc3, 0x41], [0x0d]]) s ∧
        lineTurn heap s = .ok (.returned ctx) ∧
        ∀ cs : List Char, ctx.line.take ctx.lineSize ≠ encode cs := by
  constructor
  · exact ⟨fun _ => none, ⟨Vector.replicate 64 1, [0]⟩, _, rfl, by decide⟩
  · obtain ⟨s, ctx, hreaches, hreturned, hline⟩ := Editor.Reaches.returned
      (fun _ => none) (fun _ ctx => ctx.line.take ctx.lineSize == [0xc3, 0x41])
      (Editor.start ⟨Vector.replicate 64 1, [0]⟩ [0x3e, 0x20] 2 80 [[0xc3, 0x41], [0x0d]]) 1
      (by decide +kernel)
    refine ⟨fun _ => none, ⟨Vector.replicate 64 1, [0]⟩, s, ctx, hreaches, hreturned, fun cs => ?_⟩
    rw [eq_of_beq hline]
    exact letter_after_lead_ne_encode cs

end Parcel
