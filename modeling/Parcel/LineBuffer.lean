import Parcel.EditorRuns

/-!
# The buffer of a line

The loop of `xgetline`: the buffer grows, a key is read, and the line is edited. The
buffer grows when two bytes of it are free. That is a comparison for equality, which a
codepoint of several bytes can step over.
-/

namespace Parcel
open BoundedReads Faulting Utf8Encoding TextZipper

/-- What is there when `stdin` is read, one piece after the other; then the input ends. -/
abbrev Stdin := List (List UInt8)

/-- The call `read` of `n` bytes, which leaves the rest of a longer piece. -/
def readStdin (n : ℕ) : Stdin → List UInt8 × Stdin
  | [] => ([], [])
  | piece :: rest =>
    (piece.take n, if piece.length ≤ n then rest else piece.drop n :: rest)

def xgetch (stdin : Stdin) : UInt8 × Stdin :=
  match readStdin 1 stdin with
  | (c :: _, stdin) => (c, stdin)
  | ([], stdin) => (0, stdin)

/-- The number of bytes that `xgetcp` expects. -/
def leadLength (c : UInt8) : ℕ :=
  let len := 0
  let len := if c &&& 0xe0 = 0xc0 then 2 else len
  let len := if c &&& 0xf0 = 0xe0 then 3 else len
  if c &&& 0xf8 = 0xf0 ∧ c ≤ 0xf4 then 4 else len

/-- The array that `xgetcp` fills, and its result. -/
structure KeyPress where
  c : List UInt8
  len : ℕ

def xgetcp (stdin : Stdin) : KeyPress × Stdin :=
  match readStdin 1 stdin with
  | ([], stdin) => (⟨[0, 0, 0, 0], 0⟩, stdin)
  | (c :: _, stdin) =>
    if c < 0x80 then (⟨[c, 0, 0, 0], 1⟩, stdin)
    else if leadLength c = 0 then (⟨[c, 0, 0, 0], 0⟩, stdin)
    else
      let (bytes, stdin) := readStdin (leadLength c - 1) stdin
      (⟨(c :: bytes ++ [0, 0, 0]).take 4,
        if bytes.length = leadLength c - 1 then leadLength c else 0⟩, stdin)

namespace KeyPress

def nul : UInt8 := 0
def tab : UInt8 := 9
def enter : UInt8 := 13
def esc : UInt8 := 27
def backspace : UInt8 := 127

def first (key : KeyPress) : UInt8 := key.c.headD 0

/-- The `default` case of the `switch`. -/
def Inserts (key : KeyPress) : Prop := key.first ∉ [nul, tab, enter, esc, backspace]

instance (key : KeyPress) : Decidable key.Inserts := inferInstanceAs (Decidable (_ ∉ _))

end KeyPress

theorem leadLength_eq : ∀ n < 256, isContinuation (UInt8.ofNat n) = false →
    UInt8.ofNat n ≤ 0xf4 →
      (UInt8.ofNat n < 0x80 ∧ announced (UInt8.ofNat n) = 1) ∨
      (¬UInt8.ofNat n < 0x80 ∧ 2 ≤ announced (UInt8.ofNat n) ∧
        leadLength (UInt8.ofNat n) = announced (UInt8.ofNat n)) := by
  decide +kernel

theorem xgetcp_encodeChar (c : Char) (rest : Stdin) :
    xgetcp (encodeChar c :: rest) =
      (⟨(encodeChar c ++ [0, 0, 0]).take 4, (encodeChar c).length⟩, rest) := by
  obtain ⟨lead, tail, h, hsize, hnot, -, hle⟩ := exists_wellFormed c
  have hcases := leadLength_eq lead.toNat lead.toNat_lt
  rw [UInt8.ofNat_toNat] at hcases
  rw [h]
  rcases hcases hnot hle with ⟨hlt, hone⟩ | ⟨hlt, htwo, hlead⟩
  · obtain rfl : tail = [] := by
      rw [← List.length_eq_zero_iff]
      omega
    simp [xgetcp, readStdin, hlt]
  · have hpos : ¬tail.length = 0 := by omega
    have hlead' : leadLength lead = tail.length + 1 := hlead.trans hsize
    simp [xgetcp, readStdin, hlt, hpos, hlead']

/-- A new block of memory: its contents, and the memory below it. -/
structure HeapBlock (n : ℕ) where
  bytes : Vector UInt8 n
  before : List UInt8

/-- The allocator, asked by size; `xgetline` never asks for the same size twice. -/
abbrev Heap := (n : ℕ) → Option (HeapBlock n)

/-- The variables of `xgetline`. -/
structure Editor where
  ctx : Line
  lineAllocation : ℕ
  stdin : Stdin

/-- How an iteration ends; a failed allocation ends the process. -/
inductive LineTurn
  | next (s : Editor)
  | returned (ctx : Line)
  | failed
  | exited

@[irreducible] def doubled (n : ℕ) : ℕ := n * 2 % 2 ^ 64

def grow (heap : Heap) (s : Editor) : LineTurn :=
  -- The allocation is never below 64.
  if s.ctx.lineSize + 2 = s.lineAllocation then
    if doubled s.lineAllocation < s.lineAllocation then .failed
    else match heap (doubled s.lineAllocation) with
      | none => .exited
      | some block => .next { s with
          ctx := { s.ctx with
            line := s.ctx.line ++ block.bytes.toList.drop s.ctx.line.length
            before := block.before }
          lineAllocation := doubled s.lineAllocation }
  else .next s

def ringBell (ctx : Line) : Line := { ctx with terminal := ctx.terminal ++ [7] }

/-- The inner `switch` of an escape sequence with a digit. -/
def digitKey (ctx : Line) (digit : UInt8) (stdin : Stdin) : Except Fault (Line × Stdin) := do
  let (c, stdin) := xgetch stdin
  if c = 0x7e then
    if digit = 0x33 then return (← ctx.deleteChar true, stdin) else return (ctx, stdin)
  else if c = 0x3b then
    let (c, stdin) := xgetch stdin
    if c = 0x35 then
      let (c, stdin) := xgetch stdin
      if c = 0x43 then return (← ctx.updateCursorPos .jumpForward, stdin)
      else if c = 0x44 then return (← ctx.updateCursorPos .jumpBackward, stdin)
      else return (ctx, stdin)
    else return (ctx, stdin)
  else return (ctx, stdin)

def letterKey (ctx : Line) (letter : UInt8) : Except Fault Line :=
  if letter = 0x44 then ctx.updateCursorPos .moveLeft
  else if letter = 0x43 then ctx.updateCursorPos .moveRight
  else if letter = 0x48 then ctx.updateCursorPos .moveHome
  else if letter = 0x46 then ctx.updateCursorPos .moveEnd
  else return ctx

/-- The case of `ESC`. -/
def escapeKey (ctx : Line) (stdin : Stdin) : Except Fault (Line × Stdin) := do
  let (seq0, stdin) := xgetch stdin
  let (seq1, stdin) := xgetch stdin
  if seq0 = 0x5b then
    let (ctx, stdin) ←
      if 0x30 ≤ seq1 ∧ seq1 ≤ 0x39 then digitKey ctx seq1 stdin else .ok (ctx, stdin)
    return (← letterKey ctx seq1, stdin)
  else
    return (ctx, stdin)

/-- The `switch` of `xgetline`. -/
def handleKey (s : Editor) (key : KeyPress) : Except Fault LineTurn := do
  if key.first = KeyPress.nul then
    return .returned s.ctx
  else if key.first = KeyPress.tab then
    return .next { s with ctx := ringBell s.ctx }
  else if key.first = KeyPress.enter then
    if s.ctx.lineSize ≠ 0 then return .returned (← s.ctx.updateCursorPos .moveEnd)
    else return .next { s with ctx := ringBell s.ctx }
  else if key.first = KeyPress.esc then
    let (ctx, stdin) ← escapeKey s.ctx s.stdin
    return .next { s with ctx := ctx, stdin := stdin }
  else if key.first = KeyPress.backspace then
    return .next { s with ctx := ← s.ctx.deleteChar false }
  else
    return .next { s with ctx := (← s.ctx.insertChar key.c key.len).2 }

/-- One iteration of `xgetline`. -/
def lineTurn (heap : Heap) (s : Editor) : Except Fault LineTurn :=
  match grow heap s with
  | .next s => handleKey { s with stdin := (xgetcp s.stdin).2 } (xgetcp s.stdin).1
  | t => .ok t

/-! ## Lines that hold a text -/

namespace Line

variable {l l' l'' : Line}

/-- The text may be shorter now, and the buffer is as large as before. -/
structure Kept (l l' : Line) : Prop where
  refines : ∃ z, l'.Refines z
  length_eq : l'.line.length = l.line.length
  size_le : l'.lineSize ≤ l.lineSize

theorem Kept.trans (h : l.Kept l') (h' : l'.Kept l'') : l.Kept l'' :=
  ⟨h'.refines, h'.length_eq.trans h.length_eq, h'.size_le.trans h.size_le⟩

theorem apply_kept (h : ∃ z, l.Refines z) (op : Operation) (hop : op.added = 0) :
    Ends l.Kept (· ≠ .write) (op.apply l) := by
  obtain ⟨z, hz⟩ := h
  have hnul : op.NonNul := by
    cases op with
    | insertChar c => exact absurd hop (Coded.length_pos c).ne'
    | deleteChar del => trivial
    | updateCursorPos d => trivial
  refine (apply_ends hz op hnul (Or.inr hop)).mono ?_ ?_
  · rintro l' ⟨hl', hlen, -⟩
    have hsize := added_edit z op
    rw [← hl'.size, ← hz.size, hop] at hsize
    exact ⟨⟨_, hl'⟩, hlen, hsize⟩
  · rintro f ((rfl | rfl | rfl) | ⟨rfl, -⟩) <;> decide

theorem deleteChar_kept (h : ∃ z, l.Refines z) (del : Bool) :
    Ends l.Kept (· ≠ .write) (l.deleteChar del) := apply_kept h (.deleteChar del) rfl

theorem updateCursorPos_kept (h : ∃ z, l.Refines z) (d : CursorDirection) :
    Ends l.Kept (· ≠ .write) (l.updateCursorPos d) := apply_kept h (.updateCursorPos d) rfl

theorem Kept.refl (h : ∃ z, l.Refines z) : l.Kept l := ⟨h, rfl, le_rfl⟩

theorem ringBell_kept (h : ∃ z, l.Refines z) : l.Kept (ringBell l) := by
  obtain ⟨z, hz⟩ := h
  exact ⟨⟨z, hz.redrawn ⟨_, _, _, rfl⟩⟩, rfl, le_rfl⟩

end Line

/-- The keys that insert nothing do not leave `I`, unless with a fault in `E`. -/
structure Closed (I : Line → Prop) (E : Fault → Prop) : Prop where
  deleteChar {l : Line} (h : I l) (del : Bool) : Ends I E (l.deleteChar del)
  updateCursorPos {l : Line} (h : I l) (d : CursorDirection) : Ends I E (l.updateCursorPos d)
  ringBell {l : Line} (h : I l) : I (ringBell l)

def LineTurn.Carries (I : Line → Prop) (n : ℕ) : LineTurn → Prop
  | .next s => I s.ctx ∧ s.lineAllocation = n
  | .returned ctx => I ctx
  | .failed | .exited => True

namespace Closed

variable {I : Line → Prop} {E : Fault → Prop} {l : Line}

theorem letterKey (hI : Closed I E) (h : I l) (letter : UInt8) :
    Ends I E (Parcel.letterKey l letter) := by
  unfold Parcel.letterKey
  split_ifs
  · exact hI.updateCursorPos h _
  · exact hI.updateCursorPos h _
  · exact hI.updateCursorPos h _
  · exact hI.updateCursorPos h _
  · exact h

theorem ends_key {x : Except Fault Line} (h : Ends I E x) (stdin : Stdin) :
    Ends (fun r : Line × Stdin => I r.1) E (do return (← x, stdin)) := h.bind fun _ => id

theorem digitKey (hI : Closed I E) (h : I l) (digit : UInt8) (stdin : Stdin) :
    Ends (fun r => I r.1) E (Parcel.digitKey l digit stdin) := by
  unfold Parcel.digitKey
  dsimp only
  split_ifs
  · exact ends_key (hI.deleteChar h true) _
  · exact h
  · exact ends_key (hI.updateCursorPos h _) _
  · exact ends_key (hI.updateCursorPos h _) _
  · exact h
  · exact h
  · exact h

theorem escapeKey (hI : Closed I E) (h : I l) (stdin : Stdin) :
    Ends (fun r => I r.1) E (Parcel.escapeKey l stdin) := by
  unfold Parcel.escapeKey
  dsimp only
  split
  · split
    · -- The byte after the bracket is looked at a second time.
      exact (hI.digitKey h _ _).bind fun r hr => ends_key (hI.letterKey hr _) _
    · exact ends_key (hI.letterKey h _) _
  · exact h

theorem handleKey (hI : Closed I E) {s : Editor} {key : KeyPress} (h : I s.ctx)
    (hkey : ¬key.Inserts) :
    Ends (LineTurn.Carries I s.lineAllocation) E (Parcel.handleKey s key) := by
  unfold Parcel.handleKey
  split_ifs
  · exact h
  · exact ⟨hI.ringBell h, rfl⟩
  · exact (hI.updateCursorPos h .moveEnd).bind fun _ => id
  · exact ⟨hI.ringBell h, rfl⟩
  · exact (hI.escapeKey h s.stdin).bind fun _ hr => ⟨hr, rfl⟩
  · exact (hI.deleteChar h false).bind fun _ hctx => ⟨hctx, rfl⟩
  · exact absurd (by simp [KeyPress.Inserts, *]) hkey

end Closed

theorem Line.Kept.closed (l₀ : Line) : Closed l₀.Kept (· ≠ .write) where
  deleteChar h del := (deleteChar_kept h.refines del).mono (fun _ => h.trans) fun _ => id
  updateCursorPos h d := (updateCursorPos_kept h.refines d).mono (fun _ => h.trans) fun _ => id
  ringBell h := h.trans (ringBell_kept h.refines)

/-- The key is a codepoint, encoded in as many bytes as its length says. -/
def KeyPress.WellFormed (key : KeyPress) : Prop := ∃ c rest,
  key.c = encodeChar c ++ rest ∧ key.len = (encodeChar c).length

theorem KeyPress.first_ne {key : KeyPress} (h : key.Inserts) : key.first ≠ KeyPress.nul :=
  fun h0 => h (by simp [h0])

theorem KeyPress.char_ne_nul {key : KeyPress} (hinserts : key.Inserts) {c : Char}
    {rest : List UInt8} (hc : key.c = encodeChar c ++ rest) : c ≠ '\x00' := by
  rintro rfl
  exact KeyPress.first_ne hinserts (by rw [KeyPress.first, hc]; rfl)

/-- What the loop keeps: the line holds a text, and its NUL is inside the buffer, which
has its allocated size. -/
structure Editor.Sound (s : Editor) : Prop where
  refines : ∃ z, s.ctx.Refines z
  length_eq : s.ctx.line.length = s.lineAllocation
  allocation_ge : 64 ≤ s.lineAllocation
  room : s.ctx.lineSize + 1 ≤ s.lineAllocation

def LineTurn.After (P : Editor → Prop) (t : LineTurn) : Prop := ∀ s, t = .next s → P s

section
variable {s : Editor} {key : KeyPress}

theorem handleKey_kept (h : s.Sound) (hkey : ¬key.Inserts) :
    Ends (LineTurn.After Editor.Sound) (· ≠ .write) (handleKey s key) := by
  obtain ⟨hz, hlen, hge, hroom⟩ := h
  refine ((Line.Kept.closed s.ctx).handleKey (Line.Kept.refl hz) hkey).mono ?_ fun _ => id
  rintro t ht s' rfl
  obtain ⟨hctx, hallocation⟩ := ht
  rw [← hallocation] at hlen hge hroom
  exact ⟨hctx.refines, hctx.length_eq.trans hlen, hge,
    (Nat.succ_le_succ hctx.size_le).trans hroom⟩

theorem handleKey_insert (s : Editor) (hkey : key.Inserts) :
    handleKey s key = do
      return .next { s with ctx := ← (s.ctx.insertChar key.c key.len).map Prod.snd } := by
  have hne : ∀ k ∈ [KeyPress.nul, KeyPress.tab, KeyPress.enter, KeyPress.esc, KeyPress.backspace],
      key.first ≠ k := fun k hk h => hkey (h ▸ hk)
  unfold handleKey
  rw [if_neg (hne _ (by simp)), if_neg (hne _ (by simp)), if_neg (hne _ (by simp)),
    if_neg (hne _ (by simp)), if_neg (hne _ (by simp))]
  cases s.ctx.insertChar key.c key.len with
  | error f => rfl
  | ok r => rfl

theorem handleKey_insert_ends (h : s.Sound) (hkey : key.Inserts) (hwf : key.WellFormed)
    (hfit : s.ctx.lineSize + key.len + 1 ≤ s.lineAllocation) :
    Ends (LineTurn.After Editor.Sound) (· ≠ .write) (handleKey s key) := by
  obtain ⟨c, rest, hc, hlen⟩ := hwf
  obtain ⟨⟨z, hz⟩, hlength, hge, -⟩ := h
  rw [hlen] at hfit
  have hdone := (Line.insertChar_bytes hz.spells c rest (hlength ▸ hfit)).ends
  have hnul := Zipper.forall_mem_insert hz.nonNul (KeyPress.char_ne_nul hkey hc)
  rw [handleKey_insert s hkey, hc, hlen]
  refine Ends.bind (hdone.mono (fun _ => id) ?_) ?_
  · rintro f (rfl | rfl | rfl) <;> decide
  · rintro ctx ⟨hctx, -, hmem⟩ s' hs'
    obtain rfl := LineTurn.next.inj hs'
    have hsize := Line.added_edit z (.insertChar c)
    have hctx' := hctx.refines hnul
    rw [← hz.size] at hsize
    exact ⟨⟨_, hctx'⟩, hmem.trans hlength, hge,
      (Nat.succ_le_succ (hctx'.size.trans_le hsize)).trans hfit⟩

theorem handleKey_insert_error (h : s.Sound) (hkey : key.Inserts) (hwf : key.WellFormed)
    (hfit : s.lineAllocation < s.ctx.lineSize + key.len + 1) :
    handleKey s key = .error .write := by
  obtain ⟨c, rest, hc, hlen⟩ := hwf
  obtain ⟨⟨z, hz⟩, hlength, -, -⟩ := h
  rw [hlen, ← hlength] at hfit
  rw [handleKey_insert s hkey, hc, hlen, Line.insertChar_error hz.spells (encodeChar c) rest
    (codepointWidth_encodeChar c rest) (cpRenderedWidth_pos c.toNat) hfit]
  rfl

end

/-! ## Iterations -/

theorem doubled_eq {n : ℕ} (h : ¬doubled n < n) : doubled n = n * 2 := by
  unfold doubled at h ⊢
  omega

theorem grow_stdin {heap : Heap} {s s' : Editor} (hgrow : grow heap s = .next s') :
    s'.stdin = s.stdin := by
  unfold grow at hgrow
  split at hgrow
  · split at hgrow
    · exact LineTurn.noConfusion hgrow
    · split at hgrow
      · exact LineTurn.noConfusion hgrow
      · obtain rfl := LineTurn.next.inj hgrow
        rfl
  · obtain rfl := LineTurn.next.inj hgrow
    rfl

theorem grow_ends {heap : Heap} {s s' : Editor} (h : s.Sound) (hgrow : grow heap s = .next s') :
    s'.Sound ∧ s'.ctx.lineSize = s.ctx.lineSize ∧
      (s.ctx.lineSize + 2 = s.lineAllocation ∧ s'.lineAllocation = s.lineAllocation * 2 ∨
        s.ctx.lineSize + 2 ≠ s.lineAllocation ∧ s' = s) := by
  obtain ⟨⟨z, hz⟩, hlength, hge, hroom⟩ := h
  unfold grow at hgrow
  split at hgrow
  · rename_i hfull
    split at hgrow
    · exact LineTurn.noConfusion hgrow
    · rename_i hwrap
      split at hgrow
      · exact LineTurn.noConfusion hgrow
      · rename_i block _
        obtain rfl := LineTurn.next.inj hgrow
        have hdouble := doubled_eq hwrap
        refine ⟨⟨⟨z, ?_⟩, ?_, ?_, ?_⟩, rfl, Or.inl ⟨hfull, hdouble⟩⟩
        · -- The old bytes are in front.
          refine ⟨⟨?_, hz.size, hz.len, hz.nonNul⟩, hz.offset, hz.column⟩
          exact (List.take_append_of_le_length hz.spells.size_le).trans hz.bytes
        · simp only [List.length_append, List.length_drop, Vector.length_toList, hlength]
          omega
        · exact hge.trans (not_lt.mp hwrap)
        · exact hroom.trans (not_lt.mp hwrap)
  · rename_i hfull
    obtain rfl := LineTurn.next.inj hgrow
    exact ⟨⟨⟨z, hz⟩, hlength, hge, hroom⟩, rfl, Or.inr ⟨hfull, rfl⟩⟩

namespace Editor

def key (s : Editor) : KeyPress := (xgetcp s.stdin).1

/-- The growth test does not let a codepoint through for which there is no room: the
buffer grows, or the codepoint is shorter than what is free. -/
def MakesRoom (s : Editor) : Prop := s.key.Inserts →
  s.ctx.lineSize + 2 = s.lineAllocation ∨ s.ctx.lineSize + s.key.len < s.lineAllocation

instance (s : Editor) : Decidable s.MakesRoom := inferInstanceAs (Decidable (_ → _))

end Editor

theorem KeyPress.WellFormed.len_le {key : KeyPress} (h : key.WellFormed) : key.len ≤ 4 := by
  obtain ⟨c, rest, -, hlen⟩ := h
  rw [hlen, String.length_utf8EncodeChar]
  exact c.utf8Size_le_four

theorem lineTurn_ends {heap : Heap} {s : Editor} (h : s.Sound)
    (hkey : s.key.Inserts → s.key.WellFormed) (hroom : s.MakesRoom) :
    Ends (LineTurn.After Editor.Sound) (· ≠ .write) (lineTurn heap s) := by
  unfold lineTurn
  cases hgrow : grow heap s with
  | next s' =>
    obtain ⟨hs', hsize, hcases⟩ := grow_ends h hgrow
    have hsound : Editor.Sound { s' with stdin := (xgetcp s'.stdin).2 } :=
      ⟨hs'.refines, hs'.length_eq, hs'.allocation_ge, hs'.room⟩
    have hkey' : (xgetcp s'.stdin).1 = s.key := by rw [grow_stdin hgrow, Editor.key]
    simp only [hkey']
    by_cases hinserts : s.key.Inserts
    · have hlen := (hkey hinserts).len_le
      have hge := h.allocation_ge
      refine handleKey_insert_ends hsound hinserts (hkey hinserts) ?_
      change s'.ctx.lineSize + s.key.len + 1 ≤ s'.lineAllocation
      rcases hcases with ⟨hfull, hdouble⟩ | ⟨hfull, rfl⟩
      · omega
      · have := (hroom hinserts).resolve_left hfull
        omega
    · exact handleKey_kept hsound hinserts
  | returned ctx => exact fun s' hs' => LineTurn.noConfusion hs'
  | failed => exact fun s' hs' => LineTurn.noConfusion hs'
  | exited => exact fun s' hs' => LineTurn.noConfusion hs'

theorem lineTurn_error {heap : Heap} {s : Editor} (h : s.Sound)
    (hkey : s.key.Inserts → s.key.WellFormed) (hroom : ¬s.MakesRoom) :
    lineTurn heap s = .error .write := by
  simp only [Editor.MakesRoom, Classical.not_imp, not_or, not_lt] at hroom
  obtain ⟨hinserts, hfull, hlt⟩ := hroom
  have hgrow : grow heap s = .next s := if_neg hfull
  have hsound : Editor.Sound { s with stdin := (xgetcp s.stdin).2 } :=
    ⟨h.refines, h.length_eq, h.allocation_ge, h.room⟩
  have herror := handleKey_insert_error hsound hinserts (hkey hinserts)
    (Nat.lt_succ_of_le hlt)
  rw [lineTurn, hgrow]
  exact herror

/-- The states that `xgetline` comes to at the start of an iteration. -/
inductive Editor.Reaches (heap : Heap) (s₀ : Editor) : Editor → Prop
  | start : Reaches heap s₀ s₀
  | turn {s s' : Editor} (hs : Reaches heap s₀ s) (hturn : lineTurn heap s = .ok (.next s')) :
    Reaches heap s₀ s'

/-- The variables of `xgetline` before its loop; `block` is what `xmalloc` returned. -/
def Editor.start (block : HeapBlock 64) (prompt : List UInt8) (promptLen consoleWidth : ℕ)
    (stdin : Stdin) : Editor :=
  ⟨Line.start prompt promptLen block.before block.bytes.toList consoleWidth, 64, stdin⟩

theorem Editor.start_sound (block : HeapBlock 64) (prompt : List UInt8)
    (promptLen consoleWidth : ℕ) (stdin : Stdin) :
    (Editor.start block prompt promptLen consoleWidth stdin).Sound :=
  ⟨⟨_, Line.start_refines _ _ _ _ _⟩, block.bytes.length_toList, le_rfl,
    (by decide : 0 + 1 ≤ 64)⟩

/-- A run without a fault of a write keeps to the buffer, by induction on its turns. -/
theorem Editor.Reaches.sound {heap : Heap} {s₀ s : Editor} (h₀ : s₀.Sound)
    (hkeys : ∀ s, Reaches heap s₀ s → s.key.Inserts → s.key.WellFormed)
    (h : Reaches heap s₀ s) : s.Sound := by
  induction h with
  | start => exact h₀
  | @turn s s' hs hturn ih =>
    by_cases hroom : s.MakesRoom
    · exact (lineTurn_ends ih (hkeys s hs) hroom).of_ok hturn s' rfl
    · rw [lineTurn_error ih (hkeys s hs) hroom] at hturn
      exact absurd hturn (by simp)

/-! ## Typed text -/

/-- Keys that are encoded characters, each read at once. -/
def Typed (stdin : Stdin) : Prop := ∃ cs : List Char,
  (∀ c ∈ cs, c ≠ '\x1b') ∧ stdin = cs.map encodeChar

theorem handleKey_stdin {s : Editor} {key : KeyPress} (h : key.first ≠ KeyPress.esc) :
    Ends (LineTurn.After fun s' => s'.stdin = s.stdin) (fun _ => True) (handleKey s key) := by
  have hnext {ctx : Line} : LineTurn.After (fun s' => s'.stdin = s.stdin)
      (.next { s with ctx := ctx }) := by
    rintro s' hs'
    obtain rfl := LineTurn.next.inj hs'
    rfl
  unfold handleKey
  split_ifs
  · exact fun s' hs' => LineTurn.noConfusion hs'
  · exact hnext
  · exact (Ends.trivial _).bind fun _ _ s' hs' => LineTurn.noConfusion hs'
  · exact hnext
  · exact (Ends.trivial _).bind fun _ _ => hnext
  · exact (Ends.trivial _).bind fun _ _ => hnext

theorem first_encodeChar (c : Char) (rest : Stdin) :
    (xgetcp (encodeChar c :: rest)).1.first = (Codepoint.ofChar c).lead := by
  obtain ⟨lead, tail, h, -⟩ := exists_wellFormed c
  rw [xgetcp_encodeChar, Codepoint.ofChar, h]
  rfl

theorem Editor.Reaches.typed {heap : Heap} {s₀ s : Editor} (h₀ : Typed s₀.stdin)
    (h : Reaches heap s₀ s) : Typed s.stdin := by
  induction h with
  | start => exact h₀
  | @turn s s' hs hturn ih =>
    unfold Parcel.lineTurn at hturn
    cases hgrow : grow heap s with
    | next s₁ =>
      rw [hgrow] at hturn
      rw [← grow_stdin hgrow] at ih
      obtain ⟨cs, hcs, hstdin⟩ := ih
      -- no codepoint of what was typed is an escape, so no key reads further bytes
      have hesc : (xgetcp s₁.stdin).1.first ≠ KeyPress.esc := by
        cases cs with
        | nil =>
          rw [hstdin]
          decide
        | cons c cs =>
          rw [hstdin, List.map_cons, first_encodeChar]
          intro hc
          exact hcs c List.mem_cons_self
            ((Codepoint.lead_ofChar_eq_iff c (d := '\x1b') (by decide)).mp hc)
      rw [(handleKey_stdin hesc).of_ok hturn s' rfl]
      cases cs with
      | nil => exact ⟨[], hcs, by rw [hstdin]; rfl⟩
      | cons c cs =>
        refine ⟨cs, fun d hd => hcs d (List.mem_cons_of_mem _ hd), ?_⟩
        rw [hstdin, List.map_cons, xgetcp_encodeChar]
    | returned ctx =>
      rw [hgrow] at hturn
      exact LineTurn.noConfusion (Except.ok.inj hturn)
    | failed =>
      rw [hgrow] at hturn
      exact LineTurn.noConfusion (Except.ok.inj hturn)
    | exited =>
      rw [hgrow] at hturn
      exact LineTurn.noConfusion (Except.ok.inj hturn)

theorem Typed.wellFormed {s : Editor} (h : Typed s.stdin) (hkey : s.key.Inserts) :
    s.key.WellFormed := by
  obtain ⟨cs, hcs, hstdin⟩ := h
  rw [Editor.key, hstdin] at hkey ⊢
  cases cs with
  | nil => exact absurd hkey (by decide)
  | cons c cs =>
    have hle : (encodeChar c).length ≤ 4 := by
      rw [String.length_utf8EncodeChar]
      exact c.utf8Size_le_four
    rw [List.map_cons, xgetcp_encodeChar]
    refine ⟨c, [0, 0, 0].take (4 - (encodeChar c).length), ?_, rfl⟩
    rw [List.take_append, List.take_of_length_le hle]

/-- In a run of `xgetline` on well-formed codepoints, every write of `insert_char` and of
`delete_char` stays inside the buffer, and the line with its NUL fits into it, exactly when
no codepoint of the run steps over the growth test. -/
theorem line_buffer_within_iff (heap : Heap) (block : HeapBlock 64) (prompt : List UInt8)
    (promptLen consoleWidth : ℕ) (stdin : Stdin)
    (hkeys : ∀ s, Editor.Reaches heap
      (Editor.start block prompt promptLen consoleWidth stdin) s →
        s.key.Inserts → s.key.WellFormed) :
    (∀ s, Editor.Reaches heap (Editor.start block prompt promptLen consoleWidth stdin) s →
        s.ctx.line.length = s.lineAllocation ∧ s.ctx.lineSize + 1 ≤ s.lineAllocation ∧
          lineTurn heap s ≠ .error .write) ↔
      ∀ s, Editor.Reaches heap (Editor.start block prompt promptLen consoleWidth stdin) s →
        s.MakesRoom := by
  have hsound {s : Editor} (h : Editor.Reaches heap _ s) : s.Sound :=
    h.sound (Editor.start_sound block prompt promptLen consoleWidth stdin) hkeys
  constructor
  · intro h s hs
    by_contra hroom
    exact (h s hs).2.2 (lineTurn_error (hsound hs) (hkeys s hs) hroom)
  · intro h s hs
    refine ⟨(hsound hs).length_eq, (hsound hs).room, fun hwrite => ?_⟩
    exact (lineTurn_ends (hsound hs) (hkeys s hs) (h s hs)).of_error hwrite rfl

def Editor.after (heap : Heap) : ℕ → Editor → Option Editor
  | 0, s => some s
  | n + 1, s =>
    match Parcel.lineTurn heap s with
    | .ok (.next s') => after heap n s'
    | _ => none

theorem Editor.Reaches.after {heap : Heap} {s₀ s s' : Editor} (h : Reaches heap s₀ s) {n : ℕ}
    (hn : Editor.after heap n s = some s') : Reaches heap s₀ s' := by
  induction n generalizing s with
  | zero =>
    obtain rfl := Option.some.inj hn
    exact h
  | succ n ih =>
    rw [Editor.after] at hn
    split at hn
    · rename_i hturn
      exact ih (h.turn hturn) hn
    · exact absurd hn (by simp)

/-- A test passes in the next iterations, up to the last one. -/
def Editor.checks (heap : Heap) (test : Editor → Bool) : ℕ → Editor → Bool
  | 0, _ => false
  | n + 1, s => test s &&
    match Parcel.lineTurn heap s with
    | .ok (.next s') => checks heap test n s'
    | _ => true

theorem Editor.Reaches.checks {heap : Heap} {test : Editor → Bool} {s₀ s : Editor} {n : ℕ}
    (h : Reaches heap s₀ s) (hchecks : Editor.checks heap test n s₀ = true) : test s = true := by
  have hleft : ∃ n, Editor.checks heap test (n + 1) s = true := by
    induction h with
    | start =>
      cases n with
      | zero => cases hchecks
      | succ n => exact ⟨n, hchecks⟩
    | turn _ hturn ih =>
      obtain ⟨m, hm⟩ := ih
      rw [Editor.checks, hturn, Bool.and_eq_true] at hm
      cases m with
      | zero => cases hm.2
      | succ m => exact ⟨m, hm.2⟩
  obtain ⟨m, hm⟩ := hleft
  rw [Editor.checks, Bool.and_eq_true] at hm
  exact hm.1

/-- Seventeen characters of 62 bytes, and one more of four. -/
def eighteenKeys : Stdin := (List.replicate 15 '😀' ++ ['a', 'b', '😀']).map encodeChar

def zeroHeap : Heap := fun n => some ⟨Vector.replicate n 0, [0]⟩

/-- The buffer is made twice as long for the last character, and no write leaves it. -/
theorem line_buffer_within_iff_typed :
    (∃ s, Editor.Reaches zeroHeap
      (Editor.start ⟨Vector.replicate 64 0, [0]⟩ [0x3e, 0x20] 2 80 eighteenKeys) s ∧
        s.lineAllocation = 128 ∧ s.ctx.lineSize = 66) ∧
    ∀ s, Editor.Reaches zeroHeap
      (Editor.start ⟨Vector.replicate 64 0, [0]⟩ [0x3e, 0x20] 2 80 eighteenKeys) s →
        s.ctx.lineSize + 1 ≤ s.lineAllocation ∧ lineTurn zeroHeap s ≠ .error .write := by
  constructor
  · have hrun : ((Editor.after zeroHeap 18 (Editor.start ⟨Vector.replicate 64 0, [0]⟩
        [0x3e, 0x20] 2 80 eighteenKeys)).map fun s => (s.lineAllocation, s.ctx.lineSize)) =
          some (128, 66) := by
      decide +kernel
    obtain ⟨s, hs, hsize⟩ := Option.map_eq_some_iff.mp hrun
    exact ⟨s, Editor.Reaches.start.after hs, (Prod.mk.inj hsize).1, (Prod.mk.inj hsize).2⟩
  · have hchecks : Editor.checks zeroHeap (fun s => decide s.MakesRoom) 20
        (Editor.start ⟨Vector.replicate 64 0, [0]⟩ [0x3e, 0x20] 2 80 eighteenKeys) = true := by
      decide +kernel
    have hwithin := (line_buffer_within_iff zeroHeap ⟨Vector.replicate 64 0, [0]⟩ [0x3e, 0x20] 2 80
      eighteenKeys fun _ hs => (hs.typed ⟨_, by simp, rfl⟩).wellFormed).mpr
        fun s hs => of_decide_eq_true (hs.checks hchecks)
    exact fun s hs => (hwithin s hs).2

/-- Sixteen codepoints of four bytes. The size goes from 60 to 64, past the growth test at
62, and the NUL is written at index 64 of 64 bytes. -/
theorem codepoints_written_past_end :
    ∃ (heap : Heap) (block : HeapBlock 64) (stdin : Stdin),
      (∀ s, Editor.Reaches heap (Editor.start block [0x3e, 0x20] 2 80 stdin) s →
        s.key.Inserts → s.key.WellFormed) ∧
      ∃ s, Editor.Reaches heap (Editor.start block [0x3e, 0x20] 2 80 stdin) s ∧
        lineTurn heap s = .error .write := by
  refine ⟨fun _ => none, ⟨Vector.replicate 64 0, [0]⟩,
    (List.replicate 16 '😀').map encodeChar, ?_, ?_⟩
  · exact fun _ hs => (hs.typed ⟨List.replicate 16 '😀', by simp, rfl⟩).wellFormed
  · have hrun : ((Editor.after (fun _ => none) 15 (Editor.start
        ⟨Vector.replicate 64 0, [0]⟩ [0x3e, 0x20] 2 80
        ((List.replicate 16 '😀').map encodeChar))).map fun s =>
          match lineTurn (fun _ => none) s with
          | .error .write => true
          | _ => false) = some true := by
      decide +kernel
    obtain ⟨s, hs, hturn⟩ := Option.map_eq_some_iff.mp hrun
    refine ⟨s, Editor.Reaches.start.after hs, ?_⟩
    split at hturn
    · assumption
    · exact absurd hturn (by decide)

end Parcel
