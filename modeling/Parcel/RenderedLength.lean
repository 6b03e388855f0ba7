import Parcel.Utf8

/-!
# The length of a prompt

The functions of `utf8.c` that count the codepoints of a string with escape sequences. The
sequences are stripped first, and the byte behind a sequence is copied without a look at
it, so that of two adjacent sequences the second one is counted.
-/

namespace Parcel
open BoundedReads Utf8Encoding

/-- The inner loop, which looks for an `m`, and the step past it. -/
def skipSequence : List UInt8 → Option (List UInt8)
  | [] => none
  | c :: str => if c = 0x6d then some str else skipSequence str

/-- One turn of the stripping loop: the byte that it copies and what is left of the string,
or its end; `none` behind the end. -/
def stripTurn : List UInt8 → Option (Option (UInt8 × List UInt8))
  | [] => none
  | c :: str =>
    if c = 0 then some none
    else do
      match ← (if c = 0x1b then skipSequence (c :: str) else some (c :: str)) with
      | [] => none
      | c :: str => some (if c = 0 then none else some (c, str))

/-- The loop on a buffer with some room; `none` once it leaves the buffer or the string. -/
def stripEscapes : ℕ → List UInt8 → Option (List UInt8)
  | 0, str => do
    match ← stripTurn str with
    | none => some []
    | some _ => none
  | room + 1, str => do
    match ← stripTurn str with
    | none => some []
    | some (c, str) => (stripEscapes room str).map (c :: ·)

/-- The loop of `utf8_strnlen`: the offset that it stops at, and the length. -/
def strnlenLoop (str : List UInt8) (len : ℕ) : ℕ → ℕ → ℕ → Option (ℕ × ℕ)
  | 0, _, _ => none
  | fuel + 1, offset, length =>
    if offset < len then do
      let c ← byteAt str offset
      if c = 0 then some (offset, length)
      else strnlenLoop str len fuel (offset + announced c) (length + 1)
    else some (offset, length)

def utf8Strnlen (str : List UInt8) (len : ℕ) : Option ℕ := do
  let (offset, length) ← strnlenLoop str len (len + 1) 0 0
  if len < offset then subWithin length 1 else some length

/-- The function `utf8_rendered_length`, with the zeroed buffer as large as the string. -/
def utf8RenderedLength (str : List UInt8) : Option ℕ := do
  let size := (← stringIn str).length
  let stripped ← stripEscapes size str
  utf8Strnlen (stripped ++ List.replicate (size - stripped.length) 0) stripped.length

/-- A codepoint other than `ESC`, or an escape sequence up to its `m`. -/
inductive Piece
  | text (c : Char) (escape_ne : c ≠ Char.ofNat 0x1b) (nul_ne : c ≠ Char.ofNat 0)
  | escape (body : List UInt8) (no_m : 0x6d ∉ body) (no_nul : 0 ∉ body)

namespace Piece

def bytes : Piece → List UInt8
  | text c _ _ => encodeChar c
  | escape body _ _ => 0x1b :: (body ++ [0x6d])

def isEscape : Piece → Bool
  | text .. => false
  | escape .. => true

/-- No byte of the sequence looks like the start of a longer codepoint. -/
def SingleBytes : Piece → Prop
  | text .. => True
  | escape body _ _ => ∀ b ∈ body, announced b = 1

end Piece

def pieceBytes (ps : List Piece) : List UInt8 := ps.flatMap Piece.bytes

def visible (ps : List Piece) : ℕ := ps.countP fun p => !p.isEscape

def Separated (ps : List Piece) : Prop := ps.IsChain fun p q => ¬(p.isEscape ∧ q.isEscape)

instance (ps : List Piece) : Decidable (Separated ps) :=
  inferInstanceAs (Decidable (ps.IsChain fun p q => ¬(p.isEscape ∧ q.isEscape)))

/-- What the loop leaves of a string: the byte behind a sequence is any but a NUL. -/
inductive Strips : List UInt8 → List UInt8 → Prop
  | nul (rest : List UInt8) : Strips (0 :: rest) []
  | byte {c : UInt8} {str out : List UInt8} (hnul : c ≠ 0) (hesc : c ≠ 0x1b)
      (h : Strips str out) : Strips (c :: str) (c :: out)
  | escapeNul {body : List UInt8} (rest : List UInt8) (hm : 0x6d ∉ body) :
      Strips (0x1b :: (body ++ 0x6d :: 0 :: rest)) []
  | escapeByte {body : List UInt8} {c : UInt8} {str out : List UInt8} (hm : 0x6d ∉ body)
      (hnul : c ≠ 0) (h : Strips str out) : Strips (0x1b :: (body ++ 0x6d :: c :: str)) (c :: out)

theorem skipSequence_eq {body : List UInt8} (hm : 0x6d ∉ body) (rest : List UInt8) :
    skipSequence (body ++ 0x6d :: rest) = some rest := by
  induction body with
  | nil => rfl
  | cons b body ih =>
    rw [List.mem_cons, not_or] at hm
    rw [List.cons_append, skipSequence, if_neg (Ne.symm hm.1)]
    exact ih hm.2

theorem stripTurn_byte {c : UInt8} (hnul : c ≠ 0) (hesc : c ≠ 0x1b) (str : List UInt8) :
    stripTurn (c :: str) = some (some (c, str)) := by
  rw [stripTurn, if_neg hnul, if_neg hesc]
  change some (if c = 0 then none else some (c, str)) = _
  rw [if_neg hnul]

theorem stripTurn_escape {body : List UInt8} (hm : 0x6d ∉ body) (c : UInt8) (str : List UInt8) :
    stripTurn (0x1b :: (body ++ 0x6d :: c :: str)) =
      some (if c = 0 then none else some (c, str)) := by
  have hm' : 0x6d ∉ 0x1b :: body := by simpa using hm
  have hskip : skipSequence (0x1b :: (body ++ 0x6d :: c :: str)) = some (c :: str) :=
    skipSequence_eq hm' _
  rw [stripTurn, if_neg (by decide), if_pos rfl, hskip]
  rfl

theorem stripEscapes_end {str : List UInt8} (h : stripTurn str = some none) (room : ℕ) :
    stripEscapes room str = some [] := by
  cases room with
  | zero => rw [stripEscapes, h]; rfl
  | succ room => rw [stripEscapes, h]; rfl

theorem stripEscapes_copy {str rest out : List UInt8} {c : UInt8}
    (h : stripTurn str = some (some (c, rest))) {room : ℕ} (hroom : (c :: out).length ≤ room)
    (hrest : ∀ room, out.length ≤ room → stripEscapes room rest = some out) :
    stripEscapes room str = some (c :: out) := by
  cases room with
  | zero => exact absurd hroom (Nat.not_succ_le_zero _)
  | succ room =>
    rw [stripEscapes, h]
    change (stripEscapes room rest).map (c :: ·) = _
    rw [hrest room (Nat.le_of_succ_le_succ hroom), Option.map_some]

theorem Strips.run {str out : List UInt8} (h : Strips str out) :
    ∀ room, out.length ≤ room → stripEscapes room str = some out := by
  induction h with
  | nul rest => exact fun room _ => stripEscapes_end rfl room
  | byte hnul hesc _ ih =>
    intro room hroom
    exact stripEscapes_copy (stripTurn_byte hnul hesc _) hroom ih
  | escapeNul rest hm => exact fun room _ => stripEscapes_end (stripTurn_escape hm 0 rest) room
  | @escapeByte body c str out hm hnul _ ih =>
    intro room hroom
    have hturn := stripTurn_escape hm c str
    rw [if_neg hnul] at hturn
    exact stripEscapes_copy hturn hroom ih

theorem Strips.length_lt {str out : List UInt8} (h : Strips str out) : out.length < str.length := by
  induction h with
  | nul => exact Nat.succ_pos _
  | byte _ _ _ ih => exact Nat.succ_lt_succ ih
  | escapeNul => exact Nat.succ_pos _
  | escapeByte _ _ _ ih =>
    simp only [List.length_cons, List.length_append]
    omega

/-- Codepoints by their lead bytes, whatever the other bytes are. -/
inductive Counted : List UInt8 → ℕ → Prop
  | nil : Counted [] 0
  | cons {lead : UInt8} {tail out : List UInt8} {n : ℕ} (hann : announced lead = tail.length + 1)
      (hnul : lead ≠ 0) (h : Counted out n) : Counted (lead :: tail ++ out) (n + 1)

theorem Counted.single {b : UInt8} {out : List UInt8} {n : ℕ} (hann : announced b = 1)
    (hnul : b ≠ 0) (h : Counted out n) : Counted (b :: out) (n + 1) :=
  @Counted.cons b [] out n hann hnul h

theorem announced_pos (b : UInt8) : 0 < announced b := by
  unfold announced
  split_ifs <;> decide

theorem strnlenLoop_counted {out : List UInt8} {n : ℕ} (h : Counted out n)
    (before rest : List UInt8)
    {fuel : ℕ} (hfuel : out.length < fuel) (length : ℕ) :
    strnlenLoop (before ++ (out ++ rest)) (before.length + out.length) fuel before.length length =
      some (before.length + out.length, length + n) := by
  induction h generalizing before fuel length with
  | nil =>
    obtain ⟨fuel, rfl⟩ : ∃ k, fuel = k + 1 := Nat.exists_eq_succ_of_ne_zero (Nat.ne_of_gt hfuel)
    rw [strnlenLoop, if_neg (by simp)]
    rfl
  | @cons lead tail out n hann hnul h ih =>
    obtain ⟨fuel, rfl⟩ : ∃ k, fuel = k + 1 :=
      Nat.exists_eq_succ_of_ne_zero (Nat.ne_of_gt ((Nat.zero_le _).trans_lt hfuel))
    have hlead : byteAt (before ++ (lead :: tail ++ out ++ rest)) before.length = some lead := by
      rw [byteAt, List.getElem?_append_right le_rfl, Nat.sub_self]
      rfl
    have hfuel' : out.length < fuel := by
      simp only [List.length_cons, List.length_append] at hfuel
      omega
    have hnext := ih (before ++ lead :: tail) hfuel' (length + 1)
    simp only [List.length_append, List.length_cons, List.append_assoc, List.cons_append]
      at hnext hlead ⊢
    rw [strnlenLoop, if_pos (by omega), hlead]
    simp only [Option.bind_eq_bind, Option.bind_some, if_neg hnul, hann]
    rw [show before.length + (tail.length + out.length + 1) =
      before.length + (tail.length + 1) + out.length by omega, hnext,
      show length + 1 + n = length + (n + 1) by omega]

theorem utf8Strnlen_counted {out : List UInt8} {n : ℕ} (h : Counted out n) (rest : List UInt8) :
    utf8Strnlen (out ++ rest) out.length = some n := by
  have hloop := strnlenLoop_counted h [] rest (Nat.lt_succ_self out.length) 0
  simp only [List.nil_append, List.length_nil, Nat.zero_add] at hloop
  rw [utf8Strnlen, hloop]
  exact if_neg (lt_irrefl _)

/-- The loop ends inside of the buffer that it counts, whatever is in there. -/
theorem strnlenLoop_ends {str : List UInt8} {len : ℕ} (hlen : len ≤ str.length) {fuel offset : ℕ}
    (hfuel : len < fuel + offset) (hpos : 0 < fuel) {length : ℕ}
    (hlength : 0 < offset → 0 < length) :
    ∃ offset' length', strnlenLoop str len fuel offset length = some (offset', length') ∧
      (len < offset' → 0 < length') := by
  induction fuel generalizing offset length with
  | zero => exact absurd hpos (lt_irrefl 0)
  | succ fuel ih =>
    rw [strnlenLoop]
    by_cases hlt : offset < len
    · rw [if_pos hlt, byteAt, List.getElem?_eq_getElem (hlt.trans_le hlen)]
      simp only [Option.bind_eq_bind, Option.bind_some]
      by_cases hnul : str[offset] = 0
      · rw [if_pos hnul]
        exact ⟨offset, length, rfl, fun hgt => absurd hgt hlt.not_gt⟩
      · have hstep := announced_pos str[offset]
        rw [if_neg hnul]
        exact ih (by omega) (by omega) fun _ => Nat.succ_pos length
    · rw [if_neg hlt]
      exact ⟨offset, length, rfl, fun hgt => hlength ((Nat.zero_le len).trans_lt hgt)⟩

theorem utf8Strnlen_ends {str : List UInt8} {len : ℕ} (hlen : len ≤ str.length) :
    ∃ n, utf8Strnlen str len = some n := by
  obtain ⟨offset, length, hloop, hlength⟩ : ∃ offset length,
      strnlenLoop str len (len + 1) 0 0 = some (offset, length) ∧ (len < offset → 0 < length) :=
    strnlenLoop_ends hlen (by omega) (Nat.succ_pos len) fun h => absurd h (lt_irrefl 0)
  rw [utf8Strnlen, hloop]
  change ∃ n, (if len < offset then subWithin length 1 else some length) = some n
  by_cases hlt : len < offset
  · rw [if_pos hlt, subWithin, if_pos (Nat.succ_le_of_lt (hlength hlt))]
    exact ⟨_, rfl⟩
  · rw [if_neg hlt]
    exact ⟨_, rfl⟩

theorem Strips.append {bytes str out : List UInt8} (hbytes : ∀ b ∈ bytes, b ≠ 0 ∧ b ≠ 0x1b)
    (h : Strips str out) : Strips (bytes ++ str) (bytes ++ out) := by
  induction bytes with
  | nil => exact h
  | cons b bytes ih =>
    have hb := hbytes b List.mem_cons_self
    exact .byte hb.1 hb.2 (ih fun x hx => hbytes x (List.mem_cons_of_mem b hx))

theorem continuation_ne {b : UInt8} (h : isContinuation b = true) : b ≠ 0 ∧ b ≠ 0x1b := by
  constructor
  · rintro rfl
    exact absurd h (by decide)
  · rintro rfl
    exact absurd h (by decide)

theorem encodeChar_bytes {c : Char} (hesc : c ≠ Char.ofNat 0x1b) (hnul : c ≠ Char.ofNat 0) :
    ∃ lead tail, encodeChar c = lead :: tail ∧ announced lead = tail.length + 1 ∧ lead ≠ 0 ∧
      ∀ b ∈ lead :: tail, b ≠ 0 ∧ b ≠ 0x1b := by
  obtain ⟨lead, tail, h, hwf⟩ := exists_wellFormed c
  have hlead : lead ≠ 0 ∧ lead ≠ 0x1b :=
    ⟨fun heq => hnul ((lead_eq_iff (by decide) h).mp heq),
      fun heq => hesc ((lead_eq_iff (by decide) h).mp heq)⟩
  refine ⟨lead, tail, h, hwf.announced_eq, hlead.1, ?_⟩
  exact List.forall_mem_cons.mpr ⟨hlead, fun b hb => continuation_ne (hwf.tail_all b hb)⟩

theorem Strips.after_escape {body str out : List UInt8} (hm : 0x6d ∉ body) (h : Strips str out)
    (hesc : str.head? ≠ some 0x1b) : Strips (0x1b :: (body ++ 0x6d :: str)) out := by
  cases h with
  | nul rest => exact .escapeNul rest hm
  | byte hnul _ h => exact .escapeByte hm hnul h
  | escapeNul => exact absurd rfl hesc
  | escapeByte => exact absurd rfl hesc

theorem pieceBytes_text (c : Char) (hesc hnul) (ps : List Piece) (rest : List UInt8) :
    pieceBytes (.text c hesc hnul :: ps) ++ rest = encodeChar c ++ (pieceBytes ps ++ rest) := by
  rw [pieceBytes, List.flatMap_cons, List.append_assoc]
  rfl

theorem pieceBytes_escape (body : List UInt8) (hm hnul) (ps : List Piece) (rest : List UInt8) :
    pieceBytes (.escape body hm hnul :: ps) ++ rest =
      0x1b :: (body ++ 0x6d :: (pieceBytes ps ++ rest)) := by
  rw [pieceBytes, List.flatMap_cons, List.append_assoc]
  change 0x1b :: (body ++ [0x6d] ++ _) = _
  rw [List.append_assoc]
  rfl

/-- The loop copies some bytes of a string; if they start a codepoint each, or belong to
one, there are at least so many of them. -/
def Leaves (str : List UInt8) (single : Prop) (least : ℕ) : Prop :=
  ∃ out, Strips str out ∧ (single → ∃ n, Counted out n ∧ least ≤ n)

theorem Leaves.mono {str : List UInt8} {p q : Prop} {k l : ℕ} (h : Leaves str p k) (hpq : q → p)
    (hkl : l ≤ k) : Leaves str q l := by
  obtain ⟨out, hstrips, hcount⟩ := h
  refine ⟨out, hstrips, fun hq => ?_⟩
  obtain ⟨n, hn, hle⟩ := hcount (hpq hq)
  exact ⟨n, hn, hkl.trans hle⟩

theorem Leaves.byte {str : List UInt8} {p : Prop} {k : ℕ} (h : Leaves str p k) {b : UInt8}
    (hnul : b ≠ 0) (hesc : b ≠ 0x1b) :
    Leaves (b :: str) (announced b = 1 ∧ p) (k + 1) := by
  obtain ⟨out, hstrips, hcount⟩ := h
  refine ⟨b :: out, .byte hnul hesc hstrips, fun hb => ?_⟩
  obtain ⟨n, hn, hle⟩ := hcount hb.2
  exact ⟨n + 1, .single hb.1 hnul hn, Nat.succ_le_succ hle⟩

theorem Leaves.text {str : List UInt8} {p : Prop} {k : ℕ} (h : Leaves str p k) {c : Char}
    (hesc : c ≠ Char.ofNat 0x1b) (hnul : c ≠ Char.ofNat 0) :
    Leaves (encodeChar c ++ str) p (k + 1) := by
  obtain ⟨out, hstrips, hcount⟩ := h
  obtain ⟨lead, tail, hc, hann, hlead, hbytes⟩ := encodeChar_bytes hesc hnul
  rw [hc]
  refine ⟨lead :: tail ++ out, hstrips.append hbytes, fun hp => ?_⟩
  obtain ⟨n, hn, hle⟩ := hcount hp
  exact ⟨n + 1, .cons hann hlead hn, Nat.succ_le_succ hle⟩

theorem Leaves.after_escape {str : List UInt8} {p : Prop} {k : ℕ} (h : Leaves str p k)
    {body : List UInt8} (hm : 0x6d ∉ body) (hesc : str.head? ≠ some 0x1b) :
    Leaves (0x1b :: (body ++ 0x6d :: str)) p k := by
  obtain ⟨out, hstrips, hcount⟩ := h
  exact ⟨out, hstrips.after_escape hm hesc, hcount⟩

/-! ## All pieces -/

def SingleBytes (ps : List Piece) : Prop := ∀ p ∈ ps, p.SingleBytes

/-- One more than the codepoints outside of the sequences, if two sequences are adjacent. -/
def leastCounted (ps : List Piece) : ℕ := visible ps + if Separated ps then 0 else 1

section

variable {c : Char} {hesc : c ≠ Char.ofNat 0x1b} {hnul : c ≠ Char.ofNat 0} {body : List UInt8}
  {hm : 0x6d ∉ body} {hbody : 0 ∉ body} {ps : List Piece}

theorem visible_text : visible (.text c hesc hnul :: ps) = visible ps + 1 :=
  List.countP_cons_of_pos rfl

theorem visible_escape : visible (.escape body hm hbody :: ps) = visible ps :=
  List.countP_cons_of_neg Bool.false_ne_true

theorem separated_text : Separated (.text c hesc hnul :: ps) ↔ Separated ps := by
  cases ps with
  | nil => exact iff_of_true (List.isChain_singleton _) List.isChain_nil
  | cons p ps =>
    rw [Separated, List.isChain_cons_cons]
    exact and_iff_right fun h => Bool.false_ne_true h.1

theorem separated_escape_text :
    Separated (.escape body hm hbody :: .text c hesc hnul :: ps) ↔
      Separated (.text c hesc hnul :: ps) := by
  rw [Separated, List.isChain_cons_cons]
  exact and_iff_right fun h => Bool.false_ne_true h.2

theorem not_separated {body' : List UInt8} {hm' : 0x6d ∉ body'} {hbody' : 0 ∉ body'} :
    ¬Separated (.escape body hm hbody :: .escape body' hm' hbody' :: ps) := by
  rw [Separated, List.isChain_cons_cons]
  exact fun h => h.1 ⟨rfl, rfl⟩

theorem leastCounted_text : leastCounted (.text c hesc hnul :: ps) = leastCounted ps + 1 := by
  simp only [leastCounted, visible_text, separated_text]
  omega

theorem leastCounted_escape_text :
    leastCounted (.escape body hm hbody :: .text c hesc hnul :: ps) =
      leastCounted (.text c hesc hnul :: ps) := by
  simp only [leastCounted, visible_escape, separated_escape_text]

theorem leastCounted_adjacent {body' : List UInt8} {hm' : 0x6d ∉ body'} {hbody' : 0 ∉ body'} :
    leastCounted (.escape body hm hbody :: .escape body' hm' hbody' :: ps) = visible ps + 1 := by
  rw [leastCounted, visible_escape, visible_escape, if_neg not_separated]

theorem visible_le : visible ps ≤ leastCounted ps := Nat.le_add_right _ _

theorem head?_text (rest : List UInt8) :
    (pieceBytes (.text c hesc hnul :: ps) ++ rest).head? ≠ some 0x1b := by
  obtain ⟨lead, tail, hc, -, -, hbytes⟩ := encodeChar_bytes hesc hnul
  rw [pieceBytes_text, hc]
  exact fun heq => (hbytes lead List.mem_cons_self).2 (Option.some.inj heq)

end

/-- What the loop leaves of the pieces, of them behind one more sequence, and of them behind
the body of one whose `ESC` is copied already. -/
structure PiecesLeave (ps : List Piece) : Prop where
  alone : Leaves (pieceBytes ps ++ [0]) (SingleBytes ps) (leastCounted ps)
  behind : ∀ body hm hbody, Leaves (pieceBytes (.escape body hm hbody :: ps) ++ [0])
    (SingleBytes (.escape body hm hbody :: ps)) (leastCounted (.escape body hm hbody :: ps))
  inside : ∀ body : List UInt8, 0x6d ∉ body → 0 ∉ body →
    Leaves (body ++ 0x6d :: (pieceBytes ps ++ [0]))
      ((∀ b ∈ body, announced b = 1) ∧ SingleBytes ps) (visible ps)

theorem leaves_inside {ps : List Piece}
    (alone : Leaves (pieceBytes ps ++ [0]) (SingleBytes ps) (leastCounted ps))
    (behind : ∀ body hm hbody, Leaves (pieceBytes (.escape body hm hbody :: ps) ++ [0])
      (SingleBytes (.escape body hm hbody :: ps)) (leastCounted (.escape body hm hbody :: ps)))
    (body : List UInt8) (hm : 0x6d ∉ body) (hbody : 0 ∉ body) :
    Leaves (body ++ 0x6d :: (pieceBytes ps ++ [0]))
      ((∀ b ∈ body, announced b = 1) ∧ SingleBytes ps) (visible ps) := by
  induction body with
  | nil =>
    have hbyte := alone.byte (b := 0x6d) (by decide) (by decide)
    exact hbyte.mono (fun h => ⟨by decide, h.2⟩) (visible_le.trans (Nat.le_succ _))
  | cons b body ih =>
    rw [List.mem_cons, not_or] at hm hbody
    -- A byte of the body is copied like text, or it is an `ESC` up to the same `m`.
    by_cases hesc : b = 0x1b
    · subst hesc
      have hbehind := behind body hm.2 hbody.2
      rw [pieceBytes_escape] at hbehind
      refine hbehind.mono (fun h => ?_) (visible_escape.symm.trans_le visible_le)
      refine List.forall_mem_cons.mpr ⟨?_, h.2⟩
      exact fun b hb => h.1 b (List.mem_cons_of_mem _ hb)
    · have hbyte := (ih hm.2 hbody.2).byte (Ne.symm hbody.1) hesc
      refine hbyte.mono (fun h => ?_) (Nat.le_succ _)
      have hall := List.forall_mem_cons.mp h.1
      exact ⟨hall.1, hall.2, h.2⟩

theorem piecesLeave (ps : List Piece) : PiecesLeave ps := by
  induction ps with
  | nil =>
    have alone : Leaves [0] (SingleBytes []) (leastCounted []) :=
      ⟨[], .nul [], fun _ => ⟨0, .nil, le_rfl⟩⟩
    have behind (body hm hbody) : Leaves (pieceBytes [.escape body hm hbody] ++ [0])
        (SingleBytes [.escape body hm hbody]) (leastCounted [.escape body hm hbody]) := by
      rw [pieceBytes_escape]
      exact (alone.after_escape hm (by decide)).mono (fun _ _ h => absurd h List.not_mem_nil)
        le_rfl
    exact ⟨alone, behind, leaves_inside alone behind⟩
  | cons p ps ih =>
    have tail {p : Piece} (h : SingleBytes (p :: ps)) : SingleBytes ps :=
      (List.forall_mem_cons.mp h).2
    cases p with
    | text c hesc hnul =>
      have alone : Leaves (pieceBytes (.text c hesc hnul :: ps) ++ [0])
          (SingleBytes (.text c hesc hnul :: ps)) (leastCounted (.text c hesc hnul :: ps)) := by
        rw [pieceBytes_text, leastCounted_text]
        exact (ih.alone.text hesc hnul).mono tail le_rfl
      have behind (body hm hbody) :
          Leaves (pieceBytes (.escape body hm hbody :: .text c hesc hnul :: ps) ++ [0])
            (SingleBytes (.escape body hm hbody :: .text c hesc hnul :: ps))
            (leastCounted (.escape body hm hbody :: .text c hesc hnul :: ps)) := by
        rw [pieceBytes_escape, leastCounted_escape_text]
        exact (alone.after_escape hm (head?_text _)).mono
          (fun h => (List.forall_mem_cons.mp h).2) le_rfl
      exact ⟨alone, behind, leaves_inside alone behind⟩
    | escape body' hm' hbody' =>
      have behind (body hm hbody) :
          Leaves (pieceBytes (.escape body hm hbody :: .escape body' hm' hbody' :: ps) ++ [0])
            (SingleBytes (.escape body hm hbody :: .escape body' hm' hbody' :: ps))
            (leastCounted (.escape body hm hbody :: .escape body' hm' hbody' :: ps)) := by
        -- The `ESC` of the second sequence is copied, then the loop is inside of it.
        obtain ⟨out, hstrips, hcount⟩ := ih.inside body' hm' hbody'
        rw [pieceBytes_escape, pieceBytes_escape, leastCounted_adjacent]
        refine ⟨0x1b :: out, .escapeByte hm (by decide) hstrips, fun h => ?_⟩
        have hsecond := List.forall_mem_cons.mp (List.forall_mem_cons.mp h).2
        obtain ⟨n, hn, hle⟩ := hcount hsecond
        exact ⟨n + 1, .single (by decide) (by decide) hn, Nat.succ_le_succ hle⟩
      have alone := ih.behind body' hm' hbody'
      exact ⟨alone, behind, leaves_inside alone behind⟩

theorem strips_separated (ps : List Piece) (h : Separated ps) :
    ∃ out, Strips (pieceBytes ps ++ [0]) out ∧ Counted out (visible ps) := by
  induction ps with
  | nil => exact ⟨[], .nul [], .nil⟩
  | cons p ps ih =>
    cases p with
    | text c hesc hnul =>
      obtain ⟨out, hstrips, hcount⟩ := ih (separated_text.mp h)
      obtain ⟨lead, tail, hc, hann, hlead, hbytes⟩ := encodeChar_bytes hesc hnul
      rw [pieceBytes_text, visible_text, hc]
      exact ⟨lead :: tail ++ out, hstrips.append hbytes, .cons hann hlead hcount⟩
    | escape body hm hbody =>
      rw [pieceBytes_escape, visible_escape]
      cases ps with
      | nil => exact ⟨[], .escapeNul [] hm, .nil⟩
      | cons q ps =>
        cases q with
        | text c hesc hnul =>
          obtain ⟨out, hstrips, hcount⟩ := ih (separated_escape_text.mp h)
          exact ⟨out, hstrips.after_escape hm (head?_text _), hcount⟩
        | escape => exact absurd h not_separated

theorem ne_zero_of_mem {ps : List Piece} {b : UInt8} (h : b ∈ pieceBytes ps) : b ≠ 0 := by
  obtain ⟨p, -, hb⟩ := List.mem_flatMap.mp h
  cases p with
  | text c hesc hnul =>
    obtain ⟨lead, tail, hc, -, -, hbytes⟩ := encodeChar_bytes hesc hnul
    rw [Piece.bytes, hc] at hb
    exact (hbytes b hb).1
  | escape body hm hbody =>
    rintro rfl
    simp only [Piece.bytes, List.mem_cons, List.mem_append, List.not_mem_nil, or_false] at hb
    rcases hb with hb | hb | hb
    · exact absurd hb (by decide)
    · exact hbody hb
    · exact absurd hb (by decide)

theorem stringIn_pieces (ps : List Piece) :
    stringIn (pieceBytes ps ++ [0]) = some (pieceBytes ps) := by
  have hmem : 0 ∈ pieceBytes ps ++ [0] := List.mem_append_right _ List.mem_cons_self
  have hall (b : UInt8) (hb : b ∈ pieceBytes ps) : (b != 0) = true :=
    bne_iff_ne.mpr (ne_zero_of_mem hb)
  rw [(readsWhen_stringIn _).1 hmem, List.takeWhile_append_of_pos hall]
  exact congrArg some (List.append_nil _)

theorem utf8RenderedLength_eq {ps : List Piece} {out : List UInt8}
    (h : Strips (pieceBytes ps ++ [0]) out) :
    utf8RenderedLength (pieceBytes ps ++ [0]) = utf8Strnlen
      (out ++ List.replicate ((pieceBytes ps).length - out.length) 0) out.length := by
  have hlength := h.length_lt
  rw [List.length_append, List.length_singleton] at hlength
  rw [utf8RenderedLength, stringIn_pieces]
  change (stripEscapes (pieceBytes ps).length (pieceBytes ps ++ [0])).bind _ = _
  rw [h.run _ (Nat.le_of_lt_succ hlength)]
  rfl

/-- No read leaves the string, and the length is that of the text where no two sequences are
adjacent. The third part is the converse for sequences of bytes that are counted one by one;
others may swallow as many codepoints as are added. -/
theorem rendered_length_iff (ps : List Piece) :
    (∃ n, utf8RenderedLength (pieceBytes ps ++ [0]) = some n) ∧
    (Separated ps → utf8RenderedLength (pieceBytes ps ++ [0]) = some (visible ps)) ∧
    (SingleBytes ps →
      (utf8RenderedLength (pieceBytes ps ++ [0]) = some (visible ps) ↔ Separated ps)) := by
  have hseparated (h : Separated ps) :
      utf8RenderedLength (pieceBytes ps ++ [0]) = some (visible ps) := by
    obtain ⟨out, hstrips, hcount⟩ := strips_separated ps h
    rw [utf8RenderedLength_eq hstrips]
    exact utf8Strnlen_counted hcount _
  obtain ⟨out, hstrips, hcount⟩ := (piecesLeave ps).alone
  rw [utf8RenderedLength_eq hstrips] at hseparated ⊢
  refine ⟨utf8Strnlen_ends (by simp), hseparated, fun hsingle => ⟨fun heq => ?_, hseparated⟩⟩
  obtain ⟨n, hn, hle⟩ := hcount hsingle
  have hvisible := Option.some.inj ((utf8Strnlen_counted hn _).symm.trans heq)
  by_contra hadjacent
  rw [leastCounted, if_neg hadjacent] at hle
  omega

def boldGreen : List Piece :=
  [.escape [0x5b, 0x31] (by decide) (by decide), .escape [0x5b, 0x33, 0x32] (by decide) (by decide),
   .text 'x' (by decide) (by decide)]

/-- The five bytes of the second sequence are counted with the character. -/
theorem bold_green_miscounted :
    utf8RenderedLength (pieceBytes boldGreen ++ [0]) = some 6 ∧ visible boldGreen = 1 := by
  have hx : encodeChar 'x' = [0x78] := encodeChar_of_lt (by decide)
  have hbytes : pieceBytes boldGreen =
      [0x1b, 0x5b, 0x31, 0x6d, 0x1b, 0x5b, 0x33, 0x32, 0x6d, 0x78] := by
    simp only [pieceBytes, boldGreen, List.flatMap_cons, Piece.bytes, hx]
    rfl
  rw [hbytes]
  exact ⟨by decide, rfl⟩

/-- The prompt of the editor: a color, an arrow, the end of the color, a blank. -/
def arrowPrompt : List Piece :=
  [.escape [0x5b, 0x30, 0x3b, 0x33, 0x32] (by decide) (by decide),
  .text '➜' (by decide) (by decide),
   .escape [0x5b, 0x30] (by decide) (by decide), .text ' ' (by decide) (by decide)]

theorem rendered_length_arrowPrompt :
    utf8RenderedLength (pieceBytes arrowPrompt ++ [0]) = some 2 :=
  (rendered_length_iff arrowPrompt).2.1 (by decide)

end Parcel
