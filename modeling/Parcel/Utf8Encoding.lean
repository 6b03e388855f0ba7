import Mathlib

/-!
# Bytes of an encoded text

The UTF-8 encoding of a character is a lead byte, which announces the number of bytes,
and continuation bytes. So a text can be read from both ends: forward by the lead byte,
backward over the continuation bytes.
-/

namespace Utf8Encoding

def isContinuation (b : UInt8) : Bool := b &&& 0xc0 == 0x80

def announced (b : UInt8) : ℕ :=
  if b &&& 0xf8 = 0xf0 then 4
  else if b &&& 0xf0 = 0xe0 then 3
  else if b &&& 0xe0 = 0xc0 then 2
  else 1

abbrev encodeChar (c : Char) : List UInt8 := String.utf8EncodeChar c

def encode (cs : List Char) : List UInt8 := cs.flatMap encodeChar

@[simp] theorem encode_nil : encode [] = [] := rfl

@[simp] theorem encode_cons (c : Char) (cs : List Char) :
    encode (c :: cs) = encodeChar c ++ encode cs := rfl

@[simp] theorem encode_append (cs ds : List Char) : encode (cs ++ ds) = encode cs ++ encode ds :=
  List.flatMap_append

theorem encode_singleton (c : Char) : encode [c] = encodeChar c := List.append_nil _

theorem isContinuation_tail (v : ℕ) : isContinuation (UInt8.ofNat (v % 64 + 128)) := by
  have h : ∀ x < 64, isContinuation (UInt8.ofNat (x + 128)) := by decide +kernel
  exact h _ (Nat.mod_lt _ (by decide))

theorem payload_tail (v : ℕ) : (UInt8.ofNat (v % 64 + 128) &&& 0x3f).toNat = v % 64 := by
  have h : ∀ x < 64, (UInt8.ofNat (x + 128) &&& 0x3f).toNat = x := by decide +kernel
  exact h _ (Nat.mod_lt _ (by decide))

theorem announced_one : ∀ v ≤ 127, announced (UInt8.ofNat v) = 1 ∧
    isContinuation (UInt8.ofNat v) = false ∧ (UInt8.ofNat v).toNat = v ∧
    UInt8.ofNat v ≤ 0xf4 := by
  decide +kernel

theorem announced_two : ∀ v < 32, announced (UInt8.ofNat (v + 192)) = 2 ∧
    isContinuation (UInt8.ofNat (v + 192)) = false ∧
    (UInt8.ofNat (v + 192) &&& 0x1f).toNat = v ∧ UInt8.ofNat (v + 192) ≤ 0xf4 := by
  decide +kernel

theorem announced_three : ∀ v < 16, announced (UInt8.ofNat (v + 224)) = 3 ∧
    isContinuation (UInt8.ofNat (v + 224)) = false ∧
    (UInt8.ofNat (v + 224) &&& 0x0f).toNat = v ∧ UInt8.ofNat (v + 224) ≤ 0xf4 := by
  decide +kernel

theorem announced_four : ∀ v < 5, announced (UInt8.ofNat (v + 240)) = 4 ∧
    isContinuation (UInt8.ofNat (v + 240)) = false ∧
    (UInt8.ofNat (v + 240) &&& 0x07).toNat = v ∧ UInt8.ofNat (v + 240) ≤ 0xf4 := by
  decide +kernel

/-- A lead byte, then the continuation bytes that it announces. -/
structure WellFormed (lead : UInt8) (tail : List UInt8) : Prop where
  announced_eq : announced lead = tail.length + 1
  lead_not : isContinuation lead = false
  tail_all : ∀ b ∈ tail, isContinuation b = true
  lead_le : lead ≤ 0xf4

theorem val_lt (c : Char) : c.val.toNat < 1114112 := by
  rcases c.valid with h | h
  · exact h.trans (by decide)
  · exact h.2

theorem quotient_lt (c : Char) : c.val.toNat / 262144 % 8 < 5 := by
  have := val_lt c
  omega

theorem exists_wellFormed (c : Char) : ∃ lead tail,
    encodeChar c = lead :: tail ∧ WellFormed lead tail := by
  unfold encodeChar
  fun_cases String.utf8EncodeChar c with
  | case1 v h =>
    obtain ⟨h1, h2, -, h3⟩ := announced_one v h
    exact ⟨_, _, rfl, h1, h2, List.forall_mem_nil _, h3⟩
  | case2 v =>
    obtain ⟨h1, h2, -, h3⟩ := announced_two (v / 64 % 32) (Nat.mod_lt _ (by decide))
    refine ⟨_, _, rfl, h1, h2, ?_, h3⟩
    simp only [List.forall_mem_cons, isContinuation_tail, true_and]
    exact List.forall_mem_nil _
  | case3 v =>
    obtain ⟨h1, h2, -, h3⟩ := announced_three (v / 4096 % 16) (Nat.mod_lt _ (by decide))
    refine ⟨_, _, rfl, h1, h2, ?_, h3⟩
    simp only [List.forall_mem_cons, isContinuation_tail, true_and]
    exact List.forall_mem_nil _
  | case4 v =>
    obtain ⟨h1, h2, -, h3⟩ := announced_four (v / 262144 % 8) (quotient_lt c)
    refine ⟨_, _, rfl, h1, h2, ?_, h3⟩
    simp only [List.forall_mem_cons, isContinuation_tail, true_and]
    exact List.forall_mem_nil _

theorem WellFormed.unique {c : Char} {lead : UInt8} {tail : List UInt8}
    (h : encodeChar c = lead :: tail) : WellFormed lead tail := by
  obtain ⟨lead', tail', h', hwf⟩ := exists_wellFormed c
  obtain ⟨rfl, rfl⟩ := List.cons.inj (h.symm.trans h')
  exact hwf

/-- A lead byte and the bytes that it announces; they need not encode a character. -/
structure ByteSeq where
  lead : UInt8
  tail : List UInt8
  wellFormed : WellFormed lead tail

def ByteSeq.bytes (s : ByteSeq) : List UInt8 := s.lead :: s.tail

theorem announced_of_lt {b : UInt8} (h : b.toNat < 128) : announced b = 1 := by
  have h1 := (announced_one b.toNat (by omega)).1
  rwa [UInt8.ofNat_toNat] at h1

theorem encodeChar_of_lt {c : Char} (h : c.toNat < 128) :
    encodeChar c = [UInt8.ofNat c.toNat] := by
  have hle : c.val.toNat ≤ 127 := Nat.le_of_lt_succ h
  rw [encodeChar, String.utf8EncodeChar, if_pos hle]
  rfl

theorem lead_eq_iff {c d : Char} (hd : d.toNat < 128) {lead : UInt8} {tail : List UInt8}
    (h : encodeChar c = lead :: tail) : lead = UInt8.ofNat d.toNat ↔ c = d := by
  constructor
  · rintro rfl
    have hlead : (UInt8.ofNat d.toNat).toNat = d.toNat := by
      rw [UInt8.toNat_ofNat', Nat.mod_eq_of_lt (by omega)]
    -- The lead byte announces no more bytes, so it is the whole encoding.
    have hsize : c.utf8Size = 1 := by
      have hann := (WellFormed.unique h).announced_eq
      rw [announced_of_lt (by omega)] at hann
      rw [← String.length_utf8EncodeChar, ← encodeChar, h, List.length_cons]
      exact hann.symm
    have hc : c.toNat < 128 := by
      have := Char.utf8Size_eq_one_iff.mp hsize
      rw [UInt32.le_iff_toNat_le] at this
      exact Nat.lt_succ_of_le this
    rw [encodeChar_of_lt hc] at h
    have hval := congrArg UInt8.toNat (List.cons.inj h).1
    rw [hlead, UInt8.toNat_ofNat', Nat.mod_eq_of_lt (by omega)] at hval
    exact Char.toNat_inj.mp hval
  · rintro rfl
    rw [encodeChar_of_lt hd] at h
    exact (List.cons.inj h).1.symm

end Utf8Encoding
