import Parcel.ByteStrings

/-!
# Reads of a bounded region

Reads that give `none` once they leave the region: one byte, a copy, and the two
scans for a NUL. Each has the exact condition under which it stays inside and the
value it then has.
-/

namespace BoundedReads
open ByteStrings

def byteAt (mem : List UInt8) (i : ℕ) : Option UInt8 := mem[i]?

/-- The function `memcpy` from an offset; a copy of no bytes reads nothing. -/
def copyAt (mem : List UInt8) (offset n : ℕ) : Option (List UInt8) :=
  if n = 0 ∨ offset + n ≤ mem.length then some ((mem.drop offset).take n) else none

/-- A `memcpy` into the region. -/
def writeAt (mem : List UInt8) (offset : ℕ) (bytes : List UInt8) : Option (List UInt8) :=
  if offset + bytes.length ≤ mem.length then
    some (mem.take offset ++ (bytes ++ mem.drop (offset + bytes.length)))
  else none

def subWithin (a b : ℕ) : Option ℕ := if b ≤ a then some (a - b) else none

/-- The function `strnlen`, byte by byte. -/
def strnlenIn : List UInt8 → ℕ → Option ℕ
  | _, 0 => some 0
  | [], _ + 1 => none
  | b :: mem, n + 1 => if b = 0 then some 0 else (strnlenIn mem n).map (· + 1)

def stringIn : List UInt8 → Option (List UInt8)
  | [] => none
  | b :: mem => if b = 0 then some [] else (stringIn mem).map (b :: ·)

/-- A string of at most `max` bytes at `offset` ends inside the region. -/
def StringWithin (mem : List UInt8) (offset max : ℕ) : Prop :=
  offset + max ≤ mem.length ∨ 0 ∈ mem.drop offset

instance (mem : List UInt8) (offset max : ℕ) : Decidable (StringWithin mem offset max) :=
  inferInstanceAs (Decidable (_ ∨ _))

/-- The reads of `x` stay inside exactly when `P` holds, and then give `a`. -/
def ReadsWhen {α : Type} (x : Option α) (P : Prop) (a : α) : Prop :=
  (P → x = some a) ∧ (¬P → x = none)

namespace ReadsWhen

variable {α β : Type} {x y : Option α} {P Q : Prop} {a b : α}

theorem isSome_iff (h : ReadsWhen x P a) : x.isSome ↔ P := by
  by_cases hP : P
  · rw [h.1 hP]
    simp [hP]
  · rw [h.2 hP]
    simp [hP]

protected theorem congr (h : ReadsWhen x P a) (hPQ : P ↔ Q) (hab : P → a = b) :
    ReadsWhen x Q b := by
  constructor
  · intro hQ
    rw [h.1 (hPQ.mpr hQ), hab (hPQ.mpr hQ)]
  · intro hQ
    exact h.2 fun hP => hQ (hPQ.mp hP)

protected theorem pure (a : α) : ReadsWhen (pure a) True a :=
  ⟨fun _ => rfl, fun h => absurd trivial h⟩

protected theorem bind {f : α → Option β} {c : β} (hx : ReadsWhen x P a)
    (hf : P → ReadsWhen (f a) Q c) : ReadsWhen (x >>= f) (P ∧ Q) c := by
  constructor
  · rintro ⟨hP, hQ⟩
    rw [hx.1 hP]
    exact (hf hP).1 hQ
  · intro hPQ
    by_cases hP : P
    · rw [hx.1 hP]
      exact (hf hP).2 fun hQ => hPQ ⟨hP, hQ⟩
    · rw [hx.2 hP]
      rfl

protected theorem map (f : α → β) (hx : ReadsWhen x P a) : ReadsWhen (x.map f) P (f a) := by
  constructor
  · intro hP
    rw [hx.1 hP, Option.map_some]
  · intro hP
    rw [hx.2 hP, Option.map_none]

protected theorem guard {c : Prop} [Decidable c] (a : α) :
    ReadsWhen (if c then pure a else none) c a :=
  ⟨fun h => if_pos h, fun h => if_neg h⟩

protected theorem ite {c : Prop} [Decidable c] (hx : c → ReadsWhen x P a)
    (hy : ¬c → ReadsWhen y Q b) :
    ReadsWhen (if c then x else y) ((c → P) ∧ (¬c → Q)) (if c then a else b) := by
  by_cases hc : c
  · rw [if_pos hc, if_pos hc]
    exact (hx hc).congr (by simp [hc]) fun _ => rfl
  · rw [if_neg hc, if_neg hc]
    exact (hy hc).congr (by simp [hc]) fun _ => rfl

end ReadsWhen

theorem readsWhen_getElem? {α : Type} (table : List α) (i : ℕ) (d : α) :
    ReadsWhen table[i]? (i < table.length) (table.getD i d) := by
  constructor
  · intro h
    rw [List.getD_eq_getElem _ _ h, List.getElem?_eq_getElem h]
  · intro h
    exact List.getElem?_eq_none (not_lt.mp h)

theorem readsWhen_byteAt (mem : List UInt8) (i : ℕ) :
    ReadsWhen (byteAt mem i) (i < mem.length) (mem.getD i 0) := readsWhen_getElem? mem i 0

theorem copyAt_eq {mem : List UInt8} {offset n : ℕ} (h : offset + n ≤ mem.length) :
    copyAt mem offset n = some ((mem.drop offset).take n) := if_pos (Or.inr h)

theorem readsWhen_copyAt (mem : List UInt8) (offset : ℕ) {n : ℕ} (hn : n ≠ 0) :
    ReadsWhen (copyAt mem offset n) (offset + n ≤ mem.length) ((mem.drop offset).take n) := by
  constructor
  · exact copyAt_eq
  · intro h
    rw [copyAt, if_neg (not_or.mpr ⟨hn, h⟩)]

theorem exists_writeAt (mem bytes : List UInt8) (offset : ℕ)
    (h : offset + bytes.length ≤ mem.length) :
    ∃ mem', writeAt mem offset bytes = some mem' ∧ mem'.length = mem.length ∧
      mem'.take offset = mem.take offset ∧
      mem'.drop offset = bytes ++ mem.drop (offset + bytes.length) := by
  have hlen : (mem.take offset).length = offset := List.length_take_of_le (by omega)
  refine ⟨_, if_pos h, ?_, ?_, ?_⟩
  · simp only [List.length_append, List.length_drop, hlen]
    omega
  · exact List.take_left' hlen
  · exact List.drop_left' hlen

theorem writeAt_eq_none {mem bytes : List UInt8} {offset : ℕ}
    (h : mem.length < offset + bytes.length) : writeAt mem offset bytes = none :=
  if_neg (not_le.mpr h)

theorem strnlenIn_eq (mem : List UInt8) (max : ℕ) :
    strnlenIn mem max = if max ≤ mem.length ∨ 0 ∈ mem then some (strnlen mem max) else none := by
  induction mem generalizing max with
  | nil =>
    cases max with
    | zero => rfl
    | succ max => simp [strnlenIn]
  | cons b mem ih =>
    cases max with
    | zero => simp [strnlenIn, strnlen]
    | succ max =>
      by_cases hb : b = 0
      · simp [strnlenIn, strnlen, hb]
      · have hb' : (b != 0) = true := by simpa using hb
        have hmem : (0 ∈ b :: mem) ↔ 0 ∈ mem := by simp [Ne.symm hb]
        rw [strnlenIn, if_neg hb, ih]
        simp only [List.length_cons, Nat.add_le_add_iff_right, hmem]
        split
        · simp [strnlen, hb']
        · rfl

theorem stringIn_eq (mem : List UInt8) : stringIn mem = cString mem := by
  induction mem with
  | nil => rfl
  | cons b mem ih =>
    by_cases hb : b = 0
    · simp [stringIn, cString, hb]
    · have hb' : (b != 0) = true := by simpa using hb
      rw [stringIn, if_neg hb, ih, cString, cString]
      simp only [List.mem_cons, Ne.symm hb, false_or, List.takeWhile_cons, hb', ↓reduceIte]
      split <;> rfl

theorem take_strnlen (s : List UInt8) (n : ℕ) :
    s.take (strnlen s n) = (s.take n).takeWhile (· != 0) := by
  have hpre := List.takeWhile_prefix (l := s.take n) (· != 0)
  rw [List.prefix_iff_eq_take] at hpre
  have hle : strnlen s n ≤ n :=
    ((List.takeWhile_sublist _).length_le).trans (List.length_take_le n s)
  rw [hpre, List.take_take, ← strnlen, Nat.min_eq_left hle]

/-- The string in an array of `max` bytes. -/
def fieldString (mem : List UInt8) (offset max : ℕ) : List UInt8 :=
  ((mem.drop offset).take max).takeWhile (· != 0)

def fieldAt (mem : List UInt8) (offset max : ℕ) : Option (List UInt8) := do
  let len ← strnlenIn (mem.drop offset) max
  copyAt mem offset len

theorem strnlen_le_length (s : List UInt8) (n : ℕ) : strnlen s n ≤ s.length :=
  ((List.takeWhile_sublist _).length_le).trans (List.length_take_le' n s)

theorem readsWhen_fieldAt (mem : List UInt8) (offset : ℕ) {max : ℕ} (hmax : 0 < max) :
    ReadsWhen (fieldAt mem offset max) (StringWithin mem offset max)
      (fieldString mem offset max) := by
  have hscan : ReadsWhen (strnlenIn (mem.drop offset) max) (StringWithin mem offset max)
      (strnlen (mem.drop offset) max) := by
    have hiff : (max ≤ (mem.drop offset).length ∨ 0 ∈ mem.drop offset) ↔
        StringWithin mem offset max := by
      rw [StringWithin, List.length_drop]
      apply or_congr_left
      omega
    rw [strnlenIn_eq]
    simp only [hiff]
    exact ⟨fun h => if_pos h, fun h => if_neg h⟩
  have hcopy : copyAt mem offset (strnlen (mem.drop offset) max) =
      some (fieldString mem offset max) := by
    have hle := strnlen_le_length (mem.drop offset) max
    rw [List.length_drop] at hle
    rw [copyAt, if_pos (by omega), take_strnlen, fieldString]
  have hread := hscan.bind (f := fun len => copyAt mem offset len) fun _ =>
    ⟨fun _ => hcopy, fun h => absurd trivial h⟩
  exact hread.congr (by simp) fun _ => rfl

theorem readsWhen_stringIn (mem : List UInt8) :
    ReadsWhen (stringIn mem) (0 ∈ mem) (mem.takeWhile (· != 0)) := by
  rw [stringIn_eq]
  exact ⟨fun h => if_pos h, fun h => if_neg h⟩

theorem StringWithin.lt_length {mem : List UInt8} {offset max : ℕ} (hmax : 0 < max)
    (h : StringWithin mem offset max) : offset < mem.length := by
  rcases h with h | h
  · omega
  · have hpos := List.length_pos_of_mem h
    rw [List.length_drop] at hpos
    omega

theorem fieldString_eq_nil_iff {mem : List UInt8} {offset max : ℕ} (hmax : 0 < max)
    (h : StringWithin mem offset max) :
    fieldString mem offset max = [] ↔ mem.getD offset 0 = 0 := by
  have hlt := h.lt_length hmax
  obtain ⟨max, rfl⟩ : ∃ k, max = k + 1 := ⟨max - 1, by omega⟩
  rw [fieldString, List.drop_eq_getElem_cons hlt, List.take_succ_cons, List.takeWhile_cons,
    List.getD_eq_getElem _ _ hlt]
  split
  · rename_i hb
    simpa using hb
  · rename_i hb
    simpa using hb

end BoundedReads
