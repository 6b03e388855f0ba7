import Mathlib

/-!
# Byte strings in memory

General facts about fixed-size arrays laid out in a byte string: reading an
array at the front of a region, writing one back, and C strings.
-/

namespace ByteStrings

/-- The first `n` elements of a region, `default` past its end. -/
@[irreducible] def readVec {α : Type*} [Inhabited α] (n : ℕ) (mem : List α) : Vector α n :=
  Vector.ofFn fun k => mem.getD k default

section

variable {α : Type*} [Inhabited α] {n : ℕ}

theorem getElem_readVec (mem : List α) {i : ℕ} (hi : i < n) :
    (readVec n mem)[i] = mem.getD i default := by
  rw [readVec, Vector.getElem_ofFn]

theorem readVec_append (v : Vector α n) (rest : List α) : readVec n (v.toList ++ rest) = v := by
  apply Vector.ext
  intro k hk
  have hlen : k < v.toList.length := by simpa using hk
  simp [readVec, List.getElem?_append_left hlen, hk]

theorem readVec_toList (v : Vector α n) : readVec n v.toList = v := by
  simpa using readVec_append v []

theorem toList_readVec {mem : List α} (h : n ≤ mem.length) :
    (readVec n mem).toList = mem.take n := by
  apply List.ext_getElem
  · simp [h]
  · intro k hk hk'
    have hlt : k < mem.length := by simp at hk; omega
    simp [readVec, hlt]

theorem readVec_append_drop {mem : List α} (h : n ≤ mem.length) :
    (readVec n mem).toList ++ mem.drop n = mem := by
  rw [toList_readVec h, List.take_append_drop]

theorem readVec_append_default (mem : List α) (k : ℕ) :
    readVec n (mem ++ List.replicate k default) = readVec n mem := by
  apply Vector.ext
  intro i hi
  by_cases hmem : i < mem.length
  · simp [readVec, List.getElem?_append_left hmem]
  · have hnone : mem[i]? = none := List.getElem?_eq_none (by omega)
    simp only [readVec, Vector.getElem_ofFn, List.getD_eq_getElem?_getD, hnone, Option.getD_none,
      List.getElem?_append_right (not_lt.mp hmem), List.getElem?_replicate]
    split <;> rfl

theorem toList_readVec_short {mem : List α} (h : mem.length ≤ n) :
    (readVec n mem).toList = mem ++ List.replicate (n - mem.length) default := by
  have hlen : (mem ++ List.replicate (n - mem.length) default).length = n := by
    rw [List.length_append, List.length_replicate]
    omega
  rw [← readVec_append_default mem (n - mem.length), toList_readVec hlen.ge]
  exact List.take_of_length_le hlen.le

theorem readVec_drop_readVec (mem : List α) {offset j : ℕ} (h : offset + j ≤ n) :
    readVec j ((readVec n mem).toList.drop offset) = readVec j (mem.drop offset) := by
  apply Vector.ext
  intro i hi
  have hlt : offset + i < n := by omega
  rw [getElem_readVec, getElem_readVec, List.getD_eq_getElem?_getD, List.getD_eq_getElem?_getD,
    List.getElem?_drop, List.getElem?_drop, Vector.getElem?_toList, Vector.getElem?_eq_getElem hlt,
    getElem_readVec, List.getD_eq_getElem?_getD, Option.getD_some]

end

/-- A list into which copies of `a` are shifted and that stays the same holds
only `a`. -/
theorem eq_of_shift {α : Type*} {a : α} {k : ℕ} (hk : 0 < k) {w rest : List α}
    (h : (List.replicate k a ++ (w ++ rest)).take w.length = w) : ∀ b ∈ w, b = a := by
  have hget (i : ℕ) (hi : i < w.length) : w[i] = a := by
    induction i using Nat.strong_induction_on with
    | _ i ih =>
      have hi' : (List.replicate k a ++ (w ++ rest))[i]? = some w[i] := by
        rw [← List.getElem?_take_of_lt hi, h, List.getElem?_eq_getElem hi]
      by_cases hik : i < k
      · rw [List.getElem?_append_left (by simpa using hik), List.getElem?_replicate,
          if_pos hik] at hi'
        exact (Option.some.inj hi').symm
      · have hlt : i - k < w.length := by omega
        rw [List.getElem?_append_right (by simpa using hik), List.length_replicate,
          List.getElem?_append_left hlt, List.getElem?_eq_getElem hlt] at hi'
        rw [← Option.some.inj hi', ih (i - k) (by omega) hlt]
  intro b hb
  obtain ⟨i, hi, rfl⟩ := List.getElem_of_mem hb
  exact hget i hi

/-- The C string at the front of a region: the bytes before the first NUL, if
the region has one. -/
def cString (mem : List UInt8) : Option (List UInt8) :=
  if 0 ∈ mem then some (mem.takeWhile (· != 0)) else none

def strnlen (s : List UInt8) (maxlen : ℕ) : ℕ := ((s.take maxlen).takeWhile (· != 0)).length

theorem takeWhile_append_zero {t : List UInt8} (ht : 0 ∉ t) (rest : List UInt8) :
    (t ++ 0 :: rest).takeWhile (· != 0) = t := by
  induction t with
  | nil => simp
  | cons b t ih =>
    simp only [List.mem_cons, not_or] at ht
    have hb : (b != 0) = true := by simpa using Ne.symm ht.1
    rw [List.cons_append, List.takeWhile_cons, if_pos hb, ih ht.2]

theorem cString_append_zero {t : List UInt8} (ht : 0 ∉ t) (rest : List UInt8) :
    cString (t ++ 0 :: rest) = some t := by
  simp only [cString, List.mem_append, List.mem_cons, true_or, or_true, ↓reduceIte,
    takeWhile_append_zero ht]

theorem cString_eq_none {t : List UInt8} (ht : 0 ∉ t) : cString t = none := by
  simp [cString, ht]

theorem cString_pad_iff {t : List UInt8} (ht : 0 ∉ t) (k : ℕ) :
    cString (t ++ List.replicate k 0) = some t ↔ k ≠ 0 := by
  cases k with
  | zero =>
    rw [List.replicate_zero, List.append_nil, cString_eq_none ht]
    simp
  | succ k =>
    rw [List.replicate_succ, cString_append_zero ht]
    simp

theorem takeWhile_no_zero {t : List UInt8} (ht : 0 ∉ t) : t.takeWhile (· != 0) = t := by
  rw [List.takeWhile_eq_self_iff]
  intro b hb
  have hne : b ≠ 0 := fun h => ht (h ▸ hb)
  simpa using hne

theorem strnlen_append_zero {t : List UInt8} (ht : 0 ∉ t) (rest : List UInt8) {maxlen : ℕ}
    (h : t.length ≤ maxlen) : strnlen (t ++ 0 :: rest) maxlen = t.length := by
  rcases h.lt_or_eq with hlt | rfl
  · obtain ⟨k, rfl⟩ : ∃ k, maxlen = t.length + (k + 1) := ⟨maxlen - t.length - 1, by omega⟩
    rw [strnlen, List.take_length_add_append, List.take_succ_cons, takeWhile_append_zero ht]
  · rw [strnlen, List.take_left' rfl, takeWhile_no_zero ht]

theorem takeWhile_readVec (mem : List UInt8) {n k : ℕ} (hk : k ≤ n) :
    ((readVec n mem).toList.take k).takeWhile (· != 0) = (mem.take k).takeWhile (· != 0) := by
  have hlong : n ≤ (mem ++ List.replicate n (default : UInt8)).length := by simp
  have hvec : (readVec n mem).toList.take k = mem.take k ++
    List.replicate (min (k - mem.length) n) 0 := by
    rw [← readVec_append_default mem n, toList_readVec hlong, List.take_take, Nat.min_eq_left hk,
      List.take_append, List.take_replicate]
    rfl
  rw [hvec, List.takeWhile_append]
  split
  · rename_i hall
    have htail : (List.replicate (min (k - mem.length) n) (0 : UInt8)).takeWhile (· != 0) = [] := by
      rw [List.takeWhile_replicate]
      rfl
    rw [htail, List.append_nil]
    exact (((List.takeWhile_prefix _).eq_of_length hall)).symm
  · rfl

end ByteStrings
