import Mathlib

/-!
# Numbers in a radix

Sequences of integers as the limbs of a number in a radix `B`. Limbs need not be
digits: carrying turns them into digits, from the lowest limb on, and leaves a
last carry.
-/

namespace Radix
open Finset

variable {B : ℤ} {q r : ℕ → ℤ} {n k : ℕ}

/-- The number of the first `n` limbs. -/
def value (B : ℤ) (q : ℕ → ℤ) (n : ℕ) : ℤ := ∑ j ∈ range n, q j * B ^ j

def carry (B : ℤ) (q : ℕ → ℤ) : ℕ → ℤ
  | 0 => 0
  | i + 1 => (q i + carry B q i) / B

def digit (B : ℤ) (q : ℕ → ℤ) (i : ℕ) : ℤ := (q i + carry B q i) % B

theorem value_congr (h : ∀ j < n, q j = r j) : value B q n = value B r n := by
  apply sum_congr rfl
  intro j hj
  rw [h j (mem_range.mp hj)]

theorem value_succ : value B q (n + 1) = value B q n + q n * B ^ n := sum_range_succ _ n

theorem value_add : value B (fun j => q j + r j) n = value B q n + value B r n := by
  unfold value
  rw [← sum_add_distrib]
  apply sum_congr rfl
  intro j _
  ring

theorem value_sub : value B (fun j => q j - r j) n = value B q n - value B r n := by
  unfold value
  rw [← sum_sub_distrib]
  apply sum_congr rfl
  intro j _
  ring

theorem value_const_mul (c : ℤ) : value B (fun j => c * q j) n = c * value B q n := by
  unfold value
  rw [mul_sum]
  apply sum_congr rfl
  intro j _
  ring

theorem value_zero : value B (fun _ => 0) n = 0 := by
  apply sum_eq_zero
  intro j _
  ring

theorem value_update (x : ℤ) (hk : k < n) :
    value B (Function.update q k x) n = value B q n + (x - q k) * B ^ k := by
  have hmem : k ∈ range n := mem_range.mpr hk
  have hrest : ∑ j ∈ (range n).erase k, Function.update q k x j * B ^ j =
      ∑ j ∈ (range n).erase k, q j * B ^ j := by
    apply sum_congr rfl
    intro j hj
    rw [Function.update_of_ne (ne_of_mem_erase hj)]
  unfold value
  rw [← add_sum_erase _ _ hmem, ← add_sum_erase _ _ hmem, hrest, Function.update_self]
  ring

theorem value_split (m : ℕ) :
    value B q (n + m) = value B q n + B ^ n * value B (fun j => q (n + j)) m := by
  unfold value
  rw [sum_range_add, mul_sum]
  congr 1
  apply sum_congr rfl
  intro j _
  rw [pow_add]
  ring

theorem value_mul (m : ℕ) :
    value B q n * value B r m = ∑ i ∈ range n, ∑ j ∈ range m, q i * r j * B ^ (i + j) := by
  unfold value
  rw [sum_mul_sum]
  apply sum_congr rfl
  intro i _
  apply sum_congr rfl
  intro j _
  rw [pow_add]
  ring

theorem value_pairs (q : ℕ → ℤ) (m : ℕ) :
    value B q (2 * m) = value (B ^ 2) (fun i => q (2 * i) + B * q (2 * i + 1)) m := by
  induction m with
  | zero => rfl
  | succ m ih =>
    rw [Nat.mul_succ, value_succ, value_succ, value_succ, ih, ← pow_mul, pow_succ]
    ring

theorem value_digit (B : ℤ) (q : ℕ → ℤ) (n : ℕ) :
    value B q n = value B (digit B q) n + carry B q n * B ^ n := by
  induction n with
  | zero => simp [value, carry]
  | succ n ih =>
    have hdiv := Int.emod_add_mul_ediv (q n + carry B q n) B
    rw [value_succ, value_succ, ih, carry, digit, pow_succ]
    linear_combination -B ^ n * hdiv

theorem digit_nonneg (hB : 0 < B) (i : ℕ) : 0 ≤ digit B q i := Int.emod_nonneg _ hB.ne'

theorem digit_lt (hB : 0 < B) (i : ℕ) : digit B q i < B := Int.emod_lt_of_pos _ hB

theorem value_bounds (hB : 0 < B) (hq : ∀ j < n, 0 ≤ q j ∧ q j < B) :
    0 ≤ value B q n ∧ value B q n < B ^ n := by
  induction n with
  | zero => simp [value]
  | succ n ih =>
    obtain ⟨hlow, hhigh⟩ := ih fun j hj => hq j (by omega)
    obtain ⟨hzero, hlt⟩ := hq n (by omega)
    have hpow : 0 < B ^ n := pow_pos hB n
    rw [value_succ, pow_succ]
    constructor
    · positivity
    · have hle : q n * B ^ n ≤ (B - 1) * B ^ n := by
        apply mul_le_mul_of_nonneg_right _ hpow.le
        omega
      linarith [hle]

theorem carry_of_digits (hq : ∀ j < n, 0 ≤ q j ∧ q j < B) {i : ℕ} (hi : i ≤ n) :
    carry B q i = 0 := by
  induction i with
  | zero => rfl
  | succ i ih =>
    obtain ⟨hzero, hlt⟩ := hq i (by omega)
    rw [carry, ih (by omega), add_zero]
    exact Int.ediv_eq_zero_of_lt hzero hlt

theorem digit_of_digits (hq : ∀ j < n, 0 ≤ q j ∧ q j < B) {i : ℕ} (hi : i < n) :
    digit B q i = q i := by
  obtain ⟨hzero, hlt⟩ := hq i hi
  rw [digit, carry_of_digits hq hi.le, add_zero]
  exact Int.emod_eq_of_lt hzero hlt

theorem digit_eq_div (hB : 0 < B) (hq : ∀ j < n, 0 ≤ q j ∧ q j < B) (hk : k < n) :
    q k = value B q n / B ^ k % B := by
  obtain ⟨m, rfl⟩ := Nat.exists_eq_add_of_lt hk
  have hpow : 0 < B ^ k := pow_pos hB k
  obtain ⟨hlow, hhigh⟩ := value_bounds (n := k) hB fun j hj => hq j (by omega)
  obtain ⟨hzero, hlt⟩ := hq k hk
  have hsplit : value B q (k + m + 1) =
      value B q k + B ^ k * (q k + B * value B (fun j => q (k + 1 + j)) m) := by
    rw [show k + m + 1 = k + 1 + m by ring, value_split, value_succ, pow_succ]
    ring
  rw [hsplit, Int.add_mul_ediv_left _ _ hpow.ne', Int.ediv_eq_zero_of_lt hlow hhigh, zero_add,
    Int.add_mul_emod_self_left, Int.emod_eq_of_lt hzero hlt]

end Radix
