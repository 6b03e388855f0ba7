import Mathlib.NumberTheory.LucasPrimality
import Mathlib.Data.List.Prime
import Mathlib.Tactic.Ring

/-!
# Large primes by their primitive roots

Lucas's test with the powers computed by repeated squaring, so that the kernel can
evaluate it.
-/

namespace Lucas

/-- The power `a ^ n` modulo `m`, by squaring the power of half the exponent. -/
def powMod (a m : ℕ) : ℕ → ℕ → ℕ
  | 0, _ => 1 % m
  | bits + 1, n =>
    let s := powMod a m bits (n / 2)
    if n % 2 = 1 then s * s * a % m else s * s % m

theorem powMod_eq (a m : ℕ) {bits n : ℕ} (hn : n < 2 ^ bits) : powMod a m bits n = a ^ n % m := by
  induction bits generalizing n with
  | zero =>
    have hzero : n = 0 := by simpa using hn
    rw [hzero, pow_zero, powMod]
  | succ bits ih =>
    rw [powMod, ih (by omega)]
    split
    · have hodd : n = n / 2 + n / 2 + 1 := by omega
      conv_rhs => rw [hodd, pow_succ, pow_add]
      rw [Nat.mul_mod, ← Nat.mul_mod (a ^ (n / 2)), ← Nat.mul_mod]
    · have heven : n = n / 2 + n / 2 := by omega
      conv_rhs => rw [heven, pow_add]
      rw [← Nat.mul_mod]

/-- What is left to evaluate: the factors make `p - 1`, and the order of `a` divides
`p - 1` but none of the quotients. -/
def IsRoot (bits p a : ℕ) (factors : List ℕ) : Prop :=
  1 < p ∧ p ≤ 2 ^ bits ∧ factors.prod = p - 1 ∧ powMod a p bits (p - 1) = 1 ∧
    ∀ q ∈ factors, powMod a p bits ((p - 1) / q) ≠ 1

instance (bits p a : ℕ) (factors : List ℕ) : Decidable (IsRoot bits p a factors) :=
  inferInstanceAs (Decidable (_ ∧ _ ∧ _ ∧ _ ∧ _))

theorem IsRoot.prime {bits p a : ℕ} {factors : List ℕ} (h : IsRoot bits p a factors)
    (hprime : factors.Forall Nat.Prime) : p.Prime := by
  obtain ⟨hp, hbits, hprod, hone, hquotients⟩ := h
  rw [List.forall_iff_forall_mem] at hprime
  have hpow {n : ℕ} (hn : n ≤ p - 1) : (a : ZMod p) ^ n = 1 ↔ powMod a p bits n = 1 := by
    rw [powMod_eq a p (by omega), ← Nat.cast_pow, ← Nat.cast_one, ZMod.natCast_eq_natCast_iff',
      Nat.mod_eq_of_lt hp]
  apply lucas_primality p a ((hpow le_rfl).mpr hone)
  intro q hq hdvd
  rw [← hprod, hq.prime.dvd_prod_iff] at hdvd
  obtain ⟨r, hr, hqr⟩ := hdvd
  rw [(Nat.prime_dvd_prime_iff_eq hq (hprime r hr)).mp hqr]
  exact mt (hpow (Nat.div_le_self _ _)).mp (hquotients r hr)

end Lucas
