import Parcel.Rfc7748
import Parcel.Montgomery

/-!
# The ladder on points

A turn of the ladder of RFC 7748 takes `n Q` and `(n + 1) Q` to `m Q` and `(m + 1) Q`,
where `m` is `2 n` and the bit of the turn, so the ladder ends in the multiple of the
point that the scalar says.
-/

open Montgomery WeierstrassCurve.Affine

namespace Rfc7748

variable {F : Type*} [Field F] [DecidableEq F] {A a24 : F}

/-- The ladder has come to the multiple `n` of the point. -/
structure Ladder.Reached (Q : (curve A).Point) (n : ℕ) (s : Ladder F) : Prop where
  current : Represents s.x₂ s.z₂ (n • Q)
  next : Represents s.x₃ s.z₃ ((n + 1) • Q)

section

variable (h2 : (2 : F) ≠ 0) (hA : A ^ 2 ≠ 4) (ha24 : 4 * a24 = A - 2)
include h2 hA ha24

theorem Ladder.step_spec {P R : (curve A).Point} {s : Ladder F} {x₁ : F}
    (hP : Represents s.x₂ s.z₂ P) (hR : Represents s.x₃ s.z₃ R)
    (hx₁ : x₁ = uCoordinate (R - P)) (hne : x₁ ≠ 0) :
    Represents (s.step a24 x₁).x₂ (s.step a24 x₁).z₂ (P + P) ∧
      Represents (s.step a24 x₁).x₃ (s.step a24 x₁).z₃ (P + R) := by
  have hdouble := hP.double h2 hA
  have hadd := hP.add h2 hR (hx₁ ▸ hne)
  constructor
  · convert hdouble using 1
    · unfold Ladder.step
      ring
    · unfold Ladder.step
      dsimp only
      linear_combination 4 * s.x₂ ^ 2 * s.z₂ ^ 2 * ha24
  · convert hadd using 1
    · unfold Ladder.step
      ring
    · rw [← hx₁]
      unfold Ladder.step
      ring

theorem Ladder.Reached.turn {Q : (curve A).Point} {n : ℕ} {s : Ladder F}
    (h : s.Reached Q n) (hQ : uCoordinate Q ≠ 0) (bit : Bool) :
    (((s.cswap bit).step a24 (uCoordinate Q)).cswap bit).Reached Q (2 * n + bit.toNat) := by
  cases bit with
  | false =>
    have hdiff : uCoordinate Q = uCoordinate ((n + 1) • Q - n • Q) := by
      rw [succ_nsmul, add_sub_cancel_left]
    obtain ⟨hdouble, hadd⟩ := Ladder.step_spec h2 hA ha24 h.current h.next hdiff hQ
    have hcurrent : (2 * n + false.toNat) • Q = n • Q + n • Q := by
      rw [Bool.toNat_false, add_zero, two_mul, add_nsmul]
    have hnext : (2 * n + false.toNat + 1) • Q = n • Q + (n + 1) • Q := by
      rw [Bool.toNat_false, add_zero, ← add_nsmul]
      congr 1
      ring
    exact ⟨hcurrent ▸ hdouble, hnext ▸ hadd⟩
  | true =>
    -- the points are exchanged, so that their difference is the opposite
    have hdiff : uCoordinate Q = uCoordinate (n • Q - (n + 1) • Q) := by
      rw [succ_nsmul, sub_add_cancel_left, uCoordinate_neg]
    obtain ⟨hdouble, hadd⟩ := Ladder.step_spec h2 hA ha24 (s := s.cswap true) h.next h.current
      hdiff hQ
    have hcurrent : (2 * n + true.toNat) • Q = (n + 1) • Q + n • Q := by
      rw [Bool.toNat_true, ← add_nsmul]
      congr 1
      ring
    have hnext : (2 * n + true.toNat + 1) • Q = (n + 1) • Q + (n + 1) • Q := by
      rw [Bool.toNat_true, ← add_nsmul]
      congr 1
      ring
    exact ⟨hcurrent ▸ hadd, hnext ▸ hdouble⟩

theorem Ladder.Reached.turns {Q : (curve A).Point} (hQ : uCoordinate Q ≠ 0) (k t : ℕ) {n : ℕ}
    {s : Ladder F} (h : s.Reached Q n) :
    (eagerLoop a24 (uCoordinate Q) k.testBit t s).Reached Q (n * 2 ^ t + k % 2 ^ t) := by
  induction t generalizing n s with
  | zero =>
    rw [pow_zero, mul_one, Nat.mod_one, add_zero]
    exact h
  | succ t ih =>
    have hturn := ih (h.turn h2 hA ha24 hQ (k.testBit t))
    have hreached : n * 2 ^ (t + 1) + k % 2 ^ (t + 1) =
        (2 * n + (k.testBit t).toNat) * 2 ^ t + k % 2 ^ t := by
      rw [Nat.mod_pow_succ, Nat.toNat_testBit]
      ring
    rw [hreached]
    exact hturn

end

section

variable {R : Type*} [CommRing R]

theorem step_of_zero (a24 : R) {s : Ladder R} (h : s.x₂ * s.z₂ = 0) :
    (s.step a24 0).z₂ = 0 ∧ (s.step a24 0).z₃ = 0 := by
  have hE : (s.x₂ + s.z₂) ^ 2 - (s.x₂ - s.z₂) ^ 2 = 0 := by linear_combination 4 * h
  unfold Ladder.step
  dsimp only
  rw [hE, zero_mul, zero_mul]
  exact ⟨rfl, rfl⟩

theorem turn_of_zero (a24 : R) (bit : Bool) {s : Ladder R} (h₂ : s.x₂ * s.z₂ = 0)
    (h₃ : s.x₃ * s.z₃ = 0) :
    (((s.cswap bit).step a24 0).cswap bit).z₂ = 0 ∧
      (((s.cswap bit).step a24 0).cswap bit).z₃ = 0 := by
  cases bit with
  | false => exact step_of_zero a24 h₂
  | true => exact (step_of_zero a24 (s := s.cswap true) h₃).symm

theorem eagerLoop_of_zero (a24 : R) (k : ℕ → Bool) (t : ℕ) {s : Ladder R} (h₂ : s.z₂ = 0)
    (h₃ : s.z₃ = 0) : (eagerLoop a24 0 k t s).z₂ = 0 := by
  induction t generalizing s with
  | zero => exact h₂
  | succ t ih =>
    obtain ⟨hz₂, hz₃⟩ := turn_of_zero a24 (k t) (s := s) (by rw [h₂, mul_zero])
      (by rw [h₃, mul_zero])
    exact ih hz₂ hz₃

def Ladder.map {S : Type*} (f : R → S) (s : Ladder R) : Ladder S :=
  ⟨f s.x₂, f s.z₂, f s.x₃, f s.z₃⟩

variable {S : Type*} [CommRing S] (f : R →+* S)

theorem cswap_map (bit : Bool) (s : Ladder R) : (s.cswap bit).map f = (s.map f).cswap bit := by
  cases bit <;> rfl

theorem step_map (a24 x₁ : R) (s : Ladder R) :
    (s.step a24 x₁).map f = (s.map f).step (f a24) (f x₁) := by
  unfold Ladder.step Ladder.map
  simp only [map_add, map_sub, map_mul, map_pow]

theorem eagerLoop_map (a24 x₁ : R) (k : ℕ → Bool) (t : ℕ) (s : Ladder R) :
    (eagerLoop a24 x₁ k t s).map f = eagerLoop (f a24) (f x₁) k t (s.map f) := by
  induction t generalizing s with
  | zero => rfl
  | succ t ih => rw [eagerLoop, ih, cswap_map, step_map, cswap_map, eagerLoop]

end

section

variable (h2 : (2 : F) ≠ 0) (hA : A ^ 2 ≠ 4) (ha24 : 4 * a24 = A - 2)
include h2

theorem nsmul_of_zero {Q : (curve A).Point} (hQ : uCoordinate Q = 0) (n : ℕ) :
    uCoordinate (n • Q) = 0 := by
  have hdouble : Q + Q = 0 := by
    cases Q with
    | zero => rfl
    | some x y h =>
      have hx : x = 0 := hQ
      have hy := (Montgomery.equation_iff x y).mp h.1
      subst hx
      have hy0 : y = 0 := by simpa using hy
      subst hy0
      exact double_of_y_zero h2 h
  have hn : n • Q = 0 ∨ n • Q = Q := by
    induction n with
    | zero => exact Or.inl (zero_nsmul Q)
    | succ n ih =>
      rw [succ_nsmul]
      cases ih with
      | inl h => exact Or.inr (by rw [h, zero_add])
      | inr h => exact Or.inl (by rw [h, hdouble])
  cases hn with
  | inl h =>
    rw [h]
    rfl
  | inr h => rw [h, hQ]

include hA ha24

theorem reached_of_start {Q : (curve A).Point} (hQ : uCoordinate Q ≠ 0) (k t : ℕ) :
    (eagerLoop a24 (uCoordinate Q) k.testBit t ⟨1, 0, uCoordinate Q, 1⟩).Reached Q (k % 2 ^ t) := by
  have hne : Q ≠ 0 := by
    rintro rfl
    exact hQ rfl
  have hstart : (⟨1, 0, uCoordinate Q, 1⟩ : Ladder F).Reached Q 0 := by
    constructor
    · rw [zero_nsmul]
      exact represents_zero
    · rw [zero_add, one_nsmul]
      exact represents_one Q hne
  have hend := hstart.turns h2 hA ha24 hQ k t
  rw [zero_mul, zero_add] at hend
  exact hend

/-- The fraction that the ladder ends in is the u-coordinate of the multiple, for every
point and whatever the scalar. -/
theorem eagerLoop_uCoordinate (Q : (curve A).Point) (k : ℕ) {t : ℕ} (ht : 0 < t) :
    (eagerLoop a24 (uCoordinate Q) k.testBit t ⟨1, 0, uCoordinate Q, 1⟩).x₂ /
        (eagerLoop a24 (uCoordinate Q) k.testBit t ⟨1, 0, uCoordinate Q, 1⟩).z₂ =
      uCoordinate ((k % 2 ^ t) • Q) := by
  by_cases hQ : uCoordinate Q = 0
  · rw [nsmul_of_zero h2 hQ, hQ]
    obtain ⟨t, rfl⟩ := Nat.exists_eq_succ_of_ne_zero ht.ne'
    obtain ⟨hz₂, hz₃⟩ := turn_of_zero a24 (k.testBit t) (s := (⟨1, 0, 0, 1⟩ : Ladder F))
      (mul_zero 1) (zero_mul 1)
    rw [eagerLoop, eagerLoop_of_zero a24 k.testBit t hz₂ hz₃, div_zero]
  · exact (reached_of_start h2 hA ha24 hQ k t).current.div_eq

end

end Rfc7748
