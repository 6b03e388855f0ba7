import Mathlib.AlgebraicGeometry.EllipticCurve.Affine.Point
import Mathlib.Tactic.LinearCombination
import Mathlib.Tactic.FieldSimp

/-!
# Montgomery curves by their u-coordinates

The curve `y² = x³ + A x² + x` over a field, and the formulas that double a point
and add two points of known difference on fractions of x-coordinates alone.
-/

open WeierstrassCurve.Affine

namespace Montgomery

variable {F : Type*} [Field F] {A : F}

def curve (A : F) : WeierstrassCurve.Affine F := ⟨0, A, 0, 1, 0⟩

theorem equation_iff (x y : F) : (curve A).Equation x y ↔ y ^ 2 = x ^ 3 + A * x ^ 2 + x := by
  rw [WeierstrassCurve.Affine.equation_iff]
  simp only [curve, zero_mul, add_zero, one_mul]

theorem negY_eq (x y : F) : (curve A).negY x y = -y := by
  simp only [WeierstrassCurve.Affine.negY, curve, zero_mul, sub_zero]

theorem four_ne_zero_of_two (h2 : (2 : F) ≠ 0) : (4 : F) ≠ 0 := by
  have h4 : (4 : F) = 2 * 2 := by norm_num
  rw [h4]
  exact mul_ne_zero h2 h2

theorem eq_negY_iff (h2 : (2 : F) ≠ 0) (x y : F) : y = (curve A).negY x y ↔ y = 0 := by
  rw [negY_eq]
  constructor
  · intro h
    have hy : 2 * y = 0 := by linear_combination h
    exact (mul_eq_zero.mp hy).resolve_left h2
  · rintro rfl
    exact neg_zero.symm

theorem cubic_separable (hA : A ^ 2 ≠ 4) {x : F} (h : x ^ 3 + A * x ^ 2 + x = 0) :
    3 * x ^ 2 + 2 * A * x + 1 ≠ 0 := by
  intro hd
  have hx : x ≠ 0 := by
    rintro rfl
    simp at hd
  have hq : x ^ 2 + A * x + 1 = 0 := by
    apply mul_left_cancel₀ hx
    linear_combination h
  have hAx : A = -2 * x := by
    apply mul_left_cancel₀ hx
    linear_combination hd - hq
  apply hA
  rw [hAx] at hq ⊢
  linear_combination -4 * hq

theorem nonsingular (h2 : (2 : F) ≠ 0) (hA : A ^ 2 ≠ 4) {x y : F}
    (h : y ^ 2 = x ^ 3 + A * x ^ 2 + x) : (curve A).Nonsingular x y := by
  rw [nonsingular_iff]
  refine ⟨(equation_iff x y).mpr h, ?_⟩
  by_cases hy : y = 0
  · left
    rw [hy] at h
    have hd := cubic_separable hA (x := x) (by linear_combination -h)
    simpa [curve] using hd.symm
  · right
    exact mt (eq_negY_iff h2 x y).mp hy

theorem sq_ne_one_of_root (hA : A ^ 2 ≠ 4) {x : F} (h : x ^ 3 + A * x ^ 2 + x = 0) :
    x ^ 2 ≠ 1 := by
  intro hx
  have hAx : A = -2 * x := by linear_combination h - (x + A) * hx
  apply hA
  rw [hAx]
  linear_combination 4 * hx

def uCoordinate : (curve A).Point → F
  | .zero => 0
  | .some x _ _ => x

/-- The fraction `X / Z` is the x-coordinate of the point, infinity that of the point at
infinity. -/
def Represents (X Z : F) : (curve A).Point → Prop
  | .zero => X ≠ 0 ∧ Z = 0
  | .some x _ _ => Z ≠ 0 ∧ X = x * Z

theorem Represents.div_eq {X Z : F} {P : (curve A).Point} (h : Represents X Z P) :
    X / Z = uCoordinate P := by
  cases P with
  | zero =>
    rw [h.2, div_zero]
    rfl
  | some x y hxy =>
    rw [h.2, mul_div_cancel_right₀ x h.1]
    rfl

theorem represents_one (P : (curve A).Point) (hP : P ≠ 0) : Represents (uCoordinate P) 1 P := by
  cases P with
  | zero => exact absurd rfl hP
  | some x y hxy => exact ⟨one_ne_zero, (mul_one x).symm⟩

theorem Represents.eq_zero {X : F} {P : (curve A).Point} (h : Represents X 0 P) : P = 0 := by
  cases P with
  | zero => rfl
  | some x y hxy => exact absurd rfl h.1

theorem represents_zero : Represents 1 0 (0 : (curve A).Point) := ⟨one_ne_zero, rfl⟩

theorem uCoordinate_neg (P : (curve A).Point) : uCoordinate (-P) = uCoordinate P := by
  cases P <;> rfl

section

variable [DecidableEq F] (h2 : (2 : F) ≠ 0) (hA : A ^ 2 ≠ 4)
include h2

theorem double_some {x y : F} (h : (curve A).Nonsingular x y) (hy : y ≠ 0) :
    ∃ x' y' h', Point.some x y h + Point.some x y h = Point.some x' y' h' ∧
      4 * y ^ 2 * x' = (x ^ 2 - 1) ^ 2 := by
  have hne : y ≠ (curve A).negY x y := mt (eq_negY_iff h2 x y).mp hy
  refine ⟨_, _, _, Point.add_self_of_Y_ne hne, ?_⟩
  have hcurve := (equation_iff x y).mp h.1
  have hslope : (curve A).slope x x y y = (3 * x ^ 2 + 2 * A * x + 1) / (2 * y) := by
    rw [slope_of_Y_ne rfl hne, negY_eq]
    simp only [curve, zero_mul, sub_zero]
    ring
  have h2y : 2 * y ≠ 0 := mul_ne_zero h2 hy
  have hx : (2 * y) ^ 2 * (curve A).addX x x ((curve A).slope x x y y) =
      (3 * x ^ 2 + 2 * A * x + 1) ^ 2 - (2 * y) ^ 2 * (A + 2 * x) := by
    rw [hslope, addX]
    simp only [curve, zero_mul, add_zero]
    field_simp
    ring
  linear_combination hx - (4 * A + 8 * x) * hcurve

theorem double_of_y_zero {x : F} (h : (curve A).Nonsingular x 0) :
    Point.some x 0 h + Point.some x 0 h = 0 :=
  Point.add_self_of_Y_eq ((eq_negY_iff h2 x 0).mpr rfl)

include hA in
theorem Represents.double {X Z : F} {P : (curve A).Point} (h : Represents X Z P) :
    Represents ((X ^ 2 - Z ^ 2) ^ 2) (4 * X * Z * (X ^ 2 + A * X * Z + Z ^ 2)) (P + P) := by
  cases P with
  | zero =>
    obtain ⟨hX, rfl⟩ := h
    refine ⟨?_, by ring⟩
    simpa using hX
  | some x y hxy =>
    obtain ⟨hZ, rfl⟩ := h
    have hcurve := (equation_iff x y).mp hxy.1
    have hz : 4 * (x * Z) * Z * ((x * Z) ^ 2 + A * (x * Z) * Z + Z ^ 2) = 4 * y ^ 2 * Z ^ 4 := by
      rw [hcurve]
      ring
    rw [hz]
    by_cases hy : y = 0
    · subst hy
      rw [double_of_y_zero h2 hxy]
      have hx : x ^ 2 ≠ 1 := sq_ne_one_of_root hA (by linear_combination -hcurve)
      have hX : ((x * Z) ^ 2 - Z ^ 2) ^ 2 = ((x ^ 2 - 1) * Z ^ 2) ^ 2 := by ring
      refine ⟨?_, by ring⟩
      rw [hX]
      exact pow_ne_zero 2 (mul_ne_zero (sub_ne_zero.mpr hx) (pow_ne_zero 2 hZ))
    · obtain ⟨x', y', h', hsum, hx'⟩ := double_some h2 hxy hy
      rw [hsum]
      have h4 := four_ne_zero_of_two h2
      refine ⟨mul_ne_zero (mul_ne_zero h4 (pow_ne_zero 2 hy)) (pow_ne_zero 4 hZ), ?_⟩
      linear_combination -Z ^ 4 * hx'

omit h2 in
theorem sum_difference_some {x₁ y₁ x₂ y₂ : F} (h₁ : (curve A).Nonsingular x₁ y₁)
    (h₂ : (curve A).Nonsingular x₂ y₂) (hx : x₁ ≠ x₂) :
    ∃ x y h x' y' h', Point.some x₁ y₁ h₁ + Point.some x₂ y₂ h₂ = Point.some x y h ∧
      Point.some x₂ y₂ h₂ - Point.some x₁ y₁ h₁ = Point.some x' y' h' ∧
      x * x' * (x₁ - x₂) ^ 2 = (x₁ * x₂ - 1) ^ 2 := by
  have hd : x₁ - x₂ ≠ 0 := sub_ne_zero.mpr hx
  have hadd := @Point.add_of_X_ne _ _ _ _ x₁ x₂ y₁ y₂ h₁ h₂ hx
  have hneg : Point.some x₂ y₂ h₂ - Point.some x₁ y₁ h₁ =
      -Point.some x₁ y₁ h₁ + Point.some x₂ y₂ h₂ := by abel
  rw [Point.neg_some, Point.add_of_X_ne hx] at hneg
  refine ⟨_, _, _, _, _, _, hadd, hneg, ?_⟩
  have hc₁ := (equation_iff x₁ y₁).mp h₁.1
  have hc₂ := (equation_iff x₂ y₂).mp h₂.1
  rw [slope_of_X_ne hx, slope_of_X_ne hx, negY_eq, addX, addX]
  simp only [curve, zero_mul, add_zero]
  -- both numerators as the slopes leave them
  have hs : ((y₁ - y₂) / (x₁ - x₂)) ^ 2 - A - x₁ - x₂ =
      ((y₁ - y₂) ^ 2 - (A + x₁ + x₂) * (x₁ - x₂) ^ 2) / (x₁ - x₂) ^ 2 := by
    field_simp
    ring
  have hs' : ((-y₁ - y₂) / (x₁ - x₂)) ^ 2 - A - x₁ - x₂ =
      ((y₁ + y₂) ^ 2 - (A + x₁ + x₂) * (x₁ - x₂) ^ 2) / (x₁ - x₂) ^ 2 := by
    field_simp
    ring
  have hprod : ((y₁ - y₂) ^ 2 - (A + x₁ + x₂) * (x₁ - x₂) ^ 2) *
      ((y₁ + y₂) ^ 2 - (A + x₁ + x₂) * (x₁ - x₂) ^ 2) =
        (x₁ * x₂ - 1) ^ 2 * (x₁ - x₂) ^ 2 := by
    calc _ = (y₁ ^ 2 - y₂ ^ 2) ^ 2 - 2 * ((A + x₁ + x₂) * (x₁ - x₂) ^ 2) * (y₁ ^ 2 + y₂ ^ 2) +
          ((A + x₁ + x₂) * (x₁ - x₂) ^ 2) ^ 2 := by ring
      _ = _ := by
        rw [hc₁, hc₂]
        ring
  rw [hs, hs', div_mul_div_comm, hprod]
  field_simp

/-- The sum of two points from their fractions and the x-coordinate of their difference. -/
theorem Represents.add {X Z X' Z' : F} {P R : (curve A).Point} (hP : Represents X Z P)
    (hR : Represents X' Z' R) (hQ : uCoordinate (R - P) ≠ 0) :
    Represents (4 * (X * X' - Z * Z') ^ 2) (uCoordinate (R - P) * (4 * (X * Z' - Z * X') ^ 2))
      (P + R) := by
  have h4 := four_ne_zero_of_two h2
  -- the infinite point has its own projective coordinates, so it is split off on both sides
  cases P with
  | zero =>
    rw [← Point.zero_def, sub_zero] at hQ ⊢
    rw [zero_add]
    cases R with
    | zero => exact absurd rfl hQ
    | some x y h =>
      obtain ⟨hX, rfl⟩ := hP
      obtain ⟨hZ', rfl⟩ := hR
      have hz : 4 * (X * Z' - 0 * (x * Z')) ^ 2 = 4 * (X * Z') ^ 2 := by ring
      rw [hz]
      refine ⟨mul_ne_zero hQ (mul_ne_zero h4 (pow_ne_zero 2 (mul_ne_zero hX hZ'))), ?_⟩
      unfold uCoordinate
      ring
  | some x₁ y₁ h₁ =>
    obtain ⟨hZ, rfl⟩ := hP
    cases R with
    | zero =>
      rw [← Point.zero_def, zero_sub, uCoordinate_neg] at hQ ⊢
      rw [add_zero]
      obtain ⟨hX', rfl⟩ := hR
      have hz : 4 * (x₁ * Z * 0 - Z * X') ^ 2 = 4 * (Z * X') ^ 2 := by ring
      rw [hz]
      refine ⟨mul_ne_zero hQ (mul_ne_zero h4 (pow_ne_zero 2 (mul_ne_zero hZ hX'))), ?_⟩
      unfold uCoordinate
      ring
    | some x₂ y₂ h₂ =>
      obtain ⟨hZ', rfl⟩ := hR
      have hX : 4 * (x₁ * Z * (x₂ * Z') - Z * Z') ^ 2 = 4 * (Z * Z') ^ 2 * (x₁ * x₂ - 1) ^ 2 := by
        ring
      have hz : 4 * (x₁ * Z * Z' - Z * (x₂ * Z')) ^ 2 = 4 * (Z * Z') ^ 2 * (x₁ - x₂) ^ 2 := by
        ring
      have hc : 4 * (Z * Z') ^ 2 ≠ 0 := mul_ne_zero h4 (pow_ne_zero 2 (mul_ne_zero hZ hZ'))
      rw [hX, hz]
      by_cases hx : x₁ = x₂
      · -- the points are opposite, as their difference is not infinity
        subst hx
        have hne : Point.some x₁ y₁ h₁ ≠ Point.some x₁ y₂ h₂ := by
          intro heq
          rw [heq, sub_self] at hQ
          exact hQ rfl
        have hneg : Point.some x₁ y₁ h₁ = -Point.some x₁ y₂ h₂ :=
          (Point.X_eq_iff.mp rfl).resolve_left hne
        rw [hneg, sub_neg_eq_add] at hQ
        rw [hneg, neg_add_cancel]
        have hy : y₂ ≠ 0 := by
          rintro rfl
          rw [double_of_y_zero h2 h₂] at hQ
          exact hQ rfl
        obtain ⟨x', y', h', hsum, hx'⟩ := double_some h2 h₂ hy
        rw [hsum] at hQ
        have hroot : (x₁ ^ 2 - 1) ^ 2 ≠ 0 := by
          rw [← hx']
          exact mul_ne_zero (mul_ne_zero h4 (pow_ne_zero 2 hy)) hQ
        rw [sub_self, ← sq x₁]
        exact ⟨mul_ne_zero hc hroot, by ring⟩
      · obtain ⟨x, y, h, x', y', h', hsum, hdiff, hprod⟩ := sum_difference_some h₁ h₂ hx
        rw [hdiff] at hQ ⊢
        rw [hsum]
        refine ⟨mul_ne_zero hQ (mul_ne_zero hc (pow_ne_zero 2 (sub_ne_zero.mpr hx))), ?_⟩
        unfold uCoordinate
        linear_combination -(4 * (Z * Z') ^ 2) * hprod

end

end Montgomery
