import Parcel.Radix
import Parcel.Rfc7748
import Parcel.X25519

/-!
# Field arithmetic on limbs

The operations of `x25519.c` as arithmetic modulo the prime. The limbs of a product
are digits but for the lowest, which is off by at most 38; a sum or difference of two
such elements can be multiplied again, and no operation overflows.
-/

namespace Parcel.X25519
open Radix Finset

variable {n : ℕ}

def Limbs.z (a : Limbs n) (i : ℕ) : ℤ := (a.q i).toInt

def Limbs.value (a : Limbs 16) : ℤ := Radix.value (2 ^ 16) a.z 16

def Limbs.residue (a : Limbs 16) : ZMod Rfc7748.p := (a.value : ZMod Rfc7748.p)

def Limbs.Within (a : Limbs n) (bound : ℤ) : Prop := ∀ j, |a.z j| ≤ bound

/-- What `multiply` returns. -/
def Limbs.Reduced (a : Limbs 16) : Prop :=
  (-38 ≤ a.z 0 ∧ a.z 0 < 2 ^ 16 + 38) ∧ ∀ j, 1 ≤ j → 0 ≤ a.z j ∧ a.z j < 2 ^ 16

theorem wrap_eq {x : ℤ} (h : |x| < 2 ^ 63) : x.bmod (2 ^ 64) = x := by
  rw [abs_lt] at h
  rw [Int.bmod_eq_of_le] <;> omega

theorem toInt_add_eq {x y : Int64} (h : |x.toInt + y.toInt| < 2 ^ 63) :
    (x + y).toInt = x.toInt + y.toInt := by
  rw [Int64.toInt_add, wrap_eq h]

theorem toInt_sub_eq {x y : Int64} (h : |x.toInt - y.toInt| < 2 ^ 63) :
    (x - y).toInt = x.toInt - y.toInt := by
  rw [Int64.toInt_sub, wrap_eq h]

theorem toInt_mul_eq {x y : Int64} (h : |x.toInt * y.toInt| < 2 ^ 63) :
    (x * y).toInt = x.toInt * y.toInt := by
  rw [Int64.toInt_mul, wrap_eq h]

theorem toInt_shiftRight_16 (x : Int64) : (x >>> 16).toInt = x.toInt / 2 ^ 16 := by
  rw [← Int64.toInt_toBitVec, Int64.toBitVec_shiftRight]
  simp [BitVec.toInt_sshiftRight, Int.shiftRight_eq_div_pow]

theorem shiftLeft_16 (x : Int64) : x <<< 16 = x * 2 ^ 16 := by
  rw [← Int64.toBitVec_inj, Int64.toBitVec_shiftLeft, Int64.toBitVec_mul]
  exact BitVec.shiftLeft_eq_mul_twoPow x.toBitVec 16

theorem toInt_low (x : Int64) : (x - x >>> 16 <<< 16).toInt = x.toInt % 2 ^ 16 := by
  have hmin := x.le_toInt
  have hmax := x.toInt_lt
  have htwo : (2 ^ 16 : Int64).toInt = 2 ^ 16 := rfl
  have hshift : (x >>> 16 <<< 16).toInt = x.toInt / 2 ^ 16 * 2 ^ 16 := by
    rw [shiftLeft_16, Int64.toInt_mul, toInt_shiftRight_16, htwo, Int.bmod_eq_of_le] <;> omega
  rw [toInt_sub_eq, hshift]
  · omega
  · rw [hshift, abs_lt]
    omega

theorem toInt_and_mask (x : Int64) {m : Int64} {k : ℕ} (hk : k < 63)
    (hm : m.toBitVec.toNat = 2 ^ k - 1) : (x &&& m).toInt = x.toInt % 2 ^ k := by
  have hnat : (x.toBitVec &&& m.toBitVec).toNat = x.toBitVec.toNat % 2 ^ k := by
    rw [BitVec.toNat_and, hm, Nat.and_two_pow_sub_one_eq_mod]
  have hlt : x.toBitVec.toNat % 2 ^ k < 2 ^ 63 :=
    (Nat.mod_lt _ (by positivity)).trans (Nat.pow_lt_pow_right (by decide) hk)
  have hdvd : (2 ^ k : ℤ) ∣ ((2 ^ 64 : ℕ) : ℤ) := by
    have hpow : 2 ^ k ∣ 2 ^ 64 := pow_dvd_pow 2 (by omega)
    exact_mod_cast hpow
  have hx : x.toInt % 2 ^ k = (x.toBitVec.toNat : ℤ) % 2 ^ k := by
    rw [← Int64.toInt_toBitVec, BitVec.toInt_eq_toNat_bmod, ← Int.emod_emod_of_dvd _ hdvd,
      Int.bmod_emod, Int.emod_emod_of_dvd _ hdvd]
  rw [hx, ← Int64.toInt_toBitVec, Int64.toBitVec_and, BitVec.toInt_eq_toNat_of_lt (by omega), hnat]
  push_cast
  rfl

section

variable {a b : Limbs n} {i j : ℕ}

theorem q_put (a : Limbs n) (i : ℕ) (x : Int64) (j : ℕ) :
    (a.put i x).q j = if i = j ∧ j < n then x else a.q j := by
  unfold Limbs.put Limbs.q
  rw [Vector.getElem?_setIfInBounds]
  by_cases hij : i = j
  · subst hij
    by_cases hi : i < n
    · rw [if_pos rfl, if_pos hi, if_pos ⟨rfl, hi⟩]
      rfl
    · rw [if_pos rfl, if_neg hi, if_neg (fun h => hi h.2), Vector.getElem?_eq_none (by omega)]
  · rw [if_neg hij, if_neg (fun h => hij h.1)]

theorem z_put (a : Limbs n) {i : ℕ} (hi : i < n) (x : Int64) :
    (a.put i x).z = Function.update a.z i x.toInt := by
  funext j
  unfold Limbs.z
  rw [q_put, Function.update_apply]
  by_cases hij : i = j
  · rw [if_pos ⟨hij, hij ▸ hi⟩, if_pos hij.symm]
  · rw [if_neg (fun h => hij h.1), if_neg (Ne.symm hij)]

theorem q_ofFn (f : Fin n → Int64) (j : ℕ) :
    Limbs.q (Vector.ofFn f) j = if h : j < n then f ⟨j, h⟩ else 0 := by
  unfold Limbs.q
  rw [Vector.getElem?_ofFn]
  split <;> rfl

theorem q_zero (j : ℕ) : (Limbs.zero n).q j = 0 := by
  unfold Limbs.zero Limbs.q
  rw [Vector.getElem?_replicate]
  split <;> rfl

theorem z_of_le (a : Limbs n) (hj : n ≤ j) : a.z j = 0 := by
  unfold Limbs.z Limbs.q
  rw [Vector.getElem?_eq_none hj]
  rfl

theorem z_zero (j : ℕ) : (Limbs.zero n).z j = 0 := by
  unfold Limbs.z
  rw [q_zero]
  rfl

theorem Limbs.Within.mono {bound bound' : ℤ} (h : a.Within bound) (hle : bound ≤ bound') :
    a.Within bound' := fun j => (h j).trans hle

end

/-! ## Carrying -/

theorem carry_le {q : ℕ → ℤ} (hq : ∀ j, |q j| ≤ 2 ^ 54) (i : ℕ) :
    |carry (2 ^ 16) q i| ≤ 2 ^ 39 := by
  induction i with
  | zero =>
    rw [carry]
    norm_num
  | succ i ih =>
    have hqi := hq i
    rw [abs_le] at ih hqi ⊢
    rw [carry]
    omega

theorem carryStep_z {f : Limbs 16} {i : ℕ} (hi : i < 15) (hcur : |f.z i| ≤ 2 ^ 55)
    (hnext : |f.z (i + 1)| ≤ 2 ^ 55) :
    (carryStep f i).z = Function.update (Function.update f.z i (f.z i % 2 ^ 16)) (i + 1)
      (f.z (i + 1) + f.z i / 2 ^ 16) := by
  have hcarry : (f.q i >>> 16).toInt = f.z i / 2 ^ 16 := toInt_shiftRight_16 _
  have hlow : (f.q i - f.q i >>> 16 <<< 16).toInt = f.z i % 2 ^ 16 := toInt_low _
  rw [abs_le] at hcur hnext
  have hsame : (f.put i (f.q i - f.q i >>> 16 <<< 16)).q (i + 1) = f.q (i + 1) := by
    rw [q_put, if_neg (by omega)]
  have hhigh : (f.q (i + 1) + f.q i >>> 16).toInt = f.z (i + 1) + f.z i / 2 ^ 16 := by
    have hz : (f.q (i + 1)).toInt = f.z (i + 1) := rfl
    rw [toInt_add_eq, hcarry, hz]
    rw [hcarry, hz, abs_lt]
    omega
  unfold carryStep
  dsimp only
  rw [if_neg (by omega), hsame, z_put _ (by omega), z_put _ (by omega), hlow, hhigh]

/-- The limbs while the loop has carried out of the first `i`. -/
def carrying (q : ℕ → ℤ) (i j : ℕ) : ℤ :=
  if j < i then digit (2 ^ 16) q j else if j = i then q j + carry (2 ^ 16) q j else q j

theorem carrySteps_z {f : Limbs 16} (hf : f.Within (2 ^ 54)) {i : ℕ} (hi : i ≤ 15) :
    ((List.range i).foldl carryStep f).z = carrying f.z i := by
  induction i with
  | zero =>
    funext j
    unfold carrying
    rw [if_neg (Nat.not_lt_zero j)]
    by_cases hj : j = 0
    · rw [if_pos hj, hj, carry, add_zero]
      rfl
    · rw [if_neg hj]
      rfl
  | succ i ih =>
    specialize ih (by omega)
    rw [List.range_succ, List.foldl_append, List.foldl_cons, List.foldl_nil]
    generalize (List.range i).foldl carryStep f = g at ih ⊢
    have hat : g.z i = f.z i + carry (2 ^ 16) f.z i := by
      rw [ih, carrying, if_neg (by omega), if_pos rfl]
    have hnext : g.z (i + 1) = f.z (i + 1) := by
      rw [ih, carrying, if_neg (by omega), if_neg (by omega)]
    have hcarry := carry_le hf i
    have hfi := hf i
    have hfn := hf (i + 1)
    rw [abs_le] at hcarry hfi hfn
    rw [carryStep_z (by omega) (by rw [hat, abs_le]; omega) (by rw [hnext, abs_le]; omega), hat,
      hnext, ih]
    funext j
    rw [Function.update_apply, Function.update_apply]
    unfold carrying
    by_cases hlast : j = i + 1
    · rw [if_pos hlast, if_neg (by omega), if_pos hlast, hlast, carry]
    · by_cases hcur : j = i
      · rw [if_neg hlast, if_pos hcur, if_pos (by omega), hcur, digit]
      · rw [if_neg hlast, if_neg hcur, if_neg hcur, if_neg hlast]
        by_cases hlt : j < i
        · rw [if_pos hlt, if_pos (by omega)]
        · rw [if_neg hlt, if_neg (by omega)]

theorem carryReduce_z {f : Limbs 16} (hf : f.Within (2 ^ 54)) {j : ℕ} (hj : j < 16) :
    (carryReduce f).z j =
      digit (2 ^ 16) f.z j + if j = 0 then 38 * carry (2 ^ 16) f.z 16 else 0 := by
  have hrun := carrySteps_z hf (i := 15) le_rfl
  unfold carryReduce
  rw [List.range_succ, List.foldl_append, List.foldl_cons, List.foldl_nil]
  generalize (List.range 15).foldl carryStep f = g at hrun ⊢
  -- fifteen steps are the plain carry; the last one wraps around
  have hat : g.z 15 = f.z 15 + carry (2 ^ 16) f.z 15 := by
    rw [hrun]
    rfl
  have hfirst : g.z 0 = digit (2 ^ 16) f.z 0 := by
    rw [hrun]
    rfl
  have hcarry : (g.q 15 >>> 16).toInt = carry (2 ^ 16) f.z 16 := by
    rw [toInt_shiftRight_16]
    show g.z 15 / 2 ^ 16 = _
    rw [hat]
    rfl
  have hbound := carry_le hf 16
  have hbound' := carry_le hf 15
  have hf15 := hf 15
  have hdigit : 0 ≤ digit (2 ^ 16) f.z 0 ∧ digit (2 ^ 16) f.z 0 < 2 ^ 16 :=
    ⟨digit_nonneg (by norm_num) 0, digit_lt (by norm_num) 0⟩
  rw [abs_le] at hbound hbound' hf15
  have hlow : (g.q 15 - g.q 15 >>> 16 <<< 16).toInt = digit (2 ^ 16) f.z 15 := by
    rw [toInt_low, digit, ← hat]
    rfl
  have hprod : ((38 : Int64) * (g.q 15 >>> 16)).toInt = 38 * carry (2 ^ 16) f.z 16 := by
    have hc : (38 : Int64).toInt = 38 := rfl
    rw [toInt_mul_eq, hcarry, hc]
    rw [hcarry, hc, abs_lt]
    omega
  have hsame : (g.put 15 (g.q 15 - g.q 15 >>> 16 <<< 16)).q 0 = g.q 0 := by
    rw [q_put, if_neg (by omega)]
  have hzero : (g.q 0 + (38 : Int64) * (g.q 15 >>> 16)).toInt =
      digit (2 ^ 16) f.z 0 + 38 * carry (2 ^ 16) f.z 16 := by
    have hz : (g.q 0).toInt = digit (2 ^ 16) f.z 0 := hfirst
    rw [toInt_add_eq, hprod, hz]
    rw [hprod, hz, abs_lt]
    omega
  unfold carryStep
  dsimp only
  rw [if_pos rfl, hsame, z_put _ (by omega), z_put _ (by omega), hlow, hzero,
    Function.update_apply, Function.update_apply, hrun]
  unfold carrying
  by_cases hj0 : j = 0
  · rw [if_pos hj0, if_pos hj0, hj0]
  · by_cases hj15 : j = 15
    · rw [if_neg hj0, if_pos hj15, if_neg hj0, hj15, add_zero]
    · rw [if_neg hj0, if_neg hj15, if_pos (by omega), if_neg hj0, add_zero]

theorem carryReduce_value {f : Limbs 16} (hf : f.Within (2 ^ 54)) :
    (carryReduce f).value = f.value - carry (2 ^ 16) f.z 16 * (2 ^ 256 - 38) := by
  have hz : (carryReduce f).value = Radix.value (2 ^ 16)
      (Function.update (digit (2 ^ 16) f.z) 0
        (digit (2 ^ 16) f.z 0 + 38 * carry (2 ^ 16) f.z 16)) 16 := by
    apply value_congr
    intro j hj
    rw [carryReduce_z hf hj, Function.update_apply]
    split
    next h => rw [h]
    · rw [add_zero]
  rw [hz, value_update _ (by omega), Limbs.value, value_digit (2 ^ 16) f.z 16]
  ring

theorem cast_two_pow : ((2 ^ 256 - 38 : ℤ) : ZMod Rfc7748.p) = 0 := by
  have h : (2 ^ 256 - 38 : ℤ) = (2 * Rfc7748.p : ℕ) := by
    rw [Rfc7748.p]
    norm_num
  rw [h, Int.cast_natCast, Nat.cast_mul, ZMod.natCast_self, mul_zero]

theorem carryReduce_residue {f : Limbs 16} (hf : f.Within (2 ^ 54)) :
    (carryReduce f).residue = f.residue := by
  unfold Limbs.residue
  rw [carryReduce_value hf, Int.cast_sub, Int.cast_mul, cast_two_pow, mul_zero, sub_zero]

theorem carryStep_before (f : Limbs 16) {i j : ℕ} (hi : i < 15) (hj : j < i) :
    (carryStep f i).z j = f.z j := by
  unfold carryStep
  dsimp only
  rw [if_neg (by omega), z_put _ (by omega), z_put _ (by omega),
    Function.update_of_ne (by omega), Function.update_of_ne (by omega)]

theorem carryStep_current (f : Limbs 16) {i : ℕ} (hi : i < 15) :
    (carryStep f i).z i = f.z i % 2 ^ 16 := by
  unfold carryStep
  dsimp only
  rw [if_neg (by omega), z_put _ (by omega), z_put _ (by omega),
    Function.update_of_ne (by omega), Function.update_self, toInt_low]
  rfl

/-- The limbs that the loop has been at are digits, whatever the others are. -/
theorem carrySteps_digits (f : Limbs 16) {i j : ℕ} (hi : i ≤ 15) (hj : j < i) :
    0 ≤ ((List.range i).foldl carryStep f).z j ∧
      ((List.range i).foldl carryStep f).z j < 2 ^ 16 := by
  induction i with
  | zero => exact absurd hj (Nat.not_lt_zero j)
  | succ i ih =>
    rw [List.range_succ, List.foldl_append, List.foldl_cons, List.foldl_nil]
    by_cases hlt : j < i
    · rw [carryStep_before _ (by omega) hlt]
      exact ih (by omega) hlt
    · obtain rfl : j = i := by omega
      rw [carryStep_current _ (by omega)]
      exact ⟨Int.emod_nonneg _ (by norm_num), Int.emod_lt_of_pos _ (by norm_num)⟩

/-- After one `carry_reduce` all limbs but the lowest are digits. No sum of the loop that
wraps is in the way, as every limb is cut to sixteen bits after it. -/
theorem carryReduce_digits (f : Limbs 16) :
    |(carryReduce f).z 0| ≤ 2 ^ 53 ∧
      ∀ j, 1 ≤ j → 0 ≤ (carryReduce f).z j ∧ (carryReduce f).z j < 2 ^ 16 := by
  have hdigits (j : ℕ) (hj : j < 15) := carrySteps_digits f le_rfl hj
  unfold carryReduce
  rw [List.range_succ, List.foldl_append, List.foldl_cons, List.foldl_nil]
  generalize (List.range 15).foldl carryStep f = g at hdigits ⊢
  have hmin := (g.q 15).le_toInt
  have hmax := (g.q 15).toInt_lt
  have h38 : (38 : Int64).toInt = 38 := rfl
  have hcarry : ((38 : Int64) * (g.q 15 >>> 16)).toInt = 38 * ((g.q 15).toInt / 2 ^ 16) := by
    rw [toInt_mul_eq, toInt_shiftRight_16, h38]
    rw [toInt_shiftRight_16, h38, abs_lt]
    omega
  have hsame : (g.put 15 (g.q 15 - g.q 15 >>> 16 <<< 16)).q 0 = g.q 0 := by
    rw [q_put, if_neg (by omega)]
  -- the first limb was below 2 ^ 16 before the last carry was added to it
  have hzero := hdigits 0 (by omega)
  have hfirst : (g.q 0 + (38 : Int64) * (g.q 15 >>> 16)).toInt =
      g.z 0 + 38 * ((g.q 15).toInt / 2 ^ 16) := by
    have hz : (g.q 0).toInt = g.z 0 := rfl
    rw [toInt_add_eq, hcarry, hz]
    rw [hcarry, hz, abs_lt]
    omega
  unfold carryStep
  dsimp only
  rw [if_pos rfl, hsame, z_put _ (by omega), z_put _ (by omega), hfirst, toInt_low]
  constructor
  · rw [Function.update_self, abs_le]
    omega
  · intro j hj
    rw [Function.update_of_ne (by omega), Function.update_apply]
    by_cases hlast : j = 15
    · rw [if_pos hlast]
      exact ⟨Int.emod_nonneg _ (by norm_num), Int.emod_lt_of_pos _ (by norm_num)⟩
    · rw [if_neg hlast]
      by_cases hlt : j < 15
      · exact hdigits j hlt
      · rw [z_of_le _ (by omega)]
        norm_num

theorem carry_fades {q : ℕ → ℤ} (h0 : |q 0| ≤ 2 ^ 53)
    (hq : ∀ j, 1 ≤ j → 0 ≤ q j ∧ q j < 2 ^ 16) (i : ℕ) :
    |carry (2 ^ 16) q (i + 4)| ≤ 1 := by
  rw [abs_le] at h0
  induction i with
  | zero =>
    have h1 := hq 1 le_rfl
    have h2 := hq 2 (by omega)
    have h3 := hq 3 (by omega)
    have hc1 : carry (2 ^ 16) q 1 = q 0 / 2 ^ 16 := by
      rw [carry, carry, add_zero]
    rw [carry, carry, carry, hc1, abs_le]
    omega
  | succ i ih =>
    have hi := hq (i + 4) (by omega)
    rw [abs_le] at ih
    rw [carry, abs_le]
    omega

theorem within_of_digits {f : Limbs 16} (h0 : |f.z 0| ≤ 2 ^ 53)
    (hq : ∀ j, 1 ≤ j → 0 ≤ f.z j ∧ f.z j < 2 ^ 16) : f.Within (2 ^ 54) := by
  intro j
  rw [abs_le] at h0 ⊢
  by_cases hj : j = 0
  · rw [hj]
    omega
  · have := hq j (by omega)
    omega

theorem carryReduce_reduced {f : Limbs 16} (h0 : |f.z 0| ≤ 2 ^ 53)
    (hq : ∀ j, 1 ≤ j → 0 ≤ f.z j ∧ f.z j < 2 ^ 16) : (carryReduce f).Reduced := by
  have hf := within_of_digits h0 hq
  refine ⟨?_, (carryReduce_digits f).2⟩
  have hlow : 0 ≤ digit (2 ^ 16) f.z 0 := digit_nonneg (by norm_num) 0
  have hhigh : digit (2 ^ 16) f.z 0 < 2 ^ 16 := digit_lt (by norm_num) 0
  have hcarry : |carry (2 ^ 16) f.z 16| ≤ 1 := carry_fades h0 hq 12
  rw [abs_le] at hcarry
  rw [carryReduce_z hf (by omega), if_pos rfl]
  omega

/-! ## Products -/

section

variable {a b : Limbs 16} {bound : ℤ}

theorem productStep_z {P : Limbs 31} {i j : ℕ} (hij : i + j < 31)
    (ha : a.Within (2 ^ 18)) (hb : b.Within (2 ^ 18)) (hP : P.Within (2 ^ 60)) :
    (productStep a b i P j).z =
      Function.update P.z (i + j) (P.z (i + j) + a.z i * b.z j) ∧ |a.z i * b.z j| ≤ 2 ^ 36 := by
  have hprod : |a.z i * b.z j| ≤ 2 ^ 36 := by
    rw [abs_mul]
    calc |a.z i| * |b.z j| ≤ 2 ^ 18 * 2 ^ 18 := by
          apply mul_le_mul (ha i) (hb j) (abs_nonneg _) (by norm_num)
      _ = 2 ^ 36 := by norm_num
  refine ⟨?_, hprod⟩
  have hPij := hP (i + j)
  rw [abs_le] at hprod hPij
  have hmul : (a.q i * b.q j).toInt = a.z i * b.z j := by
    apply toInt_mul_eq
    show |a.z i * b.z j| < 2 ^ 63
    rw [abs_lt]
    omega
  unfold productStep
  rw [z_put _ hij, toInt_add_eq, hmul]
  · rfl
  · rw [hmul]
    show |P.z (i + j) + a.z i * b.z j| < 2 ^ 63
    rw [abs_lt]
    omega

theorem productSteps (ha : a.Within (2 ^ 18)) (hb : b.Within (2 ^ 18)) {i : ℕ} (hi : i < 16)
    (js : List ℕ) (hjs : ∀ j ∈ js, j < 16) (P : Limbs 31) {bound : ℤ} (hP : P.Within bound)
    (hbound : bound + js.length * 2 ^ 36 ≤ 2 ^ 60) :
    (js.foldl (productStep a b i) P).Within (bound + js.length * 2 ^ 36) ∧
      Radix.value (2 ^ 16) (js.foldl (productStep a b i) P).z 31 =
        Radix.value (2 ^ 16) P.z 31 +
          (js.map fun j => a.z i * b.z j * (2 ^ 16) ^ (i + j)).sum := by
  induction js generalizing P bound with
  | nil =>
    refine ⟨?_, ?_⟩
    · rw [List.length_nil, Nat.cast_zero, zero_mul, add_zero]
      exact hP
    · rw [List.map_nil, List.sum_nil, add_zero]
      rfl
  | cons j js ih =>
    have hj := hjs j List.mem_cons_self
    have hlen := Int.natCast_nonneg js.length
    rw [List.length_cons, Nat.cast_succ] at hbound ⊢
    have hP60 : P.Within (2 ^ 60) := hP.mono (by nlinarith)
    obtain ⟨hz, hprod⟩ := productStep_z (i := i) (j := j) (by omega) ha hb hP60
    have hP' : (productStep a b i P j).Within (bound + 2 ^ 36) := by
      intro k
      rw [hz, Function.update_apply]
      split
      · exact (abs_add_le _ _).trans (add_le_add (hP (i + j)) hprod)
      · exact (hP k).trans (by norm_num)
    obtain ⟨hwithin, hvalue⟩ := ih (fun j hj => hjs j (List.mem_cons_of_mem _ hj)) _ hP'
      (by linarith)
    rw [List.foldl_cons]
    refine ⟨hwithin.mono (by linarith), ?_⟩
    rw [hvalue, hz, value_update _ (by omega), List.map_cons, List.sum_cons]
    ring

theorem productRow_spec (ha : a.Within (2 ^ 18)) (hb : b.Within (2 ^ 18)) {i : ℕ} (hi : i < 16)
    (P : Limbs 31) {bound : ℤ} (hP : P.Within bound) (hbound : bound + 2 ^ 40 ≤ 2 ^ 60) :
    (productRow a b P i).Within (bound + 2 ^ 40) ∧
      Radix.value (2 ^ 16) (productRow a b P i).z 31 = Radix.value (2 ^ 16) P.z 31 +
        ((List.range 16).map fun j => a.z i * b.z j * (2 ^ 16) ^ (i + j)).sum := by
  have hlen : ((List.range 16).length : ℤ) * 2 ^ 36 = 2 ^ 40 := by
    rw [List.length_range]
    norm_num
  have hrow := productSteps ha hb hi (List.range 16) (fun j hj => List.mem_range.mp hj) P hP
    (by rw [hlen]; exact hbound)
  rw [hlen] at hrow
  exact hrow

theorem productRows (ha : a.Within (2 ^ 18)) (hb : b.Within (2 ^ 18)) (is : List ℕ)
    (his : ∀ i ∈ is, i < 16) (P : Limbs 31) {bound : ℤ} (hP : P.Within bound)
    (hbound : bound + is.length * 2 ^ 40 ≤ 2 ^ 60) :
    (is.foldl (productRow a b) P).Within (bound + is.length * 2 ^ 40) ∧
      Radix.value (2 ^ 16) (is.foldl (productRow a b) P).z 31 =
        Radix.value (2 ^ 16) P.z 31 + (is.map fun i =>
          ((List.range 16).map fun j => a.z i * b.z j * (2 ^ 16) ^ (i + j)).sum).sum := by
  induction is generalizing P bound with
  | nil =>
    refine ⟨?_, ?_⟩
    · rw [List.length_nil, Nat.cast_zero, zero_mul, add_zero]
      exact hP
    · rw [List.map_nil, List.sum_nil, add_zero]
      rfl
  | cons i is ih =>
    have hlen := Int.natCast_nonneg is.length
    rw [List.length_cons, Nat.cast_succ] at hbound ⊢
    obtain ⟨hrow, hrowValue⟩ := productRow_spec ha hb (his i List.mem_cons_self) P hP (by nlinarith)
    obtain ⟨hwithin, hvalue⟩ := ih (fun i hi => his i (List.mem_cons_of_mem _ hi)) _ hrow
      (by linarith)
    rw [List.foldl_cons]
    refine ⟨hwithin.mono (by linarith), ?_⟩
    rw [hvalue, hrowValue, List.map_cons, List.sum_cons]
    ring

theorem sum_map_range (f : ℕ → ℤ) (m : ℕ) : ((List.range m).map f).sum = ∑ j ∈ range m, f j := by
  rw [Finset.sum_eq_multiset_sum, ← Multiset.sum_coe]
  rfl

theorem product_spec (ha : a.Within (2 ^ 18)) (hb : b.Within (2 ^ 18)) :
    (product a b).Within (2 ^ 44) ∧
      Radix.value (2 ^ 16) (product a b).z 31 = a.value * b.value := by
  have hzero : (Limbs.zero 31).Within 0 := by
    intro j
    rw [z_zero, abs_zero]
  have hlen : (0 : ℤ) + ((List.range 16).length : ℤ) * 2 ^ 40 = 2 ^ 44 := by
    rw [List.length_range]
    norm_num
  have hrows := productRows ha hb (List.range 16) (fun i hi => List.mem_range.mp hi) (Limbs.zero 31)
    hzero (by rw [hlen]; norm_num)
  rw [hlen] at hrows
  obtain ⟨hwithin, hvalue⟩ := hrows
  refine ⟨hwithin, ?_⟩
  have hstart : Radix.value (2 ^ 16) (Limbs.zero 31).z 31 = 0 := by
    rw [value_congr fun j _ => z_zero j, value_zero]
  unfold Limbs.value product
  rw [hvalue, hstart, zero_add, value_mul, sum_map_range]
  apply sum_congr rfl
  intro i _
  rw [sum_map_range]

/-- The upper limbs are folded into the lower ones as `2 ^ 256` is 38 modulo the prime. -/
theorem foldSteps_z {P : Limbs 31} (hP : P.Within (2 ^ 44)) {i : ℕ} (hi : i ≤ 15) :
    ((List.range i).foldl foldStep P).z =
      fun j => if j < i then P.z j + 38 * P.z (j + 16) else P.z j := by
  induction i with
  | zero => rfl
  | succ i ih =>
    specialize ih (by omega)
    rw [List.range_succ, List.foldl_append, List.foldl_cons, List.foldl_nil]
    generalize (List.range i).foldl foldStep P = Q at ih ⊢
    -- the limbs that step `i` reads are still those of the product
    have hlow : (Q.q i).toInt = P.z i := by
      show Q.z i = _
      rw [ih]
      exact if_neg (lt_irrefl i)
    have hhigh : (Q.q (i + 16)).toInt = P.z (i + 16) := by
      show Q.z (i + 16) = _
      rw [ih]
      exact if_neg (by omega)
    have hPi := hP i
    have hPh := hP (i + 16)
    rw [abs_le] at hPi hPh
    have hmul : ((38 : Int64) * Q.q (i + 16)).toInt = 38 * P.z (i + 16) := by
      have hc : (38 : Int64).toInt = 38 := rfl
      rw [toInt_mul_eq, hhigh, hc]
      rw [hhigh, hc, abs_lt]
      omega
    have hadd : (Q.q i + 38 * Q.q (i + 16)).toInt = P.z i + 38 * P.z (i + 16) := by
      rw [toInt_add_eq, hlow, hmul]
      rw [hlow, hmul, abs_lt]
      omega
    unfold foldStep
    rw [z_put _ (by omega), hadd, ih]
    funext j
    rw [Function.update_apply]
    by_cases hj : j = i
    · rw [if_pos hj, if_pos (by omega), hj]
    · rw [if_neg hj]
      by_cases hlt : j < i
      · rw [if_pos hlt, if_pos (by omega)]
      · rw [if_neg hlt, if_neg (by omega)]

theorem lower_z {P : Limbs 31} (hP : P.Within (2 ^ 44)) (j : ℕ) :
    (lower (foldUpper P)).z j =
      if j < 15 then P.z j + 38 * P.z (16 + j) else if j = 15 then P.z j else 0 := by
  have hz : (foldUpper P).z j = if j < 15 then P.z j + 38 * P.z (j + 16) else P.z j :=
    congrFun (foldSteps_z hP le_rfl) j
  by_cases hj : j < 16
  · have hq : (lower (foldUpper P)).z j = (foldUpper P).z j := by
      unfold lower Limbs.z
      rw [q_ofFn, dif_pos hj]
    rw [hq, hz]
    by_cases hlt : j < 15
    · rw [if_pos hlt, if_pos hlt, Nat.add_comm j 16]
    · rw [if_neg hlt, if_neg hlt, if_pos (by omega)]
  · rw [z_of_le _ (by omega), if_neg (by omega), if_neg (by omega)]

theorem lower_within {P : Limbs 31} (hP : P.Within (2 ^ 44)) :
    (lower (foldUpper P)).Within (2 ^ 54) := by
  intro j
  have hlow := hP j
  have hhigh := hP (16 + j)
  rw [abs_le] at hlow hhigh ⊢
  rw [lower_z hP]
  split
  · omega
  · split <;> omega

theorem lower_value {P : Limbs 31} (hP : P.Within (2 ^ 44)) :
    (lower (foldUpper P)).value = Radix.value (2 ^ 16) P.z 31 -
      (2 ^ 256 - 38) * Radix.value (2 ^ 16) (fun j => P.z (16 + j)) 15 := by
  have hfirst : Radix.value (2 ^ 16) (lower (foldUpper P)).z 15 =
      Radix.value (2 ^ 16) P.z 15 + 38 * Radix.value (2 ^ 16) (fun j => P.z (16 + j)) 15 := by
    rw [← value_const_mul, ← value_add]
    apply value_congr
    intro j hj
    rw [lower_z hP, if_pos hj]
  have hlast : (lower (foldUpper P)).z 15 = P.z 15 := by
    rw [lower_z hP]
    rfl
  have hsplit : Radix.value (2 ^ 16) P.z 31 = Radix.value (2 ^ 16) P.z 16 +
      (2 ^ 16) ^ 16 * Radix.value (2 ^ 16) (fun j => P.z (16 + j)) 15 := value_split 15
  have htop (q : ℕ → ℤ) : Radix.value (2 ^ 16) q 16 =
      Radix.value (2 ^ 16) q 15 + q 15 * (2 ^ 16) ^ 15 := value_succ
  unfold Limbs.value
  rw [hsplit, htop, htop, hfirst, hlast]
  ring

theorem multiply_reduced (a b : Limbs 16) : (multiply a b).Reduced := by
  obtain ⟨hfirst, hdigits⟩ := carryReduce_digits (lower (foldUpper (product a b)))
  exact carryReduce_reduced hfirst hdigits

theorem multiply_spec (ha : a.Within (2 ^ 18)) (hb : b.Within (2 ^ 18)) :
    (multiply a b).Reduced ∧ (multiply a b).residue = a.residue * b.residue := by
  refine ⟨multiply_reduced a b, ?_⟩
  obtain ⟨hP, hvalue⟩ := product_spec ha hb
  have hf := lower_within hP
  have hlower := lower_value hP
  unfold multiply
  generalize lower (foldUpper (product a b)) = f at hf hlower ⊢
  obtain ⟨hfirst, hdigits⟩ := carryReduce_digits f
  rw [carryReduce_residue (within_of_digits hfirst hdigits), carryReduce_residue hf]
  unfold Limbs.residue
  rw [hlower, hvalue, Int.cast_sub, Int.cast_mul, Int.cast_mul, cast_two_pow, zero_mul, sub_zero]

theorem Limbs.Reduced.within (ha : a.Reduced) : a.Within (2 ^ 16 + 38) := by
  obtain ⟨hfirst, hdigits⟩ := ha
  intro j
  rw [abs_le]
  by_cases hj : j = 0
  · rw [hj]
    omega
  · have := hdigits j (by omega)
    omega

theorem Limbs.Reduced.small (ha : a.Reduced) : a.Within (2 ^ 18) := ha.within.mono (by norm_num)

theorem add_z (ha : a.Reduced) (hb : b.Reduced) (j : ℕ) : (add a b).z j = a.z j + b.z j := by
  have haj := ha.within j
  have hbj := hb.within j
  unfold add
  by_cases hj : j < 16
  · rw [Limbs.z, q_ofFn, dif_pos hj]
    apply toInt_add_eq
    show |a.z j + b.z j| < 2 ^ 63
    rw [abs_le] at haj hbj
    rw [abs_lt]
    omega
  · rw [z_of_le _ (by omega), z_of_le _ (by omega), z_of_le _ (by omega), add_zero]

theorem add_spec (ha : a.Reduced) (hb : b.Reduced) :
    (add a b).Within (2 ^ 18) ∧ (add a b).residue = a.residue + b.residue := by
  constructor
  · intro j
    have haj := ha.within j
    have hbj := hb.within j
    rw [abs_le] at haj hbj ⊢
    rw [add_z ha hb]
    omega
  · unfold Limbs.residue Limbs.value
    rw [value_congr fun j _ => add_z ha hb j, value_add, Int.cast_add]

theorem subtract_z (ha : a.Reduced) (hb : b.Reduced) (j : ℕ) :
    (subtract a b).z j = a.z j - b.z j := by
  have haj := ha.within j
  have hbj := hb.within j
  unfold subtract
  by_cases hj : j < 16
  · rw [Limbs.z, q_ofFn, dif_pos hj]
    apply toInt_sub_eq
    show |a.z j - b.z j| < 2 ^ 63
    rw [abs_le] at haj hbj
    rw [abs_lt]
    omega
  · rw [z_of_le _ (by omega), z_of_le _ (by omega), z_of_le _ (by omega), sub_zero]

theorem subtract_spec (ha : a.Reduced) (hb : b.Reduced) :
    (subtract a b).Within (2 ^ 18) ∧ (subtract a b).residue = a.residue - b.residue := by
  constructor
  · intro j
    have haj := ha.within j
    have hbj := hb.within j
    rw [abs_le] at haj hbj ⊢
    rw [subtract_z ha hb]
    omega
  · unfold Limbs.residue Limbs.value
    rw [value_congr fun j _ => subtract_z ha hb j, value_sub, Int.cast_sub]

end

end Parcel.X25519
