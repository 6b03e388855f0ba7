import Parcel.X25519Field

/-!
# Encodings of field elements

The function `unpack` reads a number without its highest bit, and `pack` writes the
least residue modulo the prime: one `carry_reduce` already makes digits of all limbs
of a reduced element, and the number of sixteen digits is below three times the prime.
-/

namespace Parcel.X25519
open Radix Finset

def Limbs.Canonical (a : Limbs 16) : Prop := ∀ j, 0 ≤ a.z j ∧ a.z j < 2 ^ 16

section

variable {f : Limbs 16}

theorem Limbs.Canonical.within (hf : f.Canonical) : f.Within (2 ^ 54) := by
  intro j
  have := hf j
  rw [abs_le]
  omega

theorem Limbs.Canonical.bounds (hf : f.Canonical) : 0 ≤ f.value ∧ f.value < 2 ^ 256 := by
  have h := value_bounds (B := 2 ^ 16) (n := 16) (by norm_num) fun j _ => hf j
  rw [← pow_mul] at h
  exact h

theorem carry_reduced (hf : f.Reduced) (i : ℕ) :
    (carry (2 ^ 16) f.z (i + 1) = 0 ∨
      carry (2 ^ 16) f.z (i + 1) = 1 ∧ 2 ^ 16 ≤ f.z 0 ∨
      carry (2 ^ 16) f.z (i + 1) = -1 ∧ f.z 0 < 0) := by
  obtain ⟨h0, hdigits⟩ := hf
  induction i with
  | zero =>
    rw [carry, carry, add_zero]
    omega
  | succ i ih =>
    have hi := hdigits (i + 1) (by omega)
    rw [carry]
    omega

theorem carryReduce_canonical (hf : f.Reduced) : (carryReduce f).Canonical := by
  have hwithin : f.Within (2 ^ 54) := hf.within.mono (by norm_num)
  intro j
  by_cases hj : j = 0
  · have hlow : digit (2 ^ 16) f.z 0 = f.z 0 % 2 ^ 16 := by
      rw [digit, carry, add_zero]
    have hlast : carry (2 ^ 16) f.z 16 = 0 ∨ carry (2 ^ 16) f.z 16 = 1 ∧ 2 ^ 16 ≤ f.z 0 ∨
        carry (2 ^ 16) f.z 16 = -1 ∧ f.z 0 < 0 := carry_reduced hf 15
    obtain ⟨h0, -⟩ := hf
    rw [hj, carryReduce_z hwithin (by omega), if_pos rfl, hlow]
    omega
  · exact (carryReduce_digits f).2 j (by omega)

/-- On digits it does nothing. -/
theorem carryReduce_of_canonical (hf : f.Canonical) :
    (carryReduce f).Canonical ∧ (carryReduce f).value = f.value := by
  have hcarry : carry (2 ^ 16) f.z 16 = 0 :=
    carry_of_digits (n := 16) (fun j _ => hf j) le_rfl
  constructor
  · intro j
    by_cases hj : j < 16
    · rw [carryReduce_z hf.within hj, hcarry, mul_zero, ite_self, add_zero,
        digit_of_digits (fun j _ => hf j) hj]
      exact hf j
    · rw [z_of_le _ (by omega)]
      norm_num
  · rw [carryReduce_value hf.within, hcarry, zero_mul, sub_zero]

end

theorem ofFn_q (a : Limbs 16) : (Vector.ofFn fun i : Fin 16 => a.q i) = a := by
  ext i hi
  rw [Vector.getElem_ofFn, Limbs.q, Vector.getElem?_eq_getElem hi, Option.getD_some]

theorem swap_eq (a b : Limbs 16) (bit : Bool) :
    swap a b (if bit then 1 else 0) = if bit then (b, a) else (a, b) := by
  unfold swap
  cases bit with
  | false =>
    have hmask (i : ℕ) : swapBits a b 0 i = 0 := by
      have hzero : (~~~((0 : UInt8).toUInt64 - 1)).toInt64 = 0 := by decide
      rw [swapBits, hzero, Int64.zero_and]
    rw [if_neg Bool.false_ne_true, if_neg Bool.false_ne_true]
    simp only [hmask, Int64.xor_zero, ofFn_q]
  | true =>
    have hmask (i : ℕ) : swapBits a b 1 i = a.q i ^^^ b.q i := by
      have hones : (~~~((1 : UInt8).toUInt64 - 1)).toInt64 = -1 := by decide
      rw [swapBits, hones, Int64.neg_one_and]
    rw [if_pos rfl, if_pos rfl]
    have hfirst (x y : Int64) : x ^^^ (x ^^^ y) = y := by
      rw [← Int64.xor_assoc, Int64.xor_self, Int64.zero_xor]
    have hsecond (x y : Int64) : y ^^^ (x ^^^ y) = x := by
      rw [Int64.xor_comm x y, hfirst]
    simp only [hmask, hfirst, hsecond, ofFn_q]

/-! ## Subtracting the prime -/

def primeLimb (j : ℕ) : ℤ := if j = 0 then 0xffed else if j = 15 then 0x7fff else 0xffff

theorem primeLimb_value : Radix.value (2 ^ 16) primeLimb 16 = Rfc7748.p := by
  rw [Rfc7748.p]
  simp only [Radix.value, sum_range_succ, range_zero, sum_empty, primeLimb]
  norm_num

theorem primeLimb_bounds (j : ℕ) : 0 ≤ primeLimb j ∧ primeLimb j < 2 ^ 16 := by
  unfold primeLimb
  split
  · norm_num
  · split <;> norm_num

section

variable {f : Limbs 16}

def difference (f : Limbs 16) (j : ℕ) : ℤ := f.z j - primeLimb j

theorem carry_difference (hf : f.Canonical) (i : ℕ) :
    -1 ≤ carry (2 ^ 16) (difference f) i ∧ carry (2 ^ 16) (difference f) i ≤ 0 := by
  induction i with
  | zero =>
    rw [carry]
    norm_num
  | succ i ih =>
    have hi := hf i
    have hp := primeLimb_bounds i
    rw [carry, difference]
    omega

theorem toInt_borrow {x : Int64} (hlow : -2 ^ 16 ≤ x.toInt) (hhigh : x.toInt < 2 ^ 16) :
    (x >>> 16 &&& 1).toInt = -(x.toInt / 2 ^ 16) := by
  rw [toInt_and_mask (k := 1) _ (by decide) rfl, toInt_shiftRight_16]
  omega

theorem borrowStep_z {m : Limbs 16} {i : ℕ} (hf : f.Canonical) (hi : i < 15)
    (hlow : -2 ^ 16 ≤ m.z i) (hhigh : m.z i < 2 ^ 16) :
    (borrowStep f m (i + 1)).z = Function.update (Function.update m.z (i + 1)
      (difference f (i + 1) + m.z i / 2 ^ 16)) i (m.z i % 2 ^ 16) := by
  have hfn := hf (i + 1)
  have hpn := primeLimb_bounds (i + 1)
  have hborrow : (m.q i >>> 16 &&& 1).toInt = -(m.z i / 2 ^ 16) := toInt_borrow hlow hhigh
  have hdim : (if i + 1 = 15 then 0x7fff else 0xffff : Int64).toInt = primeLimb (i + 1) := by
    unfold primeLimb
    rw [if_neg (Nat.succ_ne_zero i)]
    split <;> rfl
  have hsub : (f.q (i + 1) - (if i + 1 = 15 then 0x7fff else 0xffff : Int64)).toInt =
      difference f (i + 1) := by
    have hq : (f.q (i + 1)).toInt = f.z (i + 1) := rfl
    rw [toInt_sub_eq, hdim, hq]
    · rfl
    · rw [hdim, hq, abs_lt]
      omega
  have hnew : (f.q (i + 1) - (if i + 1 = 15 then 0x7fff else 0xffff : Int64) -
      (m.q i >>> 16 &&& 1)).toInt = difference f (i + 1) + m.z i / 2 ^ 16 := by
    rw [toInt_sub_eq, hsub, hborrow, sub_neg_eq_add]
    rw [hsub, hborrow, difference, abs_lt]
    omega
  have hmask : (m.q i &&& 0xffff).toInt = m.z i % 2 ^ 16 :=
    toInt_and_mask (k := 16) _ (by decide) rfl
  have hkeep (x : Int64) : (m.put (i + 1) x).q i = m.q i := by
    rw [q_put, if_neg (by omega)]
  unfold borrowStep
  dsimp only
  rw [Nat.add_sub_cancel, hkeep, z_put _ (by omega), z_put _ (by omega), hnew, hmask]

/-- The limbs while the loop has borrowed for the first `i`. -/
def borrowing (q : ℕ → ℤ) (i j : ℕ) : ℤ :=
  if j < i then digit (2 ^ 16) q j else if j = i then q j + carry (2 ^ 16) q j else 0

theorem borrowSteps_z (hf : f.Canonical) {i : ℕ} (hi : i ≤ 15) :
    ((List.range' 1 i).foldl (borrowStep f) ((Limbs.zero 16).put 0 (f.q 0 - 0xffed))).z =
      borrowing (difference f) i := by
  induction i with
  | zero =>
    have h0 : (f.q 0 - 0xffed).toInt = difference f 0 := by
      have hz := hf 0
      have hc : (0xffed : Int64).toInt = 0xffed := rfl
      have hq : (f.q 0).toInt = f.z 0 := rfl
      rw [toInt_sub_eq, hc, hq]
      · rfl
      · rw [hc, hq, abs_lt]
        omega
    rw [List.range'_zero, List.foldl_nil, z_put _ (by omega), h0]
    funext j
    rw [Function.update_apply]
    unfold borrowing
    by_cases hj : j = 0
    · rw [if_pos hj, if_neg (by omega), if_pos hj, hj, carry, add_zero]
    · rw [if_neg hj, if_neg (by omega), if_neg hj, z_zero]
  | succ i ih =>
    specialize ih (by omega)
    rw [List.range'_concat, List.foldl_append, List.foldl_cons, List.foldl_nil, one_mul,
      Nat.add_comm 1 i]
    generalize (List.range' 1 i).foldl (borrowStep f) _ = m at ih ⊢
    have hcarry := carry_difference hf i
    have hfi := hf i
    have hpi := primeLimb_bounds i
    have hat : m.z i = difference f i + carry (2 ^ 16) (difference f) i := by
      rw [ih, borrowing, if_neg (by omega), if_pos rfl]
    rw [borrowStep_z hf (by omega) (by rw [hat, difference]; omega)
      (by rw [hat, difference]; omega), hat, ih]
    funext j
    rw [Function.update_apply, Function.update_apply]
    unfold borrowing
    -- the limb before is finished, and this one takes the borrow
    by_cases hcur : j = i
    · rw [if_pos hcur, if_pos (by omega), hcur, digit]
    · by_cases hlast : j = i + 1
      · rw [if_neg hcur, if_pos hlast, if_neg (by omega), if_pos hlast, hlast, carry]
      · rw [if_neg hcur, if_neg hlast, if_neg hcur, if_neg hlast]
        by_cases hlt : j < i
        · rw [if_pos hlt, if_pos (by omega)]
        · rw [if_neg hlt, if_neg (by omega)]

theorem borrow_z (hf : f.Canonical) (j : ℕ) : (borrow f).z j = borrowing (difference f) 15 j :=
  congrFun (borrowSteps_z hf le_rfl) j

theorem difference_value (f : Limbs 16) :
    f.value - Rfc7748.p = Radix.value (2 ^ 16) (digit (2 ^ 16) (difference f)) 16 +
      carry (2 ^ 16) (difference f) 16 * 2 ^ 256 := by
  have hvalue : f.value - Rfc7748.p = Radix.value (2 ^ 16) (difference f) 16 := by
    rw [← primeLimb_value]
    exact value_sub.symm
  rw [hvalue, value_digit, ← pow_mul]

theorem borrow_last (hf : f.Canonical) :
    (borrow f).z 15 = difference f 15 + carry (2 ^ 16) (difference f) 15 := by
  rw [borrow_z hf]
  rfl

theorem swap_bit (hf : f.Canonical) :
    (1 : UInt8) - ((borrow f).q 15 >>> 16 &&& 1).toUInt64.toUInt8 =
      if decide (carry (2 ^ 16) (difference f) 16 = 0) then 1 else 0 := by
  have hcarry : carry (2 ^ 16) (difference f) 16 = (borrow f).z 15 / 2 ^ 16 := by
    rw [borrow_last hf]
    rfl
  have hlast := carry_difference hf 15
  have hf15 := hf 15
  have hp15 := primeLimb_bounds 15
  have hrange := carry_difference hf 16
  have hbit : ((borrow f).q 15 >>> 16 &&& 1).toInt = -carry (2 ^ 16) (difference f) 16 := by
    have hz : ((borrow f).q 15).toInt = (borrow f).z 15 := rfl
    rw [toInt_borrow, hcarry, hz]
    · rw [hz, borrow_last hf, difference]
      omega
    · rw [hz, borrow_last hf, difference]
      omega
  by_cases hzero : carry (2 ^ 16) (difference f) 16 = 0
  · have hq : (borrow f).q 15 >>> 16 &&& 1 = 0 := by
      rw [← Int64.toInt_inj, hbit, hzero]
      rfl
    rw [hq, if_pos (decide_eq_true hzero)]
    rfl
  · have hq : (borrow f).q 15 >>> 16 &&& 1 = 1 := by
      rw [← Int64.toInt_inj, hbit, show carry (2 ^ 16) (difference f) 16 = -1 by omega]
      rfl
    rw [hq, if_neg (by rw [decide_eq_true_iff]; exact hzero)]
    rfl

theorem reduceOnce_spec (hf : f.Canonical) :
    (reduceOnce f).Canonical ∧
      (reduceOnce f).value = if Rfc7748.p ≤ f.value then f.value - Rfc7748.p else f.value := by
  have hvalue := difference_value f
  have hdigits (j : ℕ) : 0 ≤ digit (2 ^ 16) (difference f) j ∧
      digit (2 ^ 16) (difference f) j < 2 ^ 16 :=
    ⟨digit_nonneg (by norm_num) j, digit_lt (by norm_num) j⟩
  -- The digits of the difference bound it, so the last borrow has its sign.
  obtain ⟨hlow, hhigh⟩ := value_bounds (n := 16) (by norm_num) fun j _ => hdigits j
  rw [← pow_mul] at hhigh
  unfold reduceOnce
  dsimp only
  rw [swap_bit hf, swap_eq]
  by_cases hzero : carry (2 ^ 16) (difference f) 16 = 0
  · rw [if_pos (decide_eq_true hzero), if_pos (by omega)]
    have hz (j : ℕ) (hj : j < 16) : (borrow f).z j = digit (2 ^ 16) (difference f) j := by
      by_cases hlt : j < 15
      · rw [borrow_z hf, borrowing, if_pos hlt]
      · -- nothing is borrowed from the last limb, so it is a digit as well
        have hlast : carry (2 ^ 16) (difference f) 16 =
          (difference f 15 + carry (2 ^ 16) (difference f) 15) / 2 ^ 16 := rfl
        rw [show j = 15 by omega, borrow_last hf, digit]
        omega
    constructor
    · intro j
      by_cases hj : j < 16
      · rw [hz j hj]
        exact hdigits j
      · rw [z_of_le _ (by omega)]
        norm_num
    · have hsame : (borrow f).value =
          Radix.value (2 ^ 16) (digit (2 ^ 16) (difference f)) 16 := value_congr hz
      rw [hsame, hvalue, hzero, zero_mul, add_zero]
  · have hone : carry (2 ^ 16) (difference f) 16 = -1 := by
      have := carry_difference hf 16
      omega
    rw [hone] at hvalue
    rw [if_neg (by rw [decide_eq_true_iff]; exact hzero), if_neg (by omega)]
    exact ⟨hf, rfl⟩

theorem reduceTwice_spec (hf : f.Canonical) :
    (reduceOnce (reduceOnce f)).Canonical ∧
      (reduceOnce (reduceOnce f)).value = (f.residue.val : ℤ) := by
  obtain ⟨h₁, hv₁⟩ := reduceOnce_spec hf
  obtain ⟨h₂, hv₂⟩ := reduceOnce_spec h₁
  have hbounds := hf.bounds
  have hp : (Rfc7748.p : ℤ) = 2 ^ 255 - 19 := by
    rw [Rfc7748.p]
    norm_num
  refine ⟨h₂, ?_⟩
  -- A number below 2 ^ 256 holds the prime at most twice.
  rw [Limbs.residue, ZMod.val_intCast, hv₂, hv₁]
  generalize f.value = v at hbounds ⊢
  rw [hp]
  omega

/-! ## Bytes -/

theorem toUInt8_and {x : Int64} {t : ℕ} (hx : x.toInt = t) :
    (x &&& 0xff).toUInt64.toUInt8 = UInt8.ofNat t := by
  have hmask : x &&& 0xff = Int64.ofNat (t % 2 ^ 8) := by
    rw [← Int64.toInt_inj, toInt_and_mask (k := 8) _ (by decide) rfl, hx,
      Int64.toInt_ofNat_of_lt ((Nat.mod_lt _ (by norm_num)).trans (by norm_num))]
    push_cast
    rfl
  rw [hmask]
  show (UInt64.ofNat (t % 2 ^ 8)).toUInt8 = _
  rw [UInt64.toUInt8_ofNat']
  apply UInt8.toNat_inj.mp
  rw [UInt8.toNat_ofNat', UInt8.toNat_ofNat', Nat.mod_mod]

theorem toInt_shiftRight_8 {x : Int64} {t : ℕ} (hx : x.toInt = t) :
    (x >>> 8).toInt = (t / 256 : ℕ) := by
  rw [← Int64.toInt_toBitVec, Int64.toBitVec_shiftRight]
  simp [BitVec.toInt_sshiftRight, Int.shiftRight_eq_div_pow, hx]

theorem ofNat_eq_of_mod {m m' : ℕ} (h : m % 2 ^ 8 = m' % 2 ^ 8) :
    UInt8.ofNat m = UInt8.ofNat m' := by
  apply UInt8.toNat_inj.mp
  rw [UInt8.toNat_ofNat', UInt8.toNat_ofNat', h]

/-- The bytes of a number, least significant byte first. -/
def littleEndian (v : ℕ) : Vector UInt8 32 := Vector.ofFn fun k => UInt8.ofNat (v >>> (8 * k.val))

theorem pack_of_carried (hcarried : (carryReduce (carryReduce (carryReduce f))).Canonical)
    (hresidue : (carryReduce (carryReduce (carryReduce f))).residue = f.residue) :
    pack f = littleEndian f.residue.val := by
  obtain ⟨hcanonical, hvalue⟩ := reduceTwice_spec hcarried
  rw [hresidue] at hvalue
  unfold pack littleEndian
  dsimp only at hcanonical hvalue ⊢
  generalize reduceOnce (reduceOnce (carryReduce (carryReduce (carryReduce f)))) = g
    at hcanonical hvalue ⊢
  generalize f.residue.val = v at hvalue ⊢
  apply congrArg Vector.ofFn
  funext k
  have hk := k.isLt
  -- each limb is two bytes of the value
  have hlimb : (g.q (k.val / 2)).toInt = (v / (2 ^ 16) ^ (k.val / 2) % 2 ^ 16 : ℕ) := by
    have h := digit_eq_div (B := 2 ^ 16) (n := 16) (k := k.val / 2) (by norm_num)
      (fun j _ => hcanonical j) (by omega)
    show g.z (k.val / 2) = _
    rw [h]
    show g.value / _ % _ = _
    rw [hvalue]
    push_cast
    rfl
  rw [Nat.shiftRight_eq_div_pow]
  by_cases heven : k.val % 2 = 0
  · rw [if_pos heven, Int64.shiftRight_zero, toUInt8_and hlimb,
      show 8 * k.val = 16 * (k.val / 2) by omega, pow_mul]
    exact ofNat_eq_of_mod (Nat.mod_mod_of_dvd _ (by norm_num))
  · rw [if_neg heven, toUInt8_and (toInt_shiftRight_8 hlimb),
      show 8 * k.val = 16 * (k.val / 2) + 8 by omega, pow_add, pow_mul, ← Nat.div_div_eq_div_mul]
    apply ofNat_eq_of_mod
    rw [show 2 ^ 16 = 256 * 256 by norm_num, Nat.mod_mul_right_div_self]
    exact Nat.mod_mod _ _

theorem pack_spec (hf : f.Reduced) : pack f = Rfc7748.encodeUCoordinate f.residue := by
  have h₁ := carryReduce_canonical hf
  have h₂ := (carryReduce_of_canonical h₁).1
  have h₃ := (carryReduce_of_canonical h₂).1
  apply pack_of_carried h₃
  rw [carryReduce_residue h₂.within, carryReduce_residue h₁.within,
    carryReduce_residue (hf.within.mono (by norm_num))]

/-- The passes make digits of larger limbs as well: the first of all but the lowest, the
second up to 38, and the third of that. -/
theorem pack_of_within (hf : f.Within (2 ^ 54)) : pack f = littleEndian f.residue.val := by
  obtain ⟨hlowest, hdigits⟩ := carryReduce_digits f
  have h₂ := carryReduce_reduced hlowest hdigits
  apply pack_of_carried (carryReduce_canonical h₂)
  rw [carryReduce_residue (h₂.within.mono (by norm_num)),
    carryReduce_residue (within_of_digits hlowest hdigits), carryReduce_residue hf]

end

def byteAt (src : Vector UInt8 32) (k : ℕ) : ℤ := ((src[k]?.getD 0).toNat : ℤ)

theorem byteAt_bounds (src : Vector UInt8 32) (k : ℕ) : 0 ≤ byteAt src k ∧ byteAt src k < 256 := by
  have h := (src[k]?.getD 0).toNat_lt
  unfold byteAt
  omega

theorem decode_value (l : List UInt8) :
    (Rfc7748.decodeLittleEndian l : ℤ) =
      Radix.value 256 (fun k => ((l[k]?.getD 0).toNat : ℤ)) l.length := by
  induction l with
  | nil => rfl
  | cons b l ih =>
    have hcons : Rfc7748.decodeLittleEndian (b :: l) =
        b.toNat + 256 * Rfc7748.decodeLittleEndian l := rfl
    have hfirst : Radix.value 256 (fun k => (((b :: l)[k]?.getD 0).toNat : ℤ)) 1 = b.toNat := by
      simp [Radix.value]
    rw [hcons, List.length_cons, Nat.add_comm l.length 1, value_split, hfirst, pow_one]
    push_cast
    rw [ih]
    congr 2
    apply value_congr
    intro j _
    rw [Nat.add_comm 1 j, List.getElem?_cons_succ]

theorem decode_bytes (src : Vector UInt8 32) :
    (Rfc7748.decodeLittleEndian src.toList : ℤ) = Radix.value 256 (byteAt src) 32 := by
  rw [decode_value, Vector.length_toList]
  apply value_congr
  intro k _
  rw [Vector.getElem?_toList]
  rfl

theorem shiftLeft_8 (x : Int64) : x <<< 8 = x * 2 ^ 8 := by
  rw [← Int64.toBitVec_inj, Int64.toBitVec_shiftLeft, Int64.toBitVec_mul]
  exact BitVec.shiftLeft_eq_mul_twoPow x.toBitVec 8

theorem toInt_byte (b : UInt8) : b.toUInt64.toInt64.toInt = b.toNat := by
  have hb := b.toNat_lt
  show b.toUInt64.toBitVec.toInt = _
  have hnat : b.toUInt64.toBitVec.toNat = b.toNat := UInt8.toNat_toUInt64 b
  rw [BitVec.toInt_eq_toNat_of_lt (by omega), hnat]

def pairAt (src : Vector UInt8 32) (i : ℕ) : ℤ := byteAt src (2 * i) + 256 * byteAt src (2 * i + 1)

theorem pairAt_bounds (src : Vector UInt8 32) (i : ℕ) :
    0 ≤ pairAt src i ∧ pairAt src i < 2 ^ 16 := by
  have hlow := byteAt_bounds src (2 * i)
  have hhigh := byteAt_bounds src (2 * i + 1)
  unfold pairAt
  omega

theorem unpack_z (src : Vector UInt8 32) {i : ℕ} (hi : i < 16) :
    (unpack src).z i = if i = 15 then pairAt src 15 % 2 ^ 15 else pairAt src i := by
  have hpair (i : ℕ) : ((src[2 * i]?.getD 0).toUInt64.toInt64 +
      (src[2 * i + 1]?.getD 0).toUInt64.toInt64 <<< 8).toInt = pairAt src i := by
    have hlow := byteAt_bounds src (2 * i)
    have hhigh := byteAt_bounds src (2 * i + 1)
    have htwo : (2 ^ 8 : Int64).toInt = 256 := rfl
    have hl : (src[2 * i]?.getD 0).toUInt64.toInt64.toInt = byteAt src (2 * i) := toInt_byte _
    have hh : (src[2 * i + 1]?.getD 0).toUInt64.toInt64.toInt = byteAt src (2 * i + 1) :=
      toInt_byte _
    have hmul : ((src[2 * i + 1]?.getD 0).toUInt64.toInt64 <<< 8).toInt =
        byteAt src (2 * i + 1) * 256 := by
      rw [shiftLeft_8, toInt_mul_eq, hh, htwo]
      rw [hh, htwo, abs_lt]
      omega
    rw [toInt_add_eq, hl, hmul, pairAt, mul_comm (256 : ℤ)]
    rw [hl, hmul, abs_lt]
    omega
  unfold unpack Limbs.z
  dsimp only
  rw [q_put]
  by_cases hlast : i = 15
  · rw [if_pos ⟨hlast.symm, hi⟩, if_pos hlast, toInt_and_mask (k := 15) _ (by decide) rfl, q_ofFn,
      dif_pos (by omega), hpair]
  · rw [if_neg (fun h => hlast h.1.symm), if_neg hlast, q_ofFn, dif_pos hi, hpair]

theorem unpack_value (src : Vector UInt8 32) :
    (unpack src).value = (Rfc7748.decodeLittleEndian src.toList % 2 ^ 255 : ℕ) := by
  have htop (q : ℕ → ℤ) : Radix.value (2 ^ 16) q 16 =
      Radix.value (2 ^ 16) q 15 + q 15 * (2 ^ 16) ^ 15 := value_succ
  have hsame : Radix.value (2 ^ 16) (unpack src).z 15 = Radix.value (2 ^ 16) (pairAt src) 15 := by
    apply value_congr
    intro j hj
    rw [unpack_z src (by omega), if_neg (by omega)]
  have hlast : (unpack src).z 15 = pairAt src 15 % 2 ^ 15 := unpack_z src (by omega)
  have hall : (Rfc7748.decodeLittleEndian src.toList : ℤ) =
    Radix.value (2 ^ 16) (pairAt src) 16 := by
    rw [decode_bytes]
    exact value_pairs (byteAt src) 16
  obtain ⟨hlow, hhigh⟩ := value_bounds (n := 15) (by norm_num) fun j _ => pairAt_bounds src j
  have hpair := pairAt_bounds src 15
  push_cast
  unfold Limbs.value
  rw [hall, htop, htop, hsame, hlast]
  generalize Radix.value (2 ^ 16) (pairAt src) 15 = v at hlow hhigh ⊢
  norm_num at hhigh ⊢
  omega

theorem unpack_reduced (src : Vector UInt8 32) : (unpack src).Reduced := by
  have hz (j : ℕ) : 0 ≤ (unpack src).z j ∧ (unpack src).z j < 2 ^ 16 := by
    by_cases hj : j < 16
    · rw [unpack_z src hj]
      have hpair := pairAt_bounds src j
      split <;> omega
    · rw [z_of_le _ (by omega)]
      norm_num
  have h0 := hz 0
  exact ⟨by omega, fun j _ => hz j⟩

theorem unpack_residue (src : Vector UInt8 32) :
    (unpack src).residue = Rfc7748.decodeUCoordinate src := by
  unfold Limbs.residue Rfc7748.decodeUCoordinate
  rw [unpack_value, Int.cast_natCast]

/-- The encoding of an element with any limbs below `2 ^ 40`, as those of a product are, is that
of its least residue; a string that is read and written again is cleared of bit 255 and reduced. -/
theorem pack_canonical (f : Limbs 16) (hf : ∀ j < 16, |f.z j| < 2 ^ 40) :
    pack f = littleEndian (f.value % (2 ^ 255 - 19)).toNat ∧
      (∀ a b : Limbs 16, ∀ j < 16, |(multiply a b).z j| < 2 ^ 40) ∧
      ∀ s, pack (unpack s) =
        littleEndian (Rfc7748.decodeLittleEndian s.toList % 2 ^ 255 % (2 ^ 255 - 19)) := by
  have hp : (Rfc7748.p : ℤ) = 2 ^ 255 - 19 := by
    rw [Rfc7748.p]
    norm_num
  have hval (g : Limbs 16) : g.residue.val = (g.value % (2 ^ 255 - 19)).toNat := by
    rw [← hp, ← ZMod.val_intCast, Int.toNat_natCast]
    rfl
  refine ⟨?_, ?_, ?_⟩
  · have hwithin : f.Within (2 ^ 54) := by
      intro j
      by_cases hj : j < 16
      · exact (hf j hj).le.trans (by norm_num)
      · rw [z_of_le _ (not_lt.mp hj), abs_zero]
        norm_num
    rw [pack_of_within hwithin, hval]
  · intro a b j _
    calc |(multiply a b).z j| ≤ 2 ^ 16 + 38 := (multiply_reduced a b).within j
      _ < 2 ^ 40 := by norm_num
  · intro s
    have hwithin : (unpack s).Within (2 ^ 54) := (unpack_reduced s).within.mono (by norm_num)
    rw [pack_of_within hwithin, unpack_residue, Rfc7748.decodeUCoordinate, ZMod.val_natCast,
      Rfc7748.p]

def minusOnes : Limbs 16 := Vector.replicate 16 (-1)

theorem pack_canonical_minusOnes :
    (∀ j < 16, |minusOnes.z j| < 2 ^ 40) ∧
      pack minusOnes = littleEndian (minusOnes.value % (2 ^ 255 - 19)).toNat := by
  have hsmall : ∀ j < 16, |minusOnes.z j| < 2 ^ 40 := by decide
  exact ⟨hsmall, (pack_canonical minusOnes hsmall).1⟩

theorem byte_eq (secret : Vector UInt8 32) {k : ℕ} (hk : k < 32) :
    (secret[k]?.getD 0).toNat = Rfc7748.decodeLittleEndian secret.toList / 256 ^ k % 256 := by
  have h := digit_eq_div (B := 256) (n := 32) (by norm_num) (fun j _ => byteAt_bounds secret j) hk
  rw [← decode_bytes] at h
  have hbyte : byteAt secret k = ((secret[k]?.getD 0).toNat : ℤ) := rfl
  rw [hbyte] at h
  exact_mod_cast h

theorem keyBit_eq (secret : Vector UInt8 32) {i : ℕ} (hi : i < 256) :
    keyBit secret i =
      if (Rfc7748.decodeLittleEndian secret.toList).testBit i then 1 else 0 := by
  have hbit (b : UInt8) (r : ℕ) (hr : r < 8) :
      b >>> UInt8.ofNat r &&& 1 = if b.toNat.testBit r then 1 else 0 := by
    apply UInt8.toNat_inj.mp
    have hshift : (UInt8.ofNat r).toNat % 8 = r := by
      rw [UInt8.toNat_ofNat', Nat.mod_eq_of_lt (by omega : r < 2 ^ 8), Nat.mod_eq_of_lt hr]
    rw [UInt8.toNat_and, UInt8.toNat_shiftRight, hshift, UInt8.toNat_one, Nat.and_one_is_mod,
      Nat.shiftRight_eq_div_pow, Nat.testBit_eq_decide_div_mod_eq]
    split <;> simp_all
  have htest : ((secret[i / 8]?.getD 0).toNat).testBit (i % 8) =
      (Rfc7748.decodeLittleEndian secret.toList).testBit i := by
    rw [byte_eq secret (by omega), show 256 = 2 ^ 8 by norm_num, ← pow_mul,
      Nat.testBit_mod_two_pow, decide_eq_true (by omega : i % 8 < 8), Bool.true_and,
      Nat.testBit_div_two_pow, Nat.mod_add_div]
  unfold keyBit
  rw [hbit _ _ (by omega), htest]

end Parcel.X25519
