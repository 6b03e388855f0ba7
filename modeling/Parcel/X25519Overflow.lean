import Parcel.X25519Reference

/-!
# Overflow in X25519

The functions of `x25519.c` with every sum, difference, product and left shift of limbs
computed as an integer: the result is `none` as soon as one is not strictly inside the
range of `int64_t`. The calls of `multiply` are recorded with their operands. Nothing
overflows, for every secret and every basepoint.
-/

namespace Parcel.X25519
open Radix

/-! ## Checked arithmetic -/

def checked (v : ℤ) : Option Int64 :=
  if -2 ^ 63 < v ∧ v < 2 ^ 63 - 1 then some (Int64.ofInt v) else none

def addChecked (x y : Int64) : Option Int64 := checked (x.toInt + y.toInt)
def subChecked (x y : Int64) : Option Int64 := checked (x.toInt - y.toInt)
def mulChecked (x y : Int64) : Option Int64 := checked (x.toInt * y.toInt)

def collect (f : Fin 16 → Option Int64) : Option (Limbs 16) :=
  if h : ∀ i, (f i).isSome then some (Vector.ofFn fun i => (f i).get (h i)) else none

def carryStepChecked (dst : Limbs 16) (i : ℕ) : Option (Limbs 16) := do
  let carry := dst.q i >>> 16
  let shifted ← mulChecked carry (2 ^ 16)
  let low ← subChecked (dst.q i) shifted
  let dst := dst.put i low
  if i = 15 then
    let multiple ← mulChecked 38 carry
    let first ← addChecked (dst.q 0) multiple
    return dst.put 0 first
  else
    let next ← addChecked (dst.q (i + 1)) carry
    return dst.put (i + 1) next

def carryReduceChecked (dst : Limbs 16) : Option (Limbs 16) :=
  (List.range 16).foldlM carryStepChecked dst

def productStepChecked (a b : Limbs 16) (i : ℕ) (product : Limbs 31) (j : ℕ) :
    Option (Limbs 31) := do
  let limbs ← mulChecked (a.q i) (b.q j)
  let sum ← addChecked (product.q (i + j)) limbs
  return product.put (i + j) sum

def productRowChecked (a b : Limbs 16) (product : Limbs 31) (i : ℕ) : Option (Limbs 31) :=
  (List.range 16).foldlM (productStepChecked a b i) product

def productChecked (a b : Limbs 16) : Option (Limbs 31) :=
  (List.range 16).foldlM (productRowChecked a b) (Limbs.zero 31)

def foldStepChecked (product : Limbs 31) (i : ℕ) : Option (Limbs 31) := do
  let multiple ← mulChecked 38 (product.q (i + 16))
  let sum ← addChecked (product.q i) multiple
  return product.put i sum

def foldUpperChecked (product : Limbs 31) : Option (Limbs 31) :=
  (List.range 15).foldlM foldStepChecked product

def multiplyChecked (a b : Limbs 16) : Option (Limbs 16) := do
  let product ← productChecked a b
  let product ← foldUpperChecked product
  let dst ← carryReduceChecked (lower product)
  carryReduceChecked dst

def addLimbs (a b : Limbs 16) : Option (Limbs 16) := collect fun i => addChecked (a.q i) (b.q i)

def subtractLimbs (a b : Limbs 16) : Option (Limbs 16) :=
  collect fun i => subChecked (a.q i) (b.q i)

def borrowStepChecked (elements m : Limbs 16) (i : ℕ) : Option (Limbs 16) := do
  let dim : Int64 := if i = 15 then 0x7fff else 0xffff
  let limb ← subChecked (elements.q i) dim
  let limb ← subChecked limb (m.q (i - 1) >>> 16 &&& 1)
  let m := m.put i limb
  return m.put (i - 1) (m.q (i - 1) &&& 0xffff)

def borrowChecked (elements : Limbs 16) : Option (Limbs 16) := do
  let first ← subChecked (elements.q 0) 0xffed
  (List.range' 1 15).foldlM (borrowStepChecked elements) ((Limbs.zero 16).put 0 first)

def reduceOnceChecked (elements : Limbs 16) : Option (Limbs 16) := do
  let m ← borrowChecked elements
  let carryBit : UInt8 := (m.q 15 >>> 16 &&& 1).toUInt64.toUInt8
  return (swap elements m (1 - carryBit)).1

def packChecked (src : Limbs 16) : Option (Vector UInt8 32) := do
  let elements ← carryReduceChecked src
  let elements ← carryReduceChecked elements
  let elements ← carryReduceChecked elements
  let elements ← reduceOnceChecked elements
  let elements ← reduceOnceChecked elements
  return Vector.ofFn fun k =>
    let q := elements.q (k.val / 2)
    if k.val % 2 = 0 then (q >>> 0 &&& 0xff).toUInt64.toUInt8
    else (q >>> 8 &&& 0xff).toUInt64.toUInt8

def unpackChecked (src : Vector UInt8 32) : Option (Limbs 16) := do
  let byte (k : ℕ) : Int64 := (src[k]?.getD 0).toUInt64.toInt64
  let dst ← collect fun i => do
    let high ← mulChecked (byte (2 * i.val + 1)) (2 ^ 8)
    addChecked (byte (2 * i.val)) high
  return dst.put 15 (dst.q 15 &&& 0x7fff)

/-- A call of `multiply`. -/
structure MulCall where
  a : Limbs 16
  b : Limbs 16
  result : Limbs 16

/-- Checked computations that record the calls of `multiply`. -/
abbrev Traced := StateT (List MulCall) Option

def step {α : Type} (m : Option α) : Traced α := StateT.lift m

def multiplyTraced (a b : Limbs 16) : Traced (Limbs 16) := do
  let result ← step (multiplyChecked a b)
  modify (· ++ [⟨a, b, result⟩])
  return result

def squareTraced (src : Limbs 16) : Traced (Limbs 16) := multiplyTraced src src

def inverseTraced (src : Limbs 16) : Traced (Limbs 16) :=
  (List.range 254).foldlM (fun elements i => do
    let elements ← squareTraced elements
    if i ≠ 251 ∧ i ≠ 249 then multiplyTraced elements src else return elements) src

def ladderTraced (x : Limbs 16) (s : Inputs) : Traced Inputs := do
  let ⟨a, b, c, d⟩ := s
  let e ← step (addLimbs a c)
  let a ← step (subtractLimbs a c)
  let c ← step (addLimbs b d)
  let b ← step (subtractLimbs b d)
  let d ← squareTraced e
  let f ← squareTraced a
  let a ← multiplyTraced c a
  let c ← multiplyTraced b e
  let e ← step (addLimbs a c)
  let a ← step (subtractLimbs a c)
  let b ← squareTraced a
  let c ← step (subtractLimbs d f)
  let a ← multiplyTraced c c1db41
  let a ← step (addLimbs a d)
  let c ← multiplyTraced c a
  let a ← multiplyTraced d f
  let d ← multiplyTraced b x
  let b ← squareTraced e
  return ⟨a, b, c, d⟩

def turnTraced (x : Limbs 16) (inputs : Inputs) (bit : UInt8) : Traced Inputs := do
  let inputs ← ladderTraced x (inputs.swap bit)
  return inputs.swap bit

/-- The function `x25519` with its arithmetic checked. -/
def x25519Traced (secret basepoint : Vector UInt8 32) : Traced (Vector UInt8 32) := do
  let x ← step (unpackChecked basepoint)
  let one := (Limbs.zero 16).put 0 1
  let inputs ← (List.range 255).reverse.foldlM
    (fun inputs i => turnTraced x inputs (keyBit secret i)) ⟨one, x, Limbs.zero 16, one⟩
  let inverted ← inverseTraced inputs.c
  let result ← multiplyTraced inputs.a inverted
  step (packChecked result)

theorem checked_eq {v : ℤ} (h : |v| < 2 ^ 62) : checked v = some (Int64.ofInt v) := by
  rw [abs_lt] at h
  exact if_pos (by omega)

theorem addChecked_eq {x y : Int64} (h : |x.toInt + y.toInt| < 2 ^ 62) :
    addChecked x y = some (x + y) := by
  rw [addChecked, checked_eq h, Int64.ofInt_add, Int64.ofInt_toInt, Int64.ofInt_toInt]

theorem subChecked_eq {x y : Int64} (h : |x.toInt - y.toInt| < 2 ^ 62) :
    subChecked x y = some (x - y) := by
  rw [subChecked, checked_eq h, Int64.ofInt_sub, Int64.ofInt_toInt, Int64.ofInt_toInt]

theorem mulChecked_eq {x y : Int64} (h : |x.toInt * y.toInt| < 2 ^ 62) :
    mulChecked x y = some (x * y) := by
  rw [mulChecked, checked_eq h, Int64.ofInt_mul, Int64.ofInt_toInt, Int64.ofInt_toInt]

theorem collect_eq {f : Fin 16 → Option Int64} {g : Fin 16 → Int64} (h : ∀ i, f i = some (g i)) :
    collect f = some (Vector.ofFn g) := by
  rw [collect, dif_pos fun i => by rw [h i]; rfl]
  congr 2
  funext i
  simp only [h i, Option.get_some]

theorem foldlM_range {σ : Type} {check : σ → ℕ → Option σ} {f : σ → ℕ → σ} {s : σ} (a : ℕ) {n : ℕ}
    (h : ∀ i < n, check ((List.range' a i).foldl f s) (a + i) =
      some (f ((List.range' a i).foldl f s) (a + i))) :
    (List.range' a n).foldlM check s = some ((List.range' a n).foldl f s) := by
  induction n with
  | zero => rfl
  | succ n ih =>
    rw [List.range'_concat, one_mul, List.foldlM_append, ih fun i hi => h i (by omega),
      List.foldl_append]
    simp only [Option.bind_eq_bind, Option.bind_some, List.foldlM_cons, List.foldlM_nil,
      List.foldl_cons, List.foldl_nil, h n (by omega)]
    rfl

theorem carryStepChecked_eq {f : Limbs 16} {i : ℕ} (hcur : |f.z i| ≤ 2 ^ 55)
    (hnext : |f.z (i + 1)| ≤ 2 ^ 55) (hfirst : |f.z 0| ≤ 2 ^ 55) :
    carryStepChecked f i = some (carryStep f i) := by
  have hcarry : (f.q i >>> 16).toInt = f.z i / 2 ^ 16 := toInt_shiftRight_16 _
  have htwo : (2 ^ 16 : Int64).toInt = 2 ^ 16 := rfl
  have hz (j : ℕ) : (f.q j).toInt = f.z j := rfl
  rw [abs_le] at hcur hnext hfirst
  have hshift : (f.q i >>> 16 * 2 ^ 16).toInt = f.z i / 2 ^ 16 * 2 ^ 16 := by
    rw [toInt_mul_eq, hcarry, htwo]
    rw [hcarry, htwo, abs_lt]
    omega
  have hmul : mulChecked (f.q i >>> 16) (2 ^ 16) = some (f.q i >>> 16 * 2 ^ 16) := by
    apply mulChecked_eq
    rw [hcarry, htwo, abs_lt]
    omega
  have hsub : subChecked (f.q i) (f.q i >>> 16 * 2 ^ 16) =
      some (f.q i - f.q i >>> 16 * 2 ^ 16) := by
    apply subChecked_eq
    rw [hshift, hz, abs_lt]
    omega
  have hkeep {j : ℕ} (hj : i ≠ j) (x : Int64) : (f.put i x).q j = f.q j := by
    rw [q_put, if_neg (fun h => hj h.1)]
  rw [carryStepChecked, carryStep, hmul, Option.bind_eq_bind, Option.bind_some, hsub,
    Option.bind_some, shiftLeft_16]
  dsimp only
  -- the carry of the last limb goes to the first, times 38
  by_cases hi : i = 15
  · have hprod : ((38 : Int64) * (f.q i >>> 16)).toInt = 38 * (f.z i / 2 ^ 16) := by
      have hc : (38 : Int64).toInt = 38 := rfl
      rw [toInt_mul_eq, hcarry, hc]
      rw [hcarry, hc, abs_lt]
      omega
    have hmultiple : mulChecked 38 (f.q i >>> 16) = some ((38 : Int64) * (f.q i >>> 16)) := by
      have hc : (38 : Int64).toInt = 38 := rfl
      apply mulChecked_eq
      rw [hcarry, hc, abs_lt]
      omega
    have hadd : addChecked (f.q 0) ((38 : Int64) * (f.q i >>> 16)) =
        some (f.q 0 + (38 : Int64) * (f.q i >>> 16)) := by
      apply addChecked_eq
      rw [hprod, hz, abs_lt]
      omega
    rw [if_pos hi, if_pos hi, hmultiple, Option.bind_some, hkeep (by omega), hadd]
    rfl
  · have hadd : addChecked (f.q (i + 1)) (f.q i >>> 16) =
        some (f.q (i + 1) + f.q i >>> 16) := by
      apply addChecked_eq
      rw [hcarry, hz, abs_lt]
      omega
    rw [if_neg hi, if_neg hi, hkeep (by omega), hadd]
    rfl

theorem carryReduceChecked_eq {f : Limbs 16} (hf : f.Within (2 ^ 54)) :
    carryReduceChecked f = some (carryReduce f) := by
  rw [carryReduceChecked, carryReduce, List.range_eq_range']
  apply foldlM_range
  intro i hi
  rw [Nat.zero_add, ← List.range_eq_range']
  have hrun := carrySteps_z hf (i := i) (by omega)
  generalize (List.range i).foldl carryStep f = g at hrun ⊢
  -- the limbs that are left are those of `f`, up to a carry
  have hwithin : g.Within (2 ^ 55) := by
    intro j
    have hfj := hf j
    have hcarry := carry_le hf j
    have hlow : 0 ≤ digit (2 ^ 16) f.z j := digit_nonneg (by norm_num) j
    have hhigh : digit (2 ^ 16) f.z j < 2 ^ 16 := digit_lt (by norm_num) j
    rw [abs_le] at hfj hcarry ⊢
    rw [hrun, carrying]
    split
    · omega
    · split <;> omega
  exact carryStepChecked_eq (hwithin i) (hwithin (i + 1)) (hwithin 0)

/-! ## Products -/

section

variable {a b : Limbs 16}

theorem productStepChecked_eq {P : Limbs 31} (ha : a.Within (2 ^ 18)) (hb : b.Within (2 ^ 18))
    (hP : P.Within (2 ^ 60)) (i j : ℕ) :
    productStepChecked a b i P j = some (productStep a b i P j) := by
  have hprod : |a.z i * b.z j| ≤ 2 ^ 36 := by
    rw [abs_mul]
    calc |a.z i| * |b.z j| ≤ 2 ^ 18 * 2 ^ 18 := by
          apply mul_le_mul (ha i) (hb j) (abs_nonneg _) (by norm_num)
      _ = 2 ^ 36 := by norm_num
  have hmul : (a.q i * b.q j).toInt = a.z i * b.z j := by
    apply toInt_mul_eq
    exact hprod.trans_lt (by norm_num)
  have hlimbs : mulChecked (a.q i) (b.q j) = some (a.q i * b.q j) :=
    mulChecked_eq (hprod.trans_lt (by norm_num))
  have hsum : addChecked (P.q (i + j)) (a.q i * b.q j) = some (P.q (i + j) + a.q i * b.q j) := by
    apply addChecked_eq
    rw [hmul]
    calc |P.z (i + j) + a.z i * b.z j| ≤ |P.z (i + j)| + |a.z i * b.z j| := abs_add_le _ _
      _ ≤ 2 ^ 60 + 2 ^ 36 := add_le_add (hP _) hprod
      _ < 2 ^ 62 := by norm_num
  rw [productStepChecked, hlimbs, Option.bind_eq_bind, Option.bind_some, hsum]
  rfl

theorem productRowChecked_eq (ha : a.Within (2 ^ 18)) (hb : b.Within (2 ^ 18)) {i : ℕ}
    (hi : i < 16) {P : Limbs 31} (hP : P.Within (2 ^ 59)) :
    productRowChecked a b P i = some (productRow a b P i) := by
  rw [productRowChecked, productRow, List.range_eq_range']
  apply foldlM_range
  intro j hj
  have hlen : ((List.range' 0 j).length : ℤ) = j := by rw [List.length_range']
  have hrow := productSteps ha hb hi (List.range' 0 j)
    (fun k hk => by rw [List.mem_range'_1] at hk; omega) P hP (by rw [hlen]; omega)
  exact productStepChecked_eq ha hb (hrow.1.mono (by rw [hlen]; omega)) i (0 + j)

theorem productChecked_eq (ha : a.Within (2 ^ 18)) (hb : b.Within (2 ^ 18)) :
    productChecked a b = some (product a b) := by
  rw [productChecked, product, List.range_eq_range']
  apply foldlM_range
  intro i hi
  have hzero : (Limbs.zero 31).Within 0 := by
    intro j
    rw [z_zero, abs_zero]
  have hlen : ((List.range' 0 i).length : ℤ) = i := by rw [List.length_range']
  have hrows := productRows ha hb (List.range' 0 i)
    (fun k hk => by rw [List.mem_range'_1] at hk; omega) (Limbs.zero 31) hzero
    (by rw [hlen]; omega)
  exact productRowChecked_eq ha hb (by omega) (hrows.1.mono (by rw [hlen]; omega))

theorem foldUpperChecked_eq {P : Limbs 31} (hP : P.Within (2 ^ 44)) :
    foldUpperChecked P = some (foldUpper P) := by
  rw [foldUpperChecked, foldUpper, List.range_eq_range']
  apply foldlM_range
  intro i hi
  rw [Nat.zero_add, ← List.range_eq_range']
  have hrun := foldSteps_z hP (i := i) (by omega)
  generalize (List.range i).foldl foldStep P = Q at hrun ⊢
  have hlow : (Q.q i).toInt = P.z i := (congrFun hrun i).trans (if_neg (lt_irrefl i))
  have hhigh : (Q.q (i + 16)).toInt = P.z (i + 16) :=
    (congrFun hrun (i + 16)).trans (if_neg (by omega))
  have hc : (38 : Int64).toInt = 38 := rfl
  have hPi := hP i
  have hPh := hP (i + 16)
  rw [abs_le] at hPi hPh
  have hmul : ((38 : Int64) * Q.q (i + 16)).toInt = 38 * P.z (i + 16) := by
    rw [toInt_mul_eq, hhigh, hc]
    rw [hhigh, hc, abs_lt]
    omega
  have hmultiple : mulChecked 38 (Q.q (i + 16)) = some (38 * Q.q (i + 16)) := by
    apply mulChecked_eq
    rw [hhigh, hc, abs_lt]
    omega
  have hsum : addChecked (Q.q i) (38 * Q.q (i + 16)) = some (Q.q i + 38 * Q.q (i + 16)) := by
    apply addChecked_eq
    rw [hlow, hmul, abs_lt]
    omega
  rw [foldStepChecked, hmultiple, Option.bind_eq_bind, Option.bind_some, hsum]
  rfl

theorem multiplyChecked_eq (ha : a.Within (2 ^ 18)) (hb : b.Within (2 ^ 18)) :
    multiplyChecked a b = some (multiply a b) := by
  obtain ⟨hP, -⟩ := product_spec ha hb
  have hf := lower_within hP
  obtain ⟨hfirst, hdigits⟩ := carryReduce_digits (lower (foldUpper (product a b)))
  rw [multiplyChecked, productChecked_eq ha hb, Option.bind_eq_bind, Option.bind_some,
    foldUpperChecked_eq hP, Option.bind_some, carryReduceChecked_eq hf, Option.bind_eq_bind,
    Option.bind_some, carryReduceChecked_eq (within_of_digits hfirst hdigits), multiply]

theorem addLimbs_eq (ha : a.Reduced) (hb : b.Reduced) : addLimbs a b = some (add a b) := by
  apply collect_eq
  intro i
  apply addChecked_eq
  have hai := ha.within i
  have hbi := hb.within i
  show |a.z i + b.z i| < 2 ^ 62
  rw [abs_le] at hai hbi
  rw [abs_lt]
  omega

theorem subtractLimbs_eq (ha : a.Reduced) (hb : b.Reduced) :
    subtractLimbs a b = some (subtract a b) := by
  apply collect_eq
  intro i
  apply subChecked_eq
  have hai := ha.within i
  have hbi := hb.within i
  show |a.z i - b.z i| < 2 ^ 62
  rw [abs_le] at hai hbi
  rw [abs_lt]
  omega

end

/-! ## Encodings -/

theorem unpackChecked_eq (src : Vector UInt8 32) : unpackChecked src = some (unpack src) := by
  have htwo : (2 ^ 8 : Int64).toInt = 256 := rfl
  have hlimb (i : Fin 16) :
      (do
        let high ← mulChecked (src[2 * i.val + 1]?.getD 0).toUInt64.toInt64 (2 ^ 8)
        addChecked (src[2 * i.val]?.getD 0).toUInt64.toInt64 high) =
      some ((src[2 * i.val]?.getD 0).toUInt64.toInt64 +
        (src[2 * i.val + 1]?.getD 0).toUInt64.toInt64 <<< 8) := by
    have hlow := byteAt_bounds src (2 * i)
    have hhigh := byteAt_bounds src (2 * i + 1)
    have hl : (src[2 * i.val]?.getD 0).toUInt64.toInt64.toInt = byteAt src (2 * i) := toInt_byte _
    have hh : (src[2 * i.val + 1]?.getD 0).toUInt64.toInt64.toInt = byteAt src (2 * i + 1) :=
      toInt_byte _
    have hmul : ((src[2 * i.val + 1]?.getD 0).toUInt64.toInt64 * 2 ^ 8).toInt =
        byteAt src (2 * i + 1) * 256 := by
      rw [toInt_mul_eq, hh, htwo]
      rw [hh, htwo, abs_lt]
      omega
    rw [mulChecked_eq, Option.bind_eq_bind, Option.bind_some, shiftLeft_8]
    · apply addChecked_eq
      rw [hl, hmul, abs_lt]
      omega
    · rw [hh, htwo, abs_lt]
      omega
  rw [unpackChecked, collect_eq hlimb]
  rfl

section

variable {f : Limbs 16}

theorem borrowStepChecked_eq {m : Limbs 16} {i : ℕ} (hf : f.Canonical)
    (hlow : -2 ^ 16 ≤ m.z i) (hhigh : m.z i < 2 ^ 16) :
    borrowStepChecked f m (i + 1) = some (borrowStep f m (i + 1)) := by
  have hfn := hf (i + 1)
  have hborrow : (m.q i >>> 16 &&& 1).toInt = -(m.z i / 2 ^ 16) := toInt_borrow hlow hhigh
  have hq : (f.q (i + 1)).toInt = f.z (i + 1) := rfl
  rw [borrowStepChecked, borrowStep, Nat.add_sub_cancel]
  generalize hdim : (if i + 1 = 15 then 0x7fff else 0xffff : Int64) = dim
  have hbounds : 0 ≤ dim.toInt ∧ dim.toInt < 2 ^ 16 := by
    rw [← hdim]
    split <;> decide
  have hsub : subChecked (f.q (i + 1)) dim = some (f.q (i + 1) - dim) := by
    apply subChecked_eq
    rw [hq, abs_lt]
    omega
  have hvalue : (f.q (i + 1) - dim).toInt = f.z (i + 1) - dim.toInt := by
    rw [toInt_sub_eq, hq]
    rw [hq, abs_lt]
    omega
  have hlimb : subChecked (f.q (i + 1) - dim) (m.q i >>> 16 &&& 1) =
      some (f.q (i + 1) - dim - (m.q i >>> 16 &&& 1)) := by
    apply subChecked_eq
    rw [hvalue, hborrow, abs_lt]
    omega
  dsimp only
  rw [hsub, Option.bind_eq_bind, Option.bind_some, hlimb]
  rfl

theorem borrowChecked_eq (hf : f.Canonical) : borrowChecked f = some (borrow f) := by
  have h0 := hf 0
  have hfirst : subChecked (f.q 0) 0xffed = some (f.q 0 - 0xffed) := by
    have hc : (0xffed : Int64).toInt = 0xffed := rfl
    apply subChecked_eq
    show |f.z 0 - (0xffed : Int64).toInt| < 2 ^ 62
    rw [hc, abs_lt]
    omega
  rw [borrowChecked, hfirst, Option.bind_eq_bind, Option.bind_some, borrow]
  apply foldlM_range
  intro i hi
  have hrun := borrowSteps_z hf (i := i) (by omega)
  generalize (List.range' 1 i).foldl (borrowStep f) _ = m at hrun ⊢
  have hat : m.z i = difference f i + carry (2 ^ 16) (difference f) i := by
    rw [hrun, borrowing, if_neg (lt_irrefl i), if_pos rfl]
  have hcarry := carry_difference hf i
  have hfi := hf i
  have hpi := primeLimb_bounds i
  rw [Nat.add_comm 1 i]
  apply borrowStepChecked_eq hf
  · rw [hat, difference]
    omega
  · rw [hat, difference]
    omega

theorem reduceOnceChecked_eq (hf : f.Canonical) :
    reduceOnceChecked f = some (reduceOnce f) := by
  rw [reduceOnceChecked, borrowChecked_eq hf]
  rfl

theorem packChecked_eq (hf : f.Reduced) : packChecked f = some (pack f) := by
  have h₁ := carryReduce_canonical hf
  obtain ⟨h₂, -⟩ := carryReduce_of_canonical h₁
  obtain ⟨h₃, -⟩ := carryReduce_of_canonical h₂
  obtain ⟨h₄, -⟩ := reduceOnce_spec h₃
  rw [packChecked, carryReduceChecked_eq (hf.within.mono (by norm_num)), Option.bind_eq_bind,
    Option.bind_some, carryReduceChecked_eq h₁.within, Option.bind_some,
    carryReduceChecked_eq h₂.within, Option.bind_some, reduceOnceChecked_eq h₃, Option.bind_some,
    reduceOnceChecked_eq h₄]
  rfl

end

/-! ## Operands of `multiply` -/

/-- A sum or difference of at most two elements that are as `multiply` returns them, the
unpacked basepoint or the constant. -/
inductive Operand (x : Limbs 16) : Limbs 16 → Prop
  | one {u : Limbs 16} (hu : u.Reduced) : Operand x u
  | sum {a u v : Limbs 16} (hu : u.Reduced) (hv : v.Reduced) (h : ∀ j, a.z j = u.z j + v.z j) :
    Operand x a
  | difference {a u v : Limbs 16} (hu : u.Reduced) (hv : v.Reduced)
    (h : ∀ j, a.z j = u.z j - v.z j) : Operand x a
  | basepoint : Operand x x
  | constant : Operand x c1db41

def MulCall.Fits (x : Limbs 16) (call : MulCall) : Prop :=
  Operand x call.a ∧ Operand x call.b ∧ call.result.Reduced

/-- A computation that returns `a` without an overflow, and whose calls fit. -/
def Sound {α : Type} (x : Limbs 16) (m : Traced α) (a : α) : Prop :=
  ∀ log : List MulCall, (∀ call ∈ log, call.Fits x) →
    ∃ log', m.run log = some (a, log') ∧ ∀ call ∈ log', call.Fits x

section

variable {α β : Type} {x : Limbs 16} {a : α} {b : β}

theorem Sound.pure (a : α) : Sound x (Pure.pure a) a := fun log hlog => ⟨log, rfl, hlog⟩

theorem Sound.bind {m : Traced α} {f : α → Traced β} (hm : Sound x m a) (hf : Sound x (f a) b) :
    Sound x (m >>= f) b := by
  intro log hlog
  obtain ⟨log', hrun, hlog'⟩ := hm log hlog
  obtain ⟨log'', hrun', hlog''⟩ := hf log' hlog'
  refine ⟨log'', ?_, hlog''⟩
  rw [StateT.run_bind, hrun]
  exact hrun'

theorem Sound.step {m : Option α} (h : m = some a) : Sound x (step m) a := by
  subst h
  exact fun log hlog => ⟨log, rfl, hlog⟩

theorem Sound.foldlM {ι σ : Type} {P : σ → Prop} {check : σ → ι → Traced σ} {f : σ → ι → σ}
    {l : List ι} (h : ∀ s, ∀ i ∈ l, P s → Sound x (check s i) (f s i) ∧ P (f s i)) {s : σ}
    (hs : P s) : Sound x (l.foldlM check s) (l.foldl f s) := by
  induction l generalizing s with
  | nil => exact Sound.pure s
  | cons i l ih =>
    obtain ⟨hstep, hnext⟩ := h s i List.mem_cons_self hs
    rw [List.foldlM_cons, List.foldl_cons]
    exact hstep.bind (ih (fun s j hj => h s j (List.mem_cons_of_mem _ hj)) hnext)

end

section

variable {x a b : Limbs 16}

theorem Operand.within (hx : x.Reduced) (ha : Operand x a) : a.Within (2 ^ 18) := by
  cases ha with
  | one hu => exact hu.small
  | sum hu hv h =>
    intro j
    have huj := hu.within j
    have hvj := hv.within j
    rw [abs_le] at huj hvj ⊢
    rw [h j]
    omega
  | difference hu hv h =>
    intro j
    have huj := hu.within j
    have hvj := hv.within j
    rw [abs_le] at huj hvj ⊢
    rw [h j]
    omega
  | basepoint => exact hx.small
  | constant => exact c1db41_spec.1

theorem Operand.add (ha : a.Reduced) (hb : b.Reduced) : Operand x (add a b) :=
  .sum ha hb (add_z ha hb)

theorem Operand.subtract (ha : a.Reduced) (hb : b.Reduced) : Operand x (subtract a b) :=
  .difference ha hb (subtract_z ha hb)

theorem multiplyTraced_sound (hx : x.Reduced) (ha : Operand x a) (hb : Operand x b) :
    Sound x (multiplyTraced a b) (multiply a b) := by
  intro log hlog
  refine ⟨log ++ [⟨a, b, multiply a b⟩], ?_, ?_⟩
  · rw [multiplyTraced, multiplyChecked_eq (ha.within hx) (hb.within hx)]
    rfl
  · intro call hcall
    rcases List.mem_append.mp hcall with hcall | hcall
    · exact hlog call hcall
    · obtain rfl := List.mem_singleton.mp hcall
      exact ⟨ha, hb, multiply_reduced a b⟩

theorem inverseTraced_sound (hx : x.Reduced) (ha : a.Reduced) :
    Sound x (inverseTraced a) (inverse a) := by
  apply Sound.foldlM (P := Limbs.Reduced) _ ha
  intro elements i _ helements
  have hsquare : (square elements).Reduced := (square_spec helements.small).1
  have hfirst := multiplyTraced_sound hx (.one helements) (.one helements)
  dsimp only
  split
  · exact ⟨hfirst.bind (multiplyTraced_sound hx (.one hsquare) (.one ha)),
      multiply_reduced _ _⟩
  · exact ⟨hfirst.bind (Sound.pure _), hsquare⟩

theorem ladderTraced_sound (hx : x.Reduced) {s : Inputs} (hs : s.Reduced) :
    Sound x (ladderTraced x s) (s.ladder x) := by
  obtain ⟨a, b, c, d⟩ := s
  obtain ⟨ha, hb, hc, hd⟩ := hs
  dsimp only at ha hb hc hd
  have hA : Operand x (add a c) := .add ha hc
  have hB : Operand x (subtract a c) := .subtract ha hc
  have hC : Operand x (add b d) := .add hb hd
  have hD : Operand x (subtract b d) := .subtract hb hd
  have hAA := multiply_reduced (add a c) (add a c)
  have hBB := multiply_reduced (subtract a c) (subtract a c)
  have hCB := multiply_reduced (add b d) (subtract a c)
  have hDA := multiply_reduced (subtract b d) (add a c)
  have hsum : Operand x (add _ _) := .add hCB hDA
  have hdiff : Operand x (subtract _ _) := .subtract hCB hDA
  have hE : Operand x (subtract _ _) := .subtract hAA hBB
  -- the sums, differences and squares of the source in their order
  apply (Sound.step (addLimbs_eq ha hc)).bind
  apply (Sound.step (subtractLimbs_eq ha hc)).bind
  apply (Sound.step (addLimbs_eq hb hd)).bind
  apply (Sound.step (subtractLimbs_eq hb hd)).bind
  apply (multiplyTraced_sound hx hA hA).bind
  apply (multiplyTraced_sound hx hB hB).bind
  apply (multiplyTraced_sound hx hC hB).bind
  apply (multiplyTraced_sound hx hD hA).bind
  apply (Sound.step (addLimbs_eq hCB hDA)).bind
  apply (Sound.step (subtractLimbs_eq hCB hDA)).bind
  apply (multiplyTraced_sound hx hdiff hdiff).bind
  apply (Sound.step (subtractLimbs_eq hAA hBB)).bind
  apply (multiplyTraced_sound hx hE .constant).bind
  apply (Sound.step (addLimbs_eq (multiply_reduced _ _) hAA)).bind
  apply (multiplyTraced_sound hx hE (.add (multiply_reduced _ _) hAA)).bind
  apply (multiplyTraced_sound hx (.one hAA) (.one hBB)).bind
  apply (multiplyTraced_sound hx (.one (multiply_reduced _ _)) .basepoint).bind
  apply (multiplyTraced_sound hx hsum hsum).bind
  exact Sound.pure _

theorem turnTraced_sound (hx : x.Reduced) {s : Inputs} (hs : s.Reduced) (bit : Bool) :
    Sound x (turnTraced x s (if bit then 1 else 0)) (turn x s (if bit then 1 else 0)) := by
  obtain ⟨hswapped, -⟩ := swap_spec hs bit
  exact (ladderTraced_sound hx hswapped).bind (Sound.pure _)

theorem turnsTraced_sound (hx : x.Reduced) (secret : Vector UInt8 32) {s : Inputs}
    (hs : s.Reduced) : Sound x
      ((List.range 255).reverse.foldlM (fun s i => turnTraced x s (keyBit secret i)) s)
      ((List.range 255).reverse.foldl (fun s i => turn x s (keyBit secret i)) s) := by
  apply Sound.foldlM (P := Inputs.Reduced) _ hs
  intro s i hi hs
  rw [List.mem_reverse, List.mem_range] at hi
  rw [keyBit_eq secret (by omega)]
  exact ⟨turnTraced_sound hx hs _, (turn_spec hx hs _).1⟩

end

/-- No operation of `x25519` leaves the range of `int64_t`, for every secret and every
basepoint, and the checked function returns what the function returns; every call of
`multiply` has such operands and a result with limbs in the stated ranges. -/
theorem x25519_never_overflows (secret basepoint : Vector UInt8 32) :
    ∃ calls, (x25519Traced secret basepoint).run [] = some (x25519 secret basepoint, calls) ∧
      ∀ call ∈ calls, Operand (unpack basepoint) call.a ∧ Operand (unpack basepoint) call.b ∧
        (-38 ≤ call.result.z 0 ∧ call.result.z 0 < 2 ^ 16 + 38) ∧
        ∀ j, 1 ≤ j → 0 ≤ call.result.z j ∧ call.result.z j < 2 ^ 16 := by
  have hx := unpack_reduced basepoint
  have hstart : Inputs.Reduced ⟨(Limbs.zero 16).put 0 1, unpack basepoint, Limbs.zero 16,
    (Limbs.zero 16).put 0 1⟩ := ⟨one_spec.1, hx, zero_spec.1, one_spec.1⟩
  obtain ⟨hend, -⟩ := turns_spec hx secret (t := 255) (by omega) hstart
  have hturns := turnsTraced_sound hx secret hstart
  have hsound : Sound (unpack basepoint) (x25519Traced secret basepoint)
      (x25519 secret basepoint) := by
    apply (Sound.step (unpackChecked_eq basepoint)).bind
    apply hturns.bind
    unfold x25519
    dsimp only
    generalize (List.range 255).reverse.foldl
      (fun s i => turn (unpack basepoint) s (keyBit secret i)) _ = s at hend ⊢
    have hinverse := (inverse_spec hend.c).1
    apply (inverseTraced_sound hx hend.c).bind
    apply (multiplyTraced_sound hx (.one hend.a) (.one hinverse)).bind
    exact Sound.step (packChecked_eq (multiply_reduced _ _))
  obtain ⟨calls, hrun, hcalls⟩ := hsound [] fun call hcall => absurd hcall List.not_mem_nil
  exact ⟨calls, hrun, hcalls⟩

end Parcel.X25519
