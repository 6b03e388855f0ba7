import Mathlib

/-!
# The AES-128 cipher of FIPS 197

The standard's own description: bytes as polynomials over the two-element field
modulo `x^8 + x^4 + x^3 + x + 1`, the S-box as field inverse and affine map, the
column mix as a product of polynomials over the field modulo `x^4 + 1`, the key
schedule as a recurrence on words. A state has rows and columns, and byte
`r + 4 * c` of a block is in row `r` and column `c`.
-/

namespace Fips197

open Polynomial

/-- The coefficients of `x^8 + x^4 + x^3 + x + 1`. -/
def modulus : ℕ := 0x11b

/-- The product of the polynomials `a` and `b`, for `b` of degree below eight. -/
def clMul (a b : ℕ) : ℕ :=
  (List.range 8).foldl (fun r i => if b.testBit i then r ^^^ (a <<< i) else r) 0

/-- One step of the division: coefficient `8 + i` is cancelled. -/
def cancelTop (r i : ℕ) : ℕ := if r.testBit (8 + i) then r ^^^ (modulus <<< i) else r

/-- The remainder of a polynomial of degree below fifteen. -/
def reduce (r : ℕ) : ℕ := [6, 5, 4, 3, 2, 1, 0].foldl cancelTop r

def gfMul (a b : UInt8) : UInt8 := UInt8.ofNat (reduce (clMul a.toNat b.toNat))

def gfPow (a : UInt8) : ℕ → UInt8
  | 0 => 1
  | n + 1 => gfMul (gfPow a n) a

/-- The inverse, with zero mapped to itself: the power 254 by squarings. -/
def gfInv (a : UInt8) : UInt8 :=
  let a2 := gfMul a a
  let a3 := gfMul a2 a
  let a6 := gfMul a3 a3
  let a12 := gfMul a6 a6
  let a15 := gfMul a12 a3
  let a30 := gfMul a15 a15
  let a60 := gfMul a30 a30
  let a120 := gfMul a60 a60
  let a126 := gfMul a120 a6
  let a127 := gfMul a126 a
  gfMul a127 a127

/-- The polynomial whose coefficients are the bits of `n`. -/
noncomputable def poly (n : ℕ) : (ZMod 2)[X] :=
  ∑ i ∈ Finset.range n, if n.testBit i then X ^ i else 0

theorem poly_coeff (n i : ℕ) : (poly n).coeff i = if n.testBit i then 1 else 0 := by
  have hlt (h : n.testBit i = true) : i < n := Nat.lt_of_lt_of_le Nat.lt_two_pow_self
    (Nat.ge_two_pow_of_testBit h)
  rw [poly, finsetSum_coeff]
  by_cases h : n.testBit i = true
  · rw [Finset.sum_eq_single i]
    · simp [h]
    · intro j _ hj
      split
      · simp [coeff_X_pow, hj.symm]
      · simp
    · intro hi
      exact absurd (Finset.mem_range.mpr (hlt h)) hi
  · rw [if_neg h]
    apply Finset.sum_eq_zero
    intro j _
    split
    · rename_i hj
      have : i ≠ j := by rintro rfl; exact h hj
      simp [coeff_X_pow, this]
    · simp

theorem poly_xor (a b : ℕ) : poly (a ^^^ b) = poly a + poly b := by
  ext i
  rw [coeff_add, poly_coeff, poly_coeff, poly_coeff, Nat.testBit_xor]
  cases a.testBit i <;> cases b.testBit i <;> decide

theorem poly_shiftLeft (a i : ℕ) : poly (a <<< i) = poly a * X ^ i := by
  ext j
  rw [coeff_mul_X_pow', poly_coeff, poly_coeff, Nat.testBit_shiftLeft]
  by_cases h : i ≤ j <;> simp [h]

theorem poly_mod_two_pow_succ (b n : ℕ) :
    poly (b % 2 ^ (n + 1)) = poly (b % 2 ^ n) + if b.testBit n then X ^ n else 0 := by
  ext j
  rw [coeff_add, poly_coeff, poly_coeff, Nat.testBit_mod_two_pow, Nat.testBit_mod_two_pow]
  rcases lt_trichotomy j n with h | h | h
  · have h1 : j < n + 1 := by omega
    have h2 : j ≠ n := by omega
    by_cases hb : b.testBit n = true <;> simp [h, h1, hb, coeff_X_pow, h2]
  · subst h
    by_cases hb : b.testBit j = true <;> simp [hb]
  · have h1 : ¬ j < n + 1 := by omega
    have h2 : ¬ j < n := by omega
    have h3 : j ≠ n := by omega
    by_cases hb : b.testBit n = true <;> simp [h1, h2, hb, coeff_X_pow, h3]

theorem poly_clMul (a b : ℕ) (hb : b < 2 ^ 8) : poly (clMul a b) = poly a * poly b := by
  -- after `n` shifts the sum is the product by the low `n` coefficients
  have step (n : ℕ) : poly ((List.range n).foldl
      (fun r i => if b.testBit i then r ^^^ (a <<< i) else r) 0) = poly a * poly (b % 2 ^ n) := by
    induction n with
    | zero => simp [Nat.mod_one, poly]
    | succ n ih =>
      rw [List.range_succ, List.foldl_append, List.foldl_cons, List.foldl_nil,
        poly_mod_two_pow_succ, mul_add, ← ih]
      split
      · rw [poly_xor, poly_shiftLeft]
      · rw [mul_zero, add_zero]
  rw [clMul, step 8, Nat.mod_eq_of_lt hb]

theorem poly_cancelTop (r i : ℕ) : poly modulus ∣ poly r - poly (cancelTop r i) := by
  unfold cancelTop
  split
  · rw [poly_xor, poly_shiftLeft, sub_add_cancel_left]
    exact (dvd_mul_right _ _).neg_right
  · rw [sub_self]
    exact dvd_zero _

theorem poly_reduce (r : ℕ) : poly modulus ∣ poly r - poly (reduce r) := by
  have step (is : List ℕ) (r : ℕ) : poly modulus ∣ poly r - poly (is.foldl cancelTop r) := by
    induction is generalizing r with
    | nil => simp
    | cons i is ih =>
      have h := dvd_add (poly_cancelTop r i) (ih (cancelTop r i))
      rwa [sub_add_sub_cancel] at h
  exact step _ r

theorem cancelTop_lt (r i : ℕ) (hr : r < 2 ^ (8 + i + 1)) : cancelTop r i < 2 ^ (8 + i) := by
  unfold cancelTop
  split
  · rename_i htop
    apply Nat.lt_pow_two_of_testBit
    intro j hj
    rw [Nat.testBit_xor, Nat.testBit_shiftLeft]
    rcases Nat.eq_or_lt_of_le hj with h | h
    · -- the leading coefficients of the two polynomials meet
      have h1 : j - i = 8 := by omega
      have h2 : i ≤ j := by omega
      rw [← h, htop, h, h1]
      simp [h2, modulus, Nat.testBit]
    · have h1 : r.testBit j = false :=
        Nat.testBit_lt_two_pow (hr.trans_le (Nat.pow_le_pow_right (by omega) (by omega)))
      have h2 : modulus.testBit (j - i) = false := by
        apply Nat.testBit_lt_two_pow
        calc modulus < 2 ^ 9 := by decide
          _ ≤ 2 ^ (j - i) := Nat.pow_le_pow_right (by omega) (by omega)
      rw [h1, h2]
      simp
  · rename_i htop
    apply Nat.lt_pow_two_of_testBit
    intro j hj
    rcases Nat.eq_or_lt_of_le hj with h | h
    · rw [← h]
      simpa using htop
    · exact Nat.testBit_lt_two_pow (hr.trans_le (Nat.pow_le_pow_right (by omega) (by omega)))

theorem reduce_lt (r : ℕ) (hr : r < 2 ^ 15) : reduce r < 2 ^ 8 := by
  unfold reduce
  simp only [List.foldl_cons, List.foldl_nil]
  repeat' apply cancelTop_lt
  exact hr

theorem clMul_lt (a b : ℕ) (ha : a < 2 ^ 8) : clMul a b < 2 ^ 15 := by
  have step (is : List ℕ) (his : ∀ i ∈ is, i < 8) (r : ℕ) (hr : r < 2 ^ 15) :
      is.foldl (fun r i => if b.testBit i then r ^^^ (a <<< i) else r) r < 2 ^ 15 := by
    induction is generalizing r with
    | nil => exact hr
    | cons i is ih =>
      apply ih (fun j hj => his j (List.mem_cons_of_mem _ hj))
      have hi : i < 8 := his i List.mem_cons_self
      dsimp only
      split
      · apply Nat.xor_lt_two_pow hr
        rw [Nat.shiftLeft_eq]
        calc a * 2 ^ i < 2 ^ 8 * 2 ^ i := Nat.mul_lt_mul_of_pos_right ha (by positivity)
          _ = 2 ^ (8 + i) := (pow_add 2 8 i).symm
          _ ≤ 2 ^ 15 := Nat.pow_le_pow_right (by omega) (by omega)
      · exact hr
  exact step _ (by simp) 0 (by positivity)

theorem gfMul_poly (a b : UInt8) :
    poly modulus ∣ poly a.toNat * poly b.toNat - poly (gfMul a b).toNat := by
  have hlt := reduce_lt _ (clMul_lt a.toNat b.toNat a.toNat_lt)
  rw [gfMul, UInt8.toNat_ofNat_of_lt' hlt, ← poly_clMul _ _ b.toNat_lt]
  exact poly_reduce _

theorem gfMul_gfInv : ∀ a : UInt8, a ≠ 0 → gfMul a (gfInv a) = 1 := by decide +kernel

/-- The S-box: the inverse, then the affine map over the bits. -/
def sBox (a : UInt8) : UInt8 :=
  let b := (gfInv a).toNat
  let bit := fun i => b.testBit (i % 8)
  UInt8.ofNat ((List.range 8).foldl (fun n i => n + 2 ^ i *
    (bit i ^^ bit (i + 4) ^^ bit (i + 5) ^^ bit (i + 6) ^^ bit (i + 7) ^^
      (0x63 : ℕ).testBit i).toNat) 0)

/-- The literals of rows and columns. -/
local instance neZero_four : NeZero 4 := ⟨by decide⟩

abbrev State := Fin 4 → Fin 4 → UInt8

abbrev Word := Fin 4 → UInt8

def subBytes (s : State) : State := fun r c => sBox (s r c)

def shiftRows (s : State) : State := fun r c => s r (c + r)

/-- The product of two polynomials with four coefficients modulo `x^4 + 1`. -/
def wordMul (a s : Word) : Word := fun i =>
  gfMul (a i) (s 0) ^^^ gfMul (a (i - 1)) (s 1) ^^^ gfMul (a (i - 2)) (s 2) ^^^
    gfMul (a (i - 3)) (s 3)

/-- `{03}x^3 + {01}x^2 + {01}x + {02}`. -/
def mixPoly : Word := ![0x02, 0x01, 0x01, 0x03]

def mixColumns (s : State) : State := fun r c => wordMul mixPoly (fun i => s i c) r

def addRoundKey (s : State) (w : ℕ → Word) (round : ℕ) : State :=
  fun r c => s r c ^^^ w (4 * round + c) r

def rotWord (w : Word) : Word := fun i => w (i + 1)

def subWord (w : Word) : Word := fun i => sBox (w i)

/-- The powers of `x` in the first byte. -/
def rcon (j : ℕ) : Word := ![gfPow 0x02 (j - 1), 0, 0, 0]

def keyExpansion (key : Vector UInt8 16) (i : ℕ) : Word :=
  if i < 4 then fun j => key.toList.getD (4 * i + j) 0
  else
    let temp := keyExpansion key (i - 1)
    let temp := if i % 4 = 0 then fun j => subWord (rotWord temp) j ^^^ rcon (i / 4) j else temp
    fun j => keyExpansion key (i - 4) j ^^^ temp j
termination_by i

theorem keyExpansion_key (key : Vector UInt8 16) (i : ℕ) (hi : i < 4) (j : Fin 4) :
    keyExpansion key i j = key.toList.getD (4 * i + j) 0 := by
  rw [keyExpansion, if_pos hi]

theorem keyExpansion_first (key : Vector UInt8 16) (i : ℕ) (hi : 4 ≤ i) (h4 : i % 4 = 0)
    (j : Fin 4) : keyExpansion key i j = keyExpansion key (i - 4) j ^^^
      (sBox (keyExpansion key (i - 1) (j + 1)) ^^^ rcon (i / 4) j) := by
  rw [keyExpansion, if_neg (by omega), if_pos h4]
  rfl

theorem keyExpansion_other (key : Vector UInt8 16) (i : ℕ) (hi : 4 ≤ i) (h4 : i % 4 ≠ 0)
    (j : Fin 4) : keyExpansion key i j = keyExpansion key (i - 4) j ^^^
      keyExpansion key (i - 1) j := by
  rw [keyExpansion, if_neg (by omega), if_neg h4]

def ofBlock (b : Vector UInt8 16) : State := fun r c => b.get ⟨r + 4 * c, by omega⟩

theorem row_lt (k : Fin 16) : k.val % 4 < 4 := Nat.mod_lt _ (by decide)

theorem column_lt (k : Fin 16) : k.val / 4 < 4 := Nat.div_lt_of_lt_mul k.isLt

def toBlock (s : State) : Vector UInt8 16 :=
  Vector.ofFn fun k : Fin 16 => s ⟨k % 4, row_lt k⟩ ⟨k / 4, column_lt k⟩

def round (w : ℕ → Word) (s : State) (i : ℕ) : State :=
  addRoundKey (mixColumns (shiftRows (subBytes s))) w i

/-- The cipher with ten rounds, the last without the column mix. -/
def cipher (key block : Vector UInt8 16) : Vector UInt8 16 :=
  let w := keyExpansion key
  let s := addRoundKey (ofBlock block) w 0
  let s := (List.range' 1 9).foldl (round w) s
  toBlock (addRoundKey (shiftRows (subBytes s)) w 10)

end Fips197
