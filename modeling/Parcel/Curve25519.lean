import Parcel.LadderPoints
import Parcel.LucasTest

/-!
# Curve25519

The prime of the field is prime, and over the algebraic closure every element of the
field is the u-coordinate of a point, on the curve or on its twist alike.
-/

open Montgomery WeierstrassCurve.Affine Lucas

namespace Rfc7748

theorem prime_2773320623 : Nat.Prime 2773320623 := by
  have hroot : IsRoot 32 2773320623 5 [2, 2437, 569003] := by decide +kernel
  exact hroot.prime ⟨by norm_num, by norm_num, by norm_num⟩

theorem prime_72106336199 : Nat.Prime 72106336199 := by
  have hroot : IsRoot 64 72106336199 7 [2, 13, 2773320623] := by decide +kernel
  exact hroot.prime ⟨by norm_num, by norm_num, prime_2773320623⟩

theorem prime_1919519569386763 : Nat.Prime 1919519569386763 := by
  have hroot : IsRoot 64 1919519569386763 2 [2, 3, 7, 19, 47, 47, 127, 8574133] := by
    decide +kernel
  apply hroot.prime
  refine ⟨?_, ?_, ?_, ?_, ?_, ?_, ?_, ?_⟩ <;> norm_num

theorem prime_31757755568855353 : Nat.Prime 31757755568855353 := by
  have hroot : IsRoot 64 31757755568855353 10 [2, 2, 2, 3, 31, 107, 223, 4153, 430751] := by
    decide +kernel
  apply hroot.prime
  refine ⟨?_, ?_, ?_, ?_, ?_, ?_, ?_, ?_, ?_⟩ <;> norm_num

theorem prime_75445702479781427272750846543864801 :
    Nat.Prime 75445702479781427272750846543864801 := by
  have hroot : IsRoot 128 75445702479781427272750846543864801 7
      [72106336199, 1919519569386763, 2, 2, 2, 2, 2, 3, 3, 5, 5, 75707] := by
    decide +kernel
  apply hroot.prime
  refine ⟨prime_72106336199, prime_1919519569386763, ?_, ?_, ?_, ?_, ?_, ?_, ?_, ?_, ?_, ?_⟩ <;>
    norm_num

theorem prime_factor :
    Nat.Prime 74058212732561358302231226437062788676166966415465897661863160754340907 := by
  have hroot : IsRoot 256 74058212732561358302231226437062788676166966415465897661863160754340907 2
      [31757755568855353, 75445702479781427272750846543864801, 2, 3, 353, 57467, 132049,
        1923133] := by
    decide +kernel
  apply hroot.prime
  refine ⟨prime_31757755568855353, prime_75445702479781427272750846543864801,
    ?_, ?_, ?_, ?_, ?_, ?_⟩ <;> norm_num

theorem p_prime : p.Prime := by
  have hroot : IsRoot 255 p 2 [2, 2, 3, 65147,
      74058212732561358302231226437062788676166966415465897661863160754340907] := by
    decide +kernel
  exact hroot.prime ⟨Nat.prime_two, Nat.prime_two, Nat.prime_three, by norm_num, prime_factor⟩

theorem p_prime_fact : Fact p.Prime := ⟨p_prime⟩

attribute [local instance] p_prime_fact

abbrev Closure : Type := AlgebraicClosure (ZMod p)

noncomputable instance Closure.decidableEq : DecidableEq Closure := Classical.decEq Closure

/-- Curve25519 and its twist: over the closure they are one curve. -/
noncomputable abbrev Curve25519 : WeierstrassCurve.Affine Closure := curve 486662

noncomputable def embed : ZMod p →+* Closure := algebraMap (ZMod p) Closure

theorem embed_injective : Function.Injective embed := embed.injective

theorem natCast_ne_zero {n : ℕ} (hn : 0 < n) (hlt : n < p) : (n : Closure) ≠ 0 := by
  intro h
  rw [CharP.cast_eq_zero_iff Closure p n] at h
  exact absurd (Nat.le_of_dvd hn h) (by omega)

theorem two_ne_zero_closure : (2 : Closure) ≠ 0 := by
  have h := natCast_ne_zero (n := 2) (by norm_num) (by rw [p]; norm_num)
  exact_mod_cast h

theorem coefficient_sq_ne_four : (486662 : Closure) ^ 2 ≠ 4 := by
  have h := natCast_ne_zero (n := 486662 ^ 2 - 4) (by norm_num) (by rw [p]; norm_num)
  rw [← sub_ne_zero]
  have hsub : (486662 : Closure) ^ 2 - 4 = ((486662 ^ 2 - 4 : ℕ) : Closure) := by
    norm_num
  rw [hsub]
  exact h

theorem exists_point (u : ZMod p) : ∃ Q : Curve25519.Point, uCoordinate Q = embed u := by
  obtain ⟨y, hy⟩ := IsAlgClosed.exists_pow_nat_eq
    (embed u ^ 3 + 486662 * embed u ^ 2 + embed u) (n := 2) (by norm_num)
  exact ⟨.some _ y (nonsingular two_ne_zero_closure coefficient_sq_ne_four hy), rfl⟩

theorem mul_pow_eq_div (x z : ZMod p) : x * z ^ (p - 2) = x / z := by
  by_cases hz : z = 0
  · have hexponent : p - 2 ≠ 0 := by
      rw [p]
      norm_num
    rw [hz, div_zero, zero_pow hexponent, mul_zero]
  · have hexponent : p - 2 + 1 = p - 1 := by
      rw [p]
      norm_num
    rw [eq_div_iff hz, mul_assoc, ← pow_succ, hexponent, ZMod.pow_card_sub_one_eq_one hz, mul_one]

theorem ladder_embed {Q : Curve25519.Point} {u : ZMod p} (hQ : uCoordinate Q = embed u)
    (k : ℕ → Bool) (t : ℕ) : (eagerLoop 121665 u k t ⟨1, 0, u, 1⟩).map embed =
      eagerLoop 121665 (uCoordinate Q) k t ⟨1, 0, uCoordinate Q, 1⟩ := by
  have hstart : Ladder.map embed ⟨1, 0, u, 1⟩ = ⟨1, 0, uCoordinate Q, 1⟩ := by
    rw [Ladder.map, map_one, map_zero, hQ]
  rw [eagerLoop_map, hstart, map_ofNat, hQ]

theorem curve_a24 : 4 * (121665 : Closure) = 486662 - 2 := by
  norm_num

/-- The ladder on a u-coordinate and a scalar of `t` bits ends in the u-coordinate of
the multiple of a point over it. -/
theorem ladder_multiple {Q : Curve25519.Point} {u : ZMod p} (hQ : uCoordinate Q = embed u) (k : ℕ)
    {t : ℕ} (ht : 0 < t) {s : Ladder (ZMod p)}
    (hs : s = eagerLoop 121665 u k.testBit t ⟨1, 0, u, 1⟩) :
    embed (s.x₂ * s.z₂ ^ (p - 2)) = uCoordinate ((k % 2 ^ t) • Q) := by
  have hmap := ladder_embed hQ k.testBit t
  rw [← hs] at hmap
  have hend := eagerLoop_uCoordinate two_ne_zero_closure coefficient_sq_ne_four curve_a24 Q k ht
  rw [← hmap] at hend
  rw [mul_pow_eq_div, map_div₀]
  exact hend

/-- The multiple is infinity where the ladder ends without a denominator. -/
theorem nsmul_eq_zero_of_ladder {Q : Curve25519.Point} {u : ZMod p} (hQ : uCoordinate Q = embed u)
    (hu : u ≠ 0) (k t : ℕ) (hz : (eagerLoop 121665 u k.testBit t ⟨1, 0, u, 1⟩).z₂ = 0) :
    (k % 2 ^ t) • Q = 0 := by
  have hne : uCoordinate Q ≠ 0 := by
    rw [hQ]
    exact (map_ne_zero embed).mpr hu
  have hend := reached_of_start two_ne_zero_closure coefficient_sq_ne_four curve_a24 hne k t
  rw [← ladder_embed hQ] at hend
  have hinfinity := hend.current
  rw [Ladder.map, hz, map_zero] at hinfinity
  exact hinfinity.eq_zero

theorem decode_ofFn (v n : ℕ) :
    decodeLittleEndian (List.ofFn fun k : Fin n => UInt8.ofNat (v >>> (8 * k.val))) =
      v % 256 ^ n := by
  induction n generalizing v with
  | zero => rw [List.ofFn_zero, pow_zero, Nat.mod_one, decodeLittleEndian, List.foldr_nil]
  | succ n ih =>
    have hrest : (fun k : Fin n => UInt8.ofNat (v >>> (8 * k.succ.val))) =
        fun k : Fin n => UInt8.ofNat ((v / 256) >>> (8 * k.val)) := by
      funext k
      rw [Fin.val_succ, Nat.mul_add, Nat.add_comm, Nat.shiftRight_add, mul_one,
        Nat.shiftRight_eq_div_pow v 8]
    have hcons (b : UInt8) (l : List UInt8) :
        decodeLittleEndian (b :: l) = b.toNat + 256 * decodeLittleEndian l := rfl
    rw [List.ofFn_succ, hcons, hrest, ih, pow_succ', Nat.mod_mul]
    congr 1

theorem decode_encode (u : ZMod p) : decodeUCoordinate (encodeUCoordinate u) = u := by
  have hlt : u.val < p := ZMod.val_lt u
  have hp : p < 2 ^ 255 := by
    rw [p]
    norm_num
  have hbytes : decodeLittleEndian (encodeUCoordinate u).toList = u.val % 256 ^ 32 := by
    rw [encodeUCoordinate, Vector.toList_ofFn, decode_ofFn]
  have hval : u.val % 256 ^ 32 % 2 ^ 255 = u.val := by
    rw [Nat.mod_eq_of_lt (by omega), Nat.mod_eq_of_lt (by omega)]
  rw [decodeUCoordinate, hbytes, hval, ZMod.natCast_zmod_val]

end Rfc7748
