import Parcel.X25519Codec

/-!
# X25519 and its reference

The ladder of `x25519.c` keeps four reduced elements whose residues are the variables
of the RFC 7748 ladder, so the function computes the one of the RFC.
-/

namespace Parcel.X25519
open Rfc7748

/-- The residues of the four elements, as the variables of the ladder. -/
def Inputs.residues (s : Inputs) : Ladder (ZMod p) :=
  ⟨s.a.residue, s.c.residue, s.b.residue, s.d.residue⟩

structure Inputs.Reduced (s : Inputs) : Prop where
  a : s.a.Reduced
  b : s.b.Reduced
  c : s.c.Reduced
  d : s.d.Reduced

section

variable {x : Limbs 16} {s : Inputs}

theorem square_spec {a : Limbs 16} (ha : a.Within (2 ^ 18)) :
    (square a).Reduced ∧ (square a).residue = a.residue ^ 2 := by
  obtain ⟨hreduced, hresidue⟩ := multiply_spec ha ha
  exact ⟨hreduced, by rw [square, hresidue, sq]⟩

theorem c1db41_spec : c1db41.Within (2 ^ 18) ∧ c1db41.residue = 121665 := by
  have hz : c1db41.z = Function.update (Function.update (fun _ => 0) 0 0xdb41) 1 1 := by
    have hzero : (Limbs.zero 16).z = fun _ => 0 := funext fun j => z_zero j
    unfold c1db41
    rw [z_put _ (by omega), z_put _ (by omega), hzero]
    rfl
  constructor
  · intro j
    rw [hz, Function.update_apply, Function.update_apply]
    split
    · norm_num
    · split <;> norm_num
  · unfold Limbs.residue Limbs.value
    rw [hz, Radix.value_update _ (by omega), Radix.value_update _ (by omega), Radix.value_zero]
    norm_num [Function.update_apply]

theorem ladder_spec (hx : x.Reduced) (hs : s.Reduced) :
    (s.ladder x).Reduced ∧ (s.ladder x).residues = s.residues.step 121665 x.residue := by
  obtain ⟨a, b, c, d⟩ := s
  obtain ⟨ha, hb, hc, hd⟩ := hs
  dsimp only at ha hb hc hd
  -- A, B, C and D of the RFC
  obtain ⟨hA, rA⟩ := add_spec ha hc
  obtain ⟨hB, rB⟩ := subtract_spec ha hc
  obtain ⟨hC, rC⟩ := add_spec hb hd
  obtain ⟨hD, rD⟩ := subtract_spec hb hd
  -- AA, BB, CB and DA
  obtain ⟨hAA, rAA⟩ := square_spec hA
  obtain ⟨hBB, rBB⟩ := square_spec hB
  obtain ⟨hCB, rCB⟩ := multiply_spec hC hB
  obtain ⟨hDA, rDA⟩ := multiply_spec hD hA
  -- the sum and difference of the last two, and E
  obtain ⟨hsum, rsum⟩ := add_spec hCB hDA
  obtain ⟨hdiff, rdiff⟩ := subtract_spec hCB hDA
  obtain ⟨hE, rE⟩ := subtract_spec hAA hBB
  obtain ⟨hdd, rdd⟩ := square_spec hdiff
  obtain ⟨hcE, rcE⟩ := multiply_spec hE c1db41_spec.1
  obtain ⟨hz, rz⟩ := add_spec hcE hAA
  -- the results
  obtain ⟨hx₂, rx₂⟩ := multiply_spec hAA.small hBB.small
  obtain ⟨hz₂, rz₂⟩ := multiply_spec hE hz
  obtain ⟨hz₃, rz₃⟩ := multiply_spec hdd.small hx.small
  obtain ⟨hx₃, rx₃⟩ := square_spec hsum
  refine ⟨⟨hx₂, hx₃, hz₂, hz₃⟩, ?_⟩
  unfold Inputs.ladder Inputs.residues Ladder.step subtractInplace addInplace
  dsimp only
  rw [rx₂, rx₃, rz₂, rz₃, rz, rcE, rdd, rE, rdiff, rsum, rDA, rCB, rBB, rAA, rD, rC, rB, rA,
    c1db41_spec.2]
  rw [Ladder.mk.injEq]
  refine ⟨rfl, ?_, ?_, ?_⟩
  · ring
  · ring
  · ring

theorem swap_spec (hs : s.Reduced) (bit : Bool) :
    (s.swap (if bit then 1 else 0)).Reduced ∧
      (s.swap (if bit then 1 else 0)).residues = s.residues.cswap bit := by
  unfold Inputs.swap
  rw [swap_eq, swap_eq]
  cases bit with
  | false => exact ⟨hs, rfl⟩
  | true => exact ⟨⟨hs.b, hs.a, hs.d, hs.c⟩, rfl⟩

theorem turn_spec (hx : x.Reduced) (hs : s.Reduced) (bit : Bool) :
    (turn x s (if bit then 1 else 0)).Reduced ∧
      (turn x s (if bit then 1 else 0)).residues =
        ((s.residues.cswap bit).step 121665 x.residue).cswap bit := by
  obtain ⟨hbefore, rbefore⟩ := swap_spec hs bit
  obtain ⟨hladder, rladder⟩ := ladder_spec hx hbefore
  obtain ⟨hafter, rafter⟩ := swap_spec hladder bit
  unfold turn
  exact ⟨hafter, by rw [rafter, rladder, rbefore]⟩

theorem turns_spec (hx : x.Reduced) (secret : Vector UInt8 32) {t : ℕ} (ht : t ≤ 256)
    (hs : s.Reduced) :
    let s' := (List.range t).reverse.foldl (fun s i => turn x s (keyBit secret i)) s
    s'.Reduced ∧ s'.residues = eagerLoop 121665 x.residue
      (decodeLittleEndian secret.toList).testBit t s.residues := by
  induction t generalizing s with
  | zero => exact ⟨hs, rfl⟩
  | succ t ih =>
    have hbit := keyBit_eq secret (i := t) (by omega)
    obtain ⟨hturn, rturn⟩ := turn_spec hx hs ((decodeLittleEndian secret.toList).testBit t)
    rw [← hbit] at hturn rturn
    obtain ⟨hrest, rrest⟩ := ih (by omega) hturn
    rw [List.range_succ, List.reverse_append, List.reverse_singleton, List.singleton_append,
      List.foldl_cons]
    exact ⟨hrest, by rw [rrest, rturn, eagerLoop]⟩

end

/-- The exponent that the turns of `inverse` have reached. -/
def inverseExponent (n : ℕ) : ℕ :=
  (List.range n).foldl (fun e i => if i ≠ 251 ∧ i ≠ 249 then 2 * e + 1 else 2 * e) 1

theorem inverse_spec {src : Limbs 16} (hsrc : src.Reduced) :
    (inverse src).Reduced ∧ (inverse src).residue = src.residue ^ (p - 2) := by
  have hturns (n : ℕ) : ((List.range n).foldl (fun elements i =>
      let elements := square elements
      if i ≠ 251 ∧ i ≠ 249 then multiply elements src else elements) src).Reduced ∧
      ((List.range n).foldl (fun elements i =>
        let elements := square elements
        if i ≠ 251 ∧ i ≠ 249 then multiply elements src else elements) src).residue =
          src.residue ^ inverseExponent n := by
    induction n with
    | zero => exact ⟨hsrc, (pow_one _).symm⟩
    | succ n ih =>
      unfold inverseExponent at ih ⊢
      rw [List.range_succ, List.foldl_append, List.foldl_append, List.foldl_cons, List.foldl_nil,
        List.foldl_cons, List.foldl_nil]
      obtain ⟨hreduced, hresidue⟩ := ih
      obtain ⟨hsquare, rsquare⟩ := square_spec hreduced.small
      dsimp only
      split
      · obtain ⟨hmul, rmul⟩ := multiply_spec hsquare.small hsrc.small
        refine ⟨hmul, ?_⟩
        rw [rmul, rsquare, hresidue, ← pow_mul, ← pow_succ, mul_comm]
      · refine ⟨hsquare, ?_⟩
        rw [rsquare, hresidue, ← pow_mul, mul_comm]
  have hexponent : inverseExponent 254 = p - 2 := by
    decide +kernel
  have h := hturns 254
  rw [hexponent] at h
  exact h

theorem one_spec : ((Limbs.zero 16).put 0 1).Reduced ∧ ((Limbs.zero 16).put 0 1).residue = 1 := by
  have hzero : (Limbs.zero 16).z = fun _ => 0 := funext fun j => z_zero j
  have hz : ((Limbs.zero 16).put 0 1).z = Function.update (fun _ => 0) 0 1 := by
    rw [z_put _ (by omega), hzero]
    rfl
  refine ⟨⟨?_, ?_⟩, ?_⟩
  · rw [hz, Function.update_self]
    norm_num
  · intro j hj
    rw [hz, Function.update_of_ne (by omega)]
    norm_num
  · unfold Limbs.residue Limbs.value
    rw [hz, Radix.value_update _ (by omega), Radix.value_zero]
    norm_num

theorem zero_spec : (Limbs.zero 16).Reduced ∧ (Limbs.zero 16).residue = 0 := by
  refine ⟨⟨?_, ?_⟩, ?_⟩
  · rw [z_zero]
    norm_num
  · intro j _
    rw [z_zero]
    norm_num
  · unfold Limbs.residue Limbs.value
    rw [Radix.value_congr fun j _ => z_zero j, Radix.value_zero, Int.cast_zero]

/-- The function `x25519` computes that of RFC 7748 on the unclamped scalar, for every
secret and every basepoint: the canonical encoding of `x₂ * z₂ ^ (p - 2)`. -/
theorem x25519_is_rfc7748 (secret basepoint : Vector UInt8 32) :
    x25519 secret basepoint = Rfc7748.x25519 secret basepoint := by
  have hx := unpack_reduced basepoint
  obtain ⟨hone, rone⟩ := one_spec
  obtain ⟨hzero, rzero⟩ := zero_spec
  have hstart : Inputs.Reduced ⟨(Limbs.zero 16).put 0 1, unpack basepoint, Limbs.zero 16,
    (Limbs.zero 16).put 0 1⟩ := ⟨hone, hx, hzero, hone⟩
  obtain ⟨hend, rend⟩ := turns_spec hx secret (t := 255) (by omega) hstart
  unfold x25519
  dsimp only at hend rend ⊢
  generalize (List.range 255).reverse.foldl
    (fun inputs i => turn (unpack basepoint) inputs (keyBit secret i)) _ = s at hend rend ⊢
  obtain ⟨hinverse, rinverse⟩ := inverse_spec hend.c
  obtain ⟨hresult, rresult⟩ := multiply_spec hend.a.small hinverse.small
  have hladder : s.residues = ladder 121665 (decodeUCoordinate basepoint)
      (decodeLittleEndian secret.toList).testBit 255 := by
    rw [rend, ladder_eq_eager, ← unpack_residue]
    unfold Inputs.residues
    dsimp only
    rw [rone, rzero]
  have hx₂ : s.a.residue = s.residues.x₂ := rfl
  have hz₂ : s.c.residue = s.residues.z₂ := rfl
  rw [pack_spec hresult, rresult, rinverse, hx₂, hz₂, hladder]
  rfl

end Parcel.X25519
