import Parcel.Curve25519
import Parcel.GroupKey
import Parcel.X25519Reference

/-!
# Diffie-Hellman with the function of `x25519.c`

The function multiplies points of Curve25519 and of its twist, so the order of two
secrets does not matter, and the exchange between all clients ends in the product of
their secrets. No public key is refused, so a point of small order fixes the secret.
-/

open Montgomery Rfc7748

namespace Parcel.X25519

/-- The number of the 255 bits of a secret that the loop reads. -/
def scalar (secret : Vector UInt8 32) : ℕ := decodeLittleEndian secret.toList % 2 ^ 255

def ladderEnd (secret point : Vector UInt8 32) : Ladder (ZMod p) :=
  eagerLoop (121665 : ℕ) (decodeUCoordinate point) (decodeLittleEndian secret.toList).testBit 255
    ⟨1, 0, decodeUCoordinate point, 1⟩

theorem ladderEnd_eq (secret point : Vector UInt8 32) : ladderEnd secret point =
    eagerLoop 121665 (decodeUCoordinate point) (decodeLittleEndian secret.toList).testBit 255
      ⟨1, 0, decodeUCoordinate point, 1⟩ := by
  rw [ladderEnd, Nat.cast_ofNat]

theorem x25519_ladderEnd (secret point : Vector UInt8 32) : x25519 secret point =
    encodeUCoordinate ((ladderEnd secret point).x₂ * (ladderEnd secret point).z₂ ^ (p - 2)) := by
  have hx := unpack_reduced point
  have hu := unpack_residue point
  have hturns := turns_spec hx secret (t := 255) (by omega)
    (s := ⟨(Limbs.zero 16).put 0 1, unpack point, Limbs.zero 16, (Limbs.zero 16).put 0 1⟩)
    ⟨one_spec.1, hx, zero_spec.1, one_spec.1⟩
  have hstart : Inputs.residues
      ⟨(Limbs.zero 16).put 0 1, unpack point, Limbs.zero 16, (Limbs.zero 16).put 0 1⟩ =
        ⟨1, 0, decodeUCoordinate point, 1⟩ := by
    rw [Inputs.residues, one_spec.2, zero_spec.2, hu]
  dsimp only at hturns
  rw [hstart, hu, ← ladderEnd_eq] at hturns
  obtain ⟨hreduced, hresidues⟩ := hturns
  have hinverse := inverse_spec hreduced.c
  have hresult := multiply_spec hreduced.a.small hinverse.1.small
  rw [x25519, pack_spec hresult.1, hresult.2, hinverse.2, ← hresidues]
  rfl

theorem x25519_of_ladderEnd {secret point u : Vector UInt8 32}
    (hz : (ladderEnd secret point).z₂ ≠ 0)
    (hx : (ladderEnd secret point).x₂ = decodeUCoordinate u * (ladderEnd secret point).z₂)
    (hcanonical : encodeUCoordinate (decodeUCoordinate u) = u) : x25519 secret point = u := by
  have hprime := p_prime_fact
  have hinverse : (ladderEnd secret point).z₂ * (ladderEnd secret point).z₂ ^ (p - 2) = 1 := by
    rw [← pow_succ', show p - 2 + 1 = p - 1 by decide +kernel]
    exact ZMod.pow_card_sub_one_eq_one hz
  rw [x25519_ladderEnd, hx, mul_assoc, hinverse, mul_one, hcanonical]

/-- The function multiplies: on the encoding of the u-coordinate of a point, canonical or
not, it returns the canonical one of the multiple by the secret, infinity being zero. -/
theorem x25519_multiple (secret point : Vector UInt8 32) {Q : Curve25519.Point}
    (hQ : uCoordinate Q = embed (decodeUCoordinate point)) :
    ∃ u, x25519 secret point = encodeUCoordinate u ∧ embed u = uCoordinate (scalar secret • Q) :=
  ⟨_, x25519_ladderEnd secret point, ladder_multiple hQ _ (by norm_num) (ladderEnd_eq secret point)⟩

theorem foldr_multiple (secrets : List (Vector UInt8 32)) (point : Vector UInt8 32)
    {Q : Curve25519.Point} (hQ : uCoordinate Q = embed (decodeUCoordinate point)) :
    embed (decodeUCoordinate (secrets.foldr x25519 point)) =
      uCoordinate ((secrets.map scalar).prod • Q) := by
  induction secrets with
  | nil => rw [List.foldr_nil, List.map_nil, List.prod_nil, one_nsmul, hQ]
  | cons a secrets ih =>
    obtain ⟨u, hu, hmultiple⟩ := x25519_multiple a _ ih.symm
    rw [List.foldr_cons, hu, decode_encode, hmultiple, List.map_cons, List.prod_cons, mul_nsmul']

theorem foldr_canonical {secrets : List (Vector UInt8 32)} (hne : secrets ≠ [])
    (point : Vector UInt8 32) {Q : Curve25519.Point}
    (hQ : uCoordinate Q = embed (decodeUCoordinate point)) :
    ∃ u, secrets.foldr x25519 point = encodeUCoordinate u ∧
      embed u = uCoordinate ((secrets.map scalar).prod • Q) := by
  cases secrets with
  | nil => exact absurd rfl hne
  | cons a secrets =>
    have hmultiple := foldr_multiple (a :: secrets) point hQ
    obtain ⟨u, hu, -⟩ := x25519_multiple a _ (foldr_multiple secrets point hQ).symm
    rw [← List.foldr_cons (f := x25519)] at hu
    rw [hu, decode_encode] at hmultiple
    exact ⟨u, hu, hmultiple⟩

theorem foldr_perm {secrets secrets' : List (Vector UInt8 32)} (hperm : secrets.Perm secrets')
    (point : Vector UInt8 32) : secrets.foldr x25519 point = secrets'.foldr x25519 point := by
  by_cases hne : secrets = []
  · subst hne
    rw [hperm.nil_eq]
  · obtain ⟨Q, hQ⟩ := exists_point (decodeUCoordinate point)
    have hne' : secrets' ≠ [] := fun h => hne (h ▸ hperm).eq_nil
    obtain ⟨u, hu, hmultiple⟩ := foldr_canonical hne point hQ
    obtain ⟨u', hu', hmultiple'⟩ := foldr_canonical hne' point hQ
    rw [(hperm.map scalar).prod_eq, ← hmultiple'] at hmultiple
    rw [hu, hu', embed_injective hmultiple]

/-- Secrets in any order lead to the same public key, which encodes the multiple of the
point by their product. -/
theorem diffie_hellman (secrets secrets' : List (Vector UInt8 32)) (point : Vector UInt8 32)
    (hperm : secrets.Perm secrets') :
    secrets.foldr x25519 point = secrets'.foldr x25519 point ∧
      (secrets ≠ [] → ∀ Q : Curve25519.Point, uCoordinate Q = embed (decodeUCoordinate point) →
        ∃ u, secrets.foldr x25519 point = encodeUCoordinate u ∧
          embed u = uCoordinate ((secrets.map scalar).prod • Q)) :=
  ⟨foldr_perm hperm point, fun hne _ hQ => foldr_canonical hne point hQ⟩

/-- Two secrets at the base point. -/
theorem diffie_hellman_two : ∃ Q : Curve25519.Point,
    uCoordinate Q = embed (decodeUCoordinate basepoint) ∧
      let a := Vector.replicate 32 1
      let b := Vector.replicate 32 2
      x25519 a (x25519 b basepoint) = x25519 b (x25519 a basepoint) ∧
        ∃ u, x25519 a (x25519 b basepoint) = encodeUCoordinate u ∧
          embed u = uCoordinate ((scalar a * (scalar b * 1)) • Q) := by
  obtain ⟨Q, hQ⟩ := exists_point (decodeUCoordinate basepoint)
  obtain ⟨hcomm, hcanonical⟩ := diffie_hellman [Vector.replicate 32 1, Vector.replicate 32 2]
    [Vector.replicate 32 2, Vector.replicate 32 1] basepoint (List.Perm.swap _ _ _)
  exact ⟨Q, hQ, hcomm, hcanonical (List.cons_ne_nil _ _) Q hQ⟩

section

open Process

variable (n : ℕ) (rnd : ℕ → Key) (session : Key)

def secretKeys : List Key := (List.range' 1 n).map fun i => pointD (rnd i)

theorem groupKey_eq :
    groupKey x25519 n rnd =
      Fips180.sha256 ((secretKeys n rnd).foldr x25519 basepoint).toList := by
  rw [groupKey, nested, secretKeys, List.foldr_map]

theorem pointD_comm (a b u : Key) :
    x25519 (pointD a) (x25519 (pointD b) u) = x25519 (pointD b) (x25519 (pointD a) u) :=
  foldr_perm (List.Perm.swap (pointD b) (pointD a) []) u

/-- Whatever the interleaving, the exchange does not get stuck, and it ends with all
clients holding the digest of the base point times the product of their secrets. -/
theorem group_key_is_product (hn : 2 ≤ n) (B : Curve25519.Point)
    (hB : uCoordinate B = embed (decodeUCoordinate basepoint)) (s : Net ℕ UInt8 Outcome)
    (hs : Net.Steps (exchangeStart x25519 n rnd session) s) :
    (¬s.Final → ∃ s', s.Step s') ∧
      (s.Final → ∃ u, embed u = uCoordinate (((secretKeys n rnd).map scalar).prod • B) ∧
        s.proc daemon = .ret (.rotated true) ∧
        (∀ i, 1 ≤ i → i ≤ n →
          s.proc i = .ret (.agreed (Fips180.sha256 (encodeUCoordinate u).toList))) ∧
        ∀ a b, s.chan a b = []) := by
  have hne : secretKeys n rnd ≠ [] := by
    apply List.ne_nil_of_length_pos
    rw [secretKeys, List.length_map, List.length_range']
    omega
  obtain ⟨hprogress, hunique⟩ :=
    (roundStart_last_final x25519 n rnd session).unique (exchange_steps hn) hs
  refine ⟨hprogress, fun hfinal => ?_⟩
  obtain ⟨u, hu, hproduct⟩ := foldr_canonical hne basepoint hB
  have hagreed := roundStart_last_agreed n rnd session pointD_comm
  rw [← hunique hfinal] at hagreed
  refine ⟨u, hproduct, hagreed.server, ?_, hagreed.quiet⟩
  intro i hi hin
  rw [hagreed.client i hi hin, groupKey_eq, hu]

/-- Two clients, and the end of their exchange. -/
theorem group_key_is_product_two : ∃ B : Curve25519.Point,
    uCoordinate B = embed (decodeUCoordinate basepoint) ∧
      let s := roundStart x25519 2 threeSecrets (Vector.replicate 32 0) 1
      Net.Steps (exchangeStart x25519 2 threeSecrets (Vector.replicate 32 0)) s ∧ s.Final ∧
        ∃ u, embed u = uCoordinate (((secretKeys 2 threeSecrets).map scalar).prod • B) ∧
          s.proc 1 = .ret (.agreed (Fips180.sha256 (encodeUCoordinate u).toList)) ∧
          s.proc 2 = .ret (.agreed (Fips180.sha256 (encodeUCoordinate u).toList)) := by
  obtain ⟨B, hB⟩ := exists_point (decodeUCoordinate basepoint)
  have hn : 2 ≤ 2 := le_rfl
  have hsteps : Net.Steps (exchangeStart x25519 2 threeSecrets (Vector.replicate 32 0))
      (roundStart x25519 2 threeSecrets (Vector.replicate 32 0) 1) := exchange_steps hn
  have hfinal := roundStart_last_final x25519 2 threeSecrets (Vector.replicate 32 0)
  obtain ⟨u, hu, -, hclients, -⟩ :=
    (group_key_is_product 2 threeSecrets (Vector.replicate 32 0) hn B hB _ hsteps).2 hfinal
  exact ⟨B, hB, hsteps, hfinal, u, hu, hclients 1 le_rfl (by omega), hclients 2 (by omega) le_rfl⟩

end

end Parcel.X25519
