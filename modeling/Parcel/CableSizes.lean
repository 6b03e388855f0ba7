import Parcel.Receiving

/-!
# Sizes of a received cable

The sizes that the functions of `cable.c` compute from the length field of a header. The
peer sends the field, and no function compares it with the size of the header that it
counts: the block is reallocated to the length, and the rest is received behind the
header, also when the block is too small for one.
-/

namespace Parcel
open ByteStrings

/-- The size of the block after `xrealloc`, the bytes that `xrecvall` is asked for, and
the length of the payload. -/
structure CableSizes where
  block : ℕ
  remaining : ℕ
  payload : ℕ
  deriving DecidableEq

/-- The sizes for a header, once its signature is accepted. A failed `xrealloc` ends the
process, so that there are none. -/
def cableSizes (allocates : ℕ → Bool) (cable : Cable) : Option CableSizes :=
  if cableCheckSignature cable && allocates (cableGetTotalLen cable) then
    some ⟨cableGetTotalLen cable, sizeSub (cableGetTotalLen cable) cableSize,
      cableGetPayloadLen cable⟩
  else none

/-- The differences are those of the numbers, and the header and what is received
behind it fill the block. -/
structure CableSizes.Sound (sizes : CableSizes) : Prop where
  remaining_eq : (sizes.remaining : ℤ) = sizes.block - cableSize
  payload_eq : (sizes.payload : ℤ) = sizes.block - cableSize
  fits : cableSize + sizes.remaining = sizes.block

theorem cableRecvRemaining_eq {allocates : ℕ → Bool} {cable : Cable} {sizes : CableSizes}
    (h : cableSizes allocates cable = some sizes) (s : Sock) :
    cableRecvRemaining s cable =
      (xrecvall s sizes.remaining).map fun r => (r.1, { cable with data := r.2.1 }, r.2.2) := by
  rw [cableSizes] at h
  split at h
  · obtain rfl := Option.some.inj h
    rfl
  · cases h

theorem sizeSub_sound_iff {a b : ℕ} (ha : a < 2 ^ 64) (hb : b < 2 ^ 64) :
    (sizeSub a b : ℤ) = a - b ↔ b ≤ a := by
  rw [sizeSub]
  omega

theorem cableGetTotalLen_lt (cable : Cable) : cableGetTotalLen cable < 2 ^ 64 := by
  have h := packLE_lt cable.len.toList
  rw [Vector.length_toList] at h
  exact h

theorem sound_of_header {allocates : ℕ → Bool} {cable : Cable} {sizes : CableSizes}
    (h : cableSizes allocates cable = some sizes) (hheader : cableSize ≤ cableGetTotalLen cable) :
    cableSize + sizes.remaining = sizes.block := by
  rw [cableSizes] at h
  split at h
  · obtain rfl := Option.some.inj h
    change cableSize + sizeSub _ cableSize = _
    rw [sizeSub_eq hheader (cableGetTotalLen_lt cable)]
    exact Nat.add_sub_cancel' hheader
  · cases h

/-- The sizes are sound exactly for a length field that counts the header. -/
theorem cable_lengths_sound_iff (allocates : ℕ → Bool) (cable : Cable) :
    (∀ sizes, cableSizes allocates cable = some sizes → sizes.Sound) ↔
      (cableCheckSignature cable = true → allocates (cableGetTotalLen cable) = true →
        14 ≤ cableGetTotalLen cable) := by
  have hlt := cableGetTotalLen_lt cable
  have hsub := sizeSub_sound_iff hlt (b := cableSize) (by decide)
  constructor
  · intro h hsig halloc
    have haccepted : (cableCheckSignature cable && allocates (cableGetTotalLen cable)) = true := by
      rw [hsig, halloc]
      rfl
    exact hsub.mp (h _ (if_pos haccepted)).remaining_eq
  · intro h sizes hsizes
    have hfits := sound_of_header hsizes
    rw [cableSizes] at hsizes
    split at hsizes
    · rename_i haccepted
      obtain ⟨hsig, halloc⟩ := Bool.and_eq_true_iff.mp haccepted
      obtain rfl := Option.some.inj hsizes
      -- Both callers subtract the same header, since the payload begins right behind it.
      have hle : cableSize ≤ cableGetTotalLen cable := h hsig halloc
      exact ⟨hsub.mpr hle, hsub.mpr hle, hfits hle⟩
    · cases hsizes

/-- The length counts one byte less than the header has. -/
def shortLength : Cable := ⟨cableSignature, wireUnpack64 13, []⟩

theorem short_length_wraps :
    ∃ cable, cableCheckSignature cable = true ∧
      ∃ sizes, cableSizes (fun _ => true) cable = some sizes ∧ sizes.block = 13 ∧
        sizes.remaining = 2 ^ 64 - 1 ∧ ¬sizes.Sound := by
  refine ⟨shortLength, by decide, ⟨13, 2 ^ 64 - 1, 2 ^ 64 - 1⟩, by decide +kernel, rfl, rfl, ?_⟩
  intro h
  exact absurd h.fits (by decide)

theorem xrecvall_length_le {s s' : Sock} {n : ℕ} {ok : Bool} {got : List UInt8}
    (h : xrecvall s n = some (ok, got, s')) : got.length ≤ n := by
  induction n using Nat.strong_induction_on generalizing s s' ok got with
  | _ n ih =>
    by_cases hn : n = 0
    · rw [xrecvall, dif_pos hn] at h
      simp only [Option.some.injEq, Prod.mk.injEq] at h
      rw [← h.2.1]
      exact Nat.zero_le n
    · rw [xrecvall, dif_neg hn] at h
      split at h
      · simp only [Option.some.injEq, Prod.mk.injEq] at h
        rw [← h.2.1]
        exact Nat.zero_le n
      · cases h
      · cases h
      next first rest hrecv =>
        -- A partial `recv`: the loop goes on with what is missing.
        obtain ⟨⟨ok', more, s₁⟩, hmore, heq⟩ := Option.map_eq_some_iff.mp h
        simp only [Prod.mk.injEq] at heq
        obtain ⟨-, rfl, -⟩ := heq
        have hlen := ih (n - first.length) (xrecv_progress hn hrecv) hmore
        have hle := xrecv_length_le hrecv
        rw [List.length_append]
        omega

/-- With a shorter length the count has wrapped, and is above anything a peer can send. -/
theorem wrapped_of_short {allocates : ℕ → Bool} {cable : Cable} {sizes : CableSizes}
    (h : cableSizes allocates cable = some sizes) (hshort : cableGetTotalLen cable < cableSize) :
    sizes.block < cableSize ∧ 2 ^ 63 ≤ sizes.remaining := by
  rw [cableSizes] at h
  split at h
  · obtain rfl := Option.some.inj h
    refine ⟨hshort, ?_⟩
    change 2 ^ 63 ≤ sizeSub (cableGetTotalLen cable) cableSize
    rw [cableSize] at hshort
    rw [sizeSub, cableSize]
    omega
  · cases h

/-- What a peer sends behind the header of a cable stays in the block for every length that
counts the header, and fills it when all arrives. With a shorter one the peer writes what it
likes behind the block. -/
theorem cable_block_written (allocates : ℕ → Bool) (cable : Cable) (sizes : CableSizes)
    (h : cableSizes allocates cable = some sizes) :
    (cableSize ≤ cableGetTotalLen cable → ∀ s ok cable' s',
      cableRecvRemaining s cable = some (ok, cable', s') →
        cable'.bytes.length ≤ sizes.block ∧ (ok = true → cable'.bytes.length = sizes.block)) ∧
    (cableGetTotalLen cable < cableSize → sizes.block < cableSize ∧
      ∀ s : Sock, s.ending = .failed → s.stream.length < 2 ^ 63 →
        ∃ s', cableRecvRemaining s cable = some (false, { cable with data := s.stream }, s')) := by
  have hremaining := cableRecvRemaining_eq h
  constructor
  · intro hheader s ok cable' s' hrecv
    have hfits := sound_of_header h hheader
    rw [hremaining] at hrecv
    obtain ⟨⟨ok', got, s₁⟩, hgot, heq⟩ := Option.map_eq_some_iff.mp hrecv
    obtain ⟨rfl, rfl, rfl⟩ : ok' = ok ∧ { cable with data := got } = cable' ∧ s₁ = s' := by
      simpa using heq
    have hle := xrecvall_length_le hgot
    rw [Cable.bytes_length]
    change cableSize + got.length ≤ _ ∧ (_ → cableSize + got.length = _)
    constructor
    · omega
    · rintro rfl
      rw [xrecvall_length hgot, hfits]
  · intro hshort
    obtain ⟨hblock, hwrapped⟩ := wrapped_of_short h hshort
    refine ⟨hblock, fun s hend hlen => ⟨s.advance s.stream.length, ?_⟩⟩
    rw [hremaining, ← xrecvallWithin_eq_xrecvall s le_rfl,
      xrecvallWithin_error s (hlen.trans_le hwrapped) le_rfl hend, Option.map_some]

/-- A length one byte short: the peer's five bytes land behind a block of thirteen. -/
theorem cable_block_written_short :
    ∃ sizes s', cableSizes (fun _ => true) shortLength = some sizes ∧ sizes.block = 13 ∧
      cableRecvRemaining ⟨[1, 2, 3, 4, 5], 0, fun _ => 5, .failed⟩ shortLength =
        some (false, { shortLength with data := [1, 2, 3, 4, 5] }, s') := by
  have hsizes : cableSizes (fun _ => true) shortLength = some ⟨13, 2 ^ 64 - 1, 2 ^ 64 - 1⟩ := by
    decide +kernel
  obtain ⟨-, hshort⟩ := cable_block_written _ shortLength _ hsizes
  obtain ⟨-, hwritten⟩ := hshort (by decide +kernel)
  obtain ⟨s', hs'⟩ := hwritten ⟨[1, 2, 3, 4, 5], 0, fun _ => 5, .failed⟩ rfl (by decide)
  exact ⟨_, s', hsizes, rfl, hs'⟩

end Parcel
