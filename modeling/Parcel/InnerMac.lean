import Parcel.Cmac
import Parcel.WireRoundTrip

/-!
# What the inner MAC authenticates

Two received wires that agree in the inner MAC and in the header ciphertext. The MAC
covers the ciphertext, and the plaintext depends on the IV as well, so that the header is
the same for both only with the same IV, or when neither IV lets the signature through.
-/

namespace Parcel
open ByteStrings Aes

section

variable (key : Key)

/-- The header that `decrypt_wire` works with after the inner MAC is verified. -/
def receivedHeader (w : Wire) : Header := (wireDecryptHeader (aes128Init w.iv key.cipher) w).2

/-- Two wires that pass `wire_verify_inner_mac` with one MAC and one header ciphertext. -/
structure SameInnerMac (w₁ w₂ : Wire) : Prop where
  mac_eq : w₁.macInner = w₂.macInner
  header_eq : w₁.header = w₂.header
  first : wireVerifyInnerMac (aes128InitCmac key.mac) w₁ = true
  second : wireVerifyInnerMac (aes128InitCmac key.mac) w₂ = true

/-- The MAC determines signature, length, alignment and type of the header. -/
def HeaderAuthenticated (w₁ w₂ : Wire) : Prop :=
  SameInnerMac key w₁ w₂ → receivedHeader key w₁ = receivedHeader key w₂

/-- The block cipher on the header ciphertext, before the IV is added. -/
def headerMask (header : Header) : Block :=
  aesXcrypt (readVec 16 header.bytes) (aesKeyExpansion key.cipher) true

/-- The only start of an IV with which the header begins with the signature. -/
def openingIv (header : Header) : Vector UInt8 6 :=
  Vector.ofFn fun i => (headerMask key header)[i.val] ^^^ wireSignature[i.val]

def ivStart (w : Wire) : Vector UInt8 6 := readVec 6 w.iv.toList

theorem decrypted_eq (w : Wire) :
    Header.ofBytes (aes128Decrypt (aes128Init w.iv key.cipher) w.header.bytes blockLen).2 =
      Header.ofBytes (xor128 (headerMask key w.header) w.iv).toList := by
  have hrest : w.header.bytes.drop 16 = [] := List.drop_of_length_le (Header.bytes_length _).le
  have hone : (blockLen + 15) / 16 = 1 := rfl
  rw [aes128Decrypt, hone, aes128Init, decryptBlocks, decryptBlocks, hrest, List.append_nil,
    headerMask]

theorem headerCheckSignature_iff (w : Wire) :
    headerCheckSignature (Header.ofBytes (xor128 (headerMask key w.header) w.iv).toList) = true ↔
      ivStart w = openingIv key w.header := by
  rw [headerCheckSignature, decide_eq_true_iff, Header.ofBytes, ivStart]
  have hbyte (v : Block) {i : ℕ} (hi : i < 6) : (readVec 6 v.toList)[i] = v[i] := by
    rw [getElem_readVec, List.getD_eq_getElem _ _ (by rw [Vector.length_toList]; omega)]
    exact Vector.getElem_toList _
  have hxor (a b c : UInt8) : a ^^^ b = c ↔ b = a ^^^ c := by
    constructor
    · rintro rfl
      rw [← UInt8.xor_assoc, UInt8.xor_self, UInt8.zero_xor]
    · rintro rfl
      rw [← UInt8.xor_assoc, UInt8.xor_self, UInt8.zero_xor]
  rw [Vector.ext_iff, Vector.ext_iff]
  refine forall₂_congr fun i hi => ?_
  rw [hbyte _ hi, hbyte _ hi, xor128_getElem _ _ (show i < 16 by omega), openingIv,
    Vector.getElem_ofFn]
  exact hxor _ _ _

theorem receivedHeader_eq (w : Wire) : receivedHeader key w =
    if ivStart w = openingIv key w.header then
      Header.ofBytes (xor128 (headerMask key w.header) w.iv).toList
    else zeroHeader := by
  rw [receivedHeader, wireDecryptHeader]
  simp only [decrypted_eq, headerCheckSignature_iff]

theorem xor128_left_cancel {a b c : Block} (h : xor128 a b = xor128 a c) : b = c := by
  rw [xor128_comm a b, xor128_comm a c] at h
  rw [← xor128_cancel b a, h, xor128_cancel]

theorem Header.ofBytes_injective {a b : Block}
    (h : Header.ofBytes a.toList = Header.ofBytes b.toList) : a = b := by
  have hbytes (v : Block) : (Header.ofBytes v.toList).bytes = v.toList := by
    rw [Header.bytes_ofBytes (by rw [Vector.length_toList])]
    exact List.take_of_length_le (by rw [Vector.length_toList])
  rw [← Vector.toList_inj, ← hbytes a, h, hbytes]

theorem receivedHeader_ne_zero {w : Wire} (h : ivStart w = openingIv key w.header) :
    receivedHeader key w ≠ zeroHeader := by
  have hsig := (headerCheckSignature_iff key w).mpr h
  rw [receivedHeader_eq, if_pos h]
  intro hzero
  rw [hzero] at hsig
  exact absurd hsig (by decide)

/-- One ciphertext gives one header exactly when the IVs are the same, or neither of
them starts the header with the signature. -/
theorem receivedHeader_eq_iff {w₁ w₂ : Wire} (h : w₁.header = w₂.header) :
    receivedHeader key w₁ = receivedHeader key w₂ ↔
      w₁.iv = w₂.iv ∨
        ivStart w₁ ≠ openingIv key w₁.header ∧ ivStart w₂ ≠ openingIv key w₂.header := by
  -- A header that is rejected is zero, and one that passes is the xor of mask and IV.
  by_cases h₁ : ivStart w₁ = openingIv key w₁.header
  · by_cases h₂ : ivStart w₂ = openingIv key w₂.header
    · rw [receivedHeader_eq, receivedHeader_eq, if_pos h₁, if_pos h₂, h]
      constructor
      · intro heq
        exact Or.inl (xor128_left_cancel (Header.ofBytes_injective heq))
      · rintro (hiv | hnot)
        · rw [hiv]
        · exact absurd h₂ hnot.2
    · have hzero : receivedHeader key w₂ = zeroHeader := by rw [receivedHeader_eq, if_neg h₂]
      rw [hzero]
      refine iff_of_false (receivedHeader_ne_zero key h₁) ?_
      rintro (hiv | hnot)
      · apply h₂
        rw [← h, ← h₁, ivStart, ivStart, hiv]
      · exact hnot.1 h₁
  · by_cases h₂ : ivStart w₂ = openingIv key w₂.header
    · have hzero : receivedHeader key w₁ = zeroHeader := by rw [receivedHeader_eq, if_neg h₁]
      rw [hzero]
      refine iff_of_false (receivedHeader_ne_zero key h₂).symm ?_
      rintro (hiv | hnot)
      · apply h₁
        rw [h, ← h₂, ivStart, ivStart, hiv]
      · exact hnot.2 h₂
    · rw [receivedHeader_eq, receivedHeader_eq, if_neg h₁, if_neg h₂]
      exact iff_of_true rfl (Or.inr ⟨h₁, h₂⟩)

/-- The inner MAC authenticates the header of two wires exactly when their IVs are the
same, or neither of them starts the header with the signature. -/
theorem inner_mac_authenticates_iff (w₁ w₂ : Wire) :
    HeaderAuthenticated key w₁ w₂ ↔
      (SameInnerMac key w₁ w₂ → w₁.iv = w₂.iv ∨
        ivStart w₁ ≠ openingIv key w₁.header ∧ ivStart w₂ ≠ openingIv key w₂.header) := by
  constructor
  · intro h hsame
    exact (receivedHeader_eq_iff key hsame.header_eq).mp (h hsame)
  · intro h hsame
    exact (receivedHeader_eq_iff key hsame.header_eq).mpr (h hsame)

end

def oneBlock : Wire :=
  ⟨Vector.replicate 16 0, Vector.replicate 16 0, Vector.replicate 16 0,
    ⟨wireSignature, wireUnpack64 80, 0, WireType.text.code⟩, List.replicate 16 0⟩

/-- The seventh byte of the IV belongs to the length. -/
def otherIv : Block := #v[0, 0, 0, 0, 0, 0, 1, 0, 0, 0, 0, 0, 0, 0, 0, 0]

theorem header_not_authenticated :
    ∃ (key : Key) (w₁ w₂ : Wire), SameInnerMac key w₁ w₂ ∧
      receivedHeader key w₁ = oneBlock.header ∧ ¬HeaderAuthenticated key w₁ w₂ := by
  obtain ⟨key, hkey⟩ : ∃ key : Key, key = Vector.replicate 32 0 := ⟨_, rfl⟩
  have haligned : wireGetAlignedDataLength oneBlock = 16 * 1 := by decide +kernel
  have hiv : (encryptWire oneBlock key).iv = oneBlock.iv := by
    rw [encryptWire_eq oneBlock key 1 haligned, wireGenCmacs_iv]
  have hsame : SameInnerMac key (encryptWire oneBlock key)
      { encryptWire oneBlock key with iv := otherIv } :=
    ⟨rfl, rfl, encryptWire_verifies oneBlock key, encryptWire_verifies oneBlock key⟩
  have hheader : receivedHeader key (encryptWire oneBlock key) = oneBlock.header := by
    rw [receivedHeader, hiv, encryptWire_eq oneBlock key 1 haligned,
      wireDecryptHeader_encryptedBody oneBlock key 1 _ _ rfl]
  refine ⟨key, _, _, hsame, hheader, fun h => ?_⟩
  rcases (inner_mac_authenticates_iff key _ _).mp h hsame with heq | ⟨hnot, -⟩
  · -- The sender's IV is zero.
    have hne : oneBlock.iv ≠ otherIv := by decide
    exact hne (hiv.symm.trans heq)
  · -- The sender's header would be read as zeros.
    apply absurd hheader
    rw [receivedHeader_eq, if_neg hnot]
    decide +kernel

end Parcel
