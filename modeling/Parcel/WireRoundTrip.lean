import Parcel.Cable
import Parcel.Wire

/-!
# Round trip of wires

The receiver of a cabled wire recovers header and payload for every type,
length, IV and key, with the key in either slot of `decrypt_wire`.
-/

namespace Parcel
open ByteStrings Aes

/-- The key whose MAC half verifies the inner MAC, `key1` first. -/
def selectedKey (w : Wire) (key1 : Key) (key2 : Option Key) : Option Key :=
  if wireVerifyInnerMac (aes128InitCmac key1.mac) w then some key1
  else key2.filter fun key => wireVerifyInnerMac (aes128InitCmac key.mac) w

theorem decryptWire_eq (w : Wire) (len : ℕ) (key1 : Key) (key2 : Option Key) :
    decryptWire w len key1 key2 =
      match selectedKey w key1 key2 with
      | some key => decryptVerified w len (aes128Init w.iv key.cipher) (aes128InitCmac key.mac)
      | none => (false, w) := by
  rw [decryptWire.eq_def, selectedKey, decryptWithKey]
  by_cases hfirst : wireVerifyInnerMac (aes128InitCmac key1.mac) w = true
  · rw [if_pos hfirst, if_pos hfirst]
  · rw [if_neg hfirst, if_neg hfirst]
    cases key2 with
    | none => rfl
    | some key =>
      by_cases hsecond : wireVerifyInnerMac (aes128InitCmac key.mac) w = true
      · simp only [decryptWithKey, Option.filter_some, if_pos hsecond, Option.getD_some]
      · simp only [decryptWithKey, Option.filter_some, if_neg hsecond, Option.getD_none]

theorem selectedKey_first {w : Wire} {key : Key}
    (h : wireVerifyInnerMac (aes128InitCmac key.mac) w = true) (key2 : Option Key) :
    selectedKey w key key2 = some key := by
  rw [selectedKey, if_pos h]

theorem selectedKey_second {w : Wire} {key1 key : Key}
    (h1 : wireVerifyInnerMac (aes128InitCmac key1.mac) w = false)
    (h : wireVerifyInnerMac (aes128InitCmac key.mac) w = true) :
    selectedKey w key1 (some key) = some key := by
  rw [selectedKey, h1, if_neg Bool.false_ne_true, Option.filter_some, if_pos h]

theorem decryptWire_of_selected {w : Wire} {len : ℕ} {key1 key : Key} {key2 : Option Key}
    (h : selectedKey w key1 key2 = some key) :
    decryptWire w len key1 key2 =
      decryptVerified w len (aes128Init w.iv key.cipher) (aes128InitCmac key.mac) := by
  rw [decryptWire_eq, h]

/-- Taking the wire out of a cable and decrypting it there. -/
def openCable (cable : Cable) (key1 : Key) (key2 : Option Key) : Bool × Wire :=
  decryptWire (Wire.ofBytes (getCabledWire cable).2) (getCabledWire cable).1 key1 key2

def ceil16 (n : ℕ) : ℕ := (n + 15) / 16 * 16

theorem land_block_mask {n : ℕ} (h : n < 2 ^ 64) : n &&& (2 ^ 64 - 16) = n / 16 * 16 := by
  apply Nat.eq_of_testBit_eq
  intro i
  have hmask : 2 ^ 64 - 16 = (2 ^ 60 - 1) * 2 ^ 4 := by norm_num
  have hdiv : n / 16 * 16 = n / 2 ^ 4 * 2 ^ 4 := by norm_num
  rw [Nat.testBit_and, hmask, hdiv, Nat.testBit_mul_two_pow, Nat.testBit_mul_two_pow,
    Nat.testBit_div_two_pow, Nat.testBit_two_pow_sub_one]
  by_cases hi : 4 ≤ i
  · by_cases hi' : i < 64
    · simp [hi, show i - 4 < 60 by omega]
    · have hbit : n.testBit i = false :=
        Nat.testBit_lt_two_pow (h.trans_le (Nat.pow_le_pow_right (by norm_num) (by omega)))
      simp [hi, hbit]
  · simp [hi]

theorem getAlignedLen_eq {n : ℕ} (h : n + 15 < 2 ^ 64) : getAlignedLen n = ceil16 n := by
  have hmod : (n + blockLen - 1) % 2 ^ 64 = n + 15 := Nat.mod_eq_of_lt (by simpa [blockLen] using h)
  rw [getAlignedLen, hmod, blockLen, land_block_mask h, ceil16]

theorem le_ceil16 (n : ℕ) : n ≤ ceil16 n := by unfold ceil16; omega

theorem ceil16_sub_lt (n : ℕ) : ceil16 n - n < 16 := by unfold ceil16; omega

/-- The header block under CBC from the wire's IV, with the chaining value for the data. -/
def encryptedHeader (w : Wire) (key : Key) : Block × List UInt8 :=
  encryptBlocks (aesKeyExpansion key.cipher) 1 w.iv w.header.bytes

/-- The wire after both CBC calls of `encrypt_wire`, for data of `m` whole blocks. -/
def encryptedBody (w : Wire) (key : Key) (m : ℕ) : Wire :=
  { w with
    header := Header.ofBytes (encryptedHeader w key).2
    data := (encryptBlocks (aesKeyExpansion key.cipher) m (encryptedHeader w key).1 w.data).2 }

theorem encryptedHeader_length (w : Wire) (key : Key) : (encryptedHeader w key).2.length = 16 := by
  rw [encryptedHeader, encryptBlocks_length _ _ _ _ (by simp), Header.bytes_length]

theorem encryptWire_eq (w : Wire) (key : Key) (m : ℕ) (hm : wireGetAlignedDataLength w = 16 * m) :
    encryptWire w key =
      wireGenCmacs (aes128InitCmac key.mac) (encryptedBody w key m) (wireGetLength w) := by
  have hblocks : (16 * m + 15) / 16 = m := by omega
  simp only [encryptWire, aes128Encrypt, aes128Init, hm, hblocks, blockLen, encryptedBody,
    encryptedHeader]

theorem encryptWire_bytes_length (w : Wire) (key : Key) (m : ℕ)
    (hm : wireGetAlignedDataLength w = 16 * m) (hdata : w.data.length = 16 * m) :
    (encryptWire w key).bytes.length = 64 + w.data.length := by
  rw [encryptWire_eq w key m hm, Wire.bytes_length]
  exact congrArg (64 + ·) (encryptBlocks_length _ _ _ _ hdata.ge)

@[simp] theorem wireGenCmacs_iv (cmac : Aes128) (w : Wire) (key : Key) (m len : ℕ) :
    (wireGenCmacs cmac (encryptedBody w key m) len).iv = w.iv := by
  rw [wireGenCmacs, encryptedBody]

@[simp] theorem wireGenCmacs_data (cmac : Aes128) (w : Wire) (len : ℕ) :
    (wireGenCmacs cmac w len).data = w.data := by
  rw [wireGenCmacs]

theorem wireVerifyInnerMac_mk (cmac : Aes128) (w : Wire) (outer inner : Block) :
    wireVerifyInnerMac cmac { w with macOuter := outer, macInner := inner } =
      decide (inner = aes128Cmac cmac w.header.bytes blockLen) := rfl

theorem wireVerifyOuterMac_mk (cmac : Aes128) (w : Wire) (outer : Block) (len : ℕ) :
    wireVerifyOuterMac cmac { w with macOuter := outer } len =
      decide (outer = aes128Cmac cmac w.authBytes (sizeSub len wireOffsetMacInner)) := rfl

theorem wireGenCmacs_verify (cmac : Aes128) (w : Wire) (len : ℕ) :
    wireVerifyInnerMac cmac (wireGenCmacs cmac w len) = true ∧
      wireVerifyOuterMac cmac (wireGenCmacs cmac w len) len = true := by
  rw [wireGenCmacs]
  dsimp only
  constructor
  · exact (wireVerifyInnerMac_mk cmac w _ _).trans (decide_eq_true rfl)
  · exact (wireVerifyOuterMac_mk cmac { w with macInner := _ } _ len).trans (decide_eq_true rfl)

/-- The header of an encrypted wire decrypts to the one that was encrypted, and
leaves the chaining value of the data. -/
theorem wireDecryptHeader_encryptedBody (w : Wire) (key : Key) (m len : ℕ) (cmac : Aes128)
    (hsig : w.header.signature = wireSignature) :
    wireDecryptHeader (aes128Init w.iv key.cipher) (wireGenCmacs cmac (encryptedBody w key m) len) =
      (⟨aesKeyExpansion key.cipher, (encryptedHeader w key).1⟩, w.header) := by
  have hbytes : (Header.ofBytes (encryptedHeader w key).2).bytes = (encryptedHeader w key).2 := by
    rw [Header.bytes_ofBytes (encryptedHeader_length w key).ge]
    exact List.take_of_length_le (encryptedHeader_length w key).le
  have hheader : decryptBlocks (aesKeyExpansion key.cipher) 1 w.iv (encryptedHeader w key).2 =
      ((encryptedHeader w key).1, w.header.bytes) :=
    decryptBlocks_encryptBlocks (aesKeyExpansion key.cipher) 1 w.iv w.header.bytes (by simp)
  have hcheck : headerCheckSignature w.header = true := by simp [headerCheckSignature, hsig]
  have hone : (16 + 15) / 16 = 1 := rfl
  simp only [wireDecryptHeader, wireGenCmacs, encryptedBody, aes128Decrypt, aes128Init, blockLen,
    hone, hbytes, hheader, Header.ofBytes_bytes, hcheck, ↓reduceIte]

theorem encryptWire_verifies (w : Wire) (key : Key) :
    wireVerifyInnerMac (aes128InitCmac key.mac) (encryptWire w key) = true := by
  rw [encryptWire]
  exact (wireGenCmacs_verify _ _ _).1

theorem decryptVerified_encryptWire (w : Wire) (key : Key) (m : ℕ)
    (hsig : w.header.signature = wireSignature)
    (hlen : wireGetLength w = 64 + w.data.length) (hdata : w.data.length = 16 * m)
    (hfit : 64 + w.data.length < 2 ^ 64) :
    decryptVerified (encryptWire w key) (64 + w.data.length)
        (aes128Init (encryptWire w key).iv key.cipher) (aes128InitCmac key.mac) =
      (true, { encryptWire w key with header := w.header, data := w.data }) := by
  have haligned : headerGetAlignedDataLength w.header = 16 * m := by
    rw [headerGetAlignedDataLength, ← wireGetLength, hlen, wireSize, sizeSub_eq (by omega) hfit]
    omega
  have hblocks : (16 * m + 15) / 16 = m := by omega
  have hbody : (aes128Decrypt ⟨aesKeyExpansion key.cipher, (encryptedHeader w key).1⟩
      (encryptedBody w key m).data (16 * m)).2 = w.data := by
    rw [aes128Decrypt, hblocks, encryptedBody, decryptBlocks_encryptBlocks _ _ _ _ hdata.ge]
  have hwlen : headerGetLength w.header = 64 + w.data.length := hlen
  obtain ⟨-, houter⟩ := wireGenCmacs_verify (aes128InitCmac key.mac) (encryptedBody w key m)
    (64 + w.data.length)
  have hheader := wireDecryptHeader_encryptedBody w key m (64 + w.data.length)
    (aes128InitCmac key.mac) hsig
  rw [encryptWire_eq w key m haligned, hlen, decryptVerified, wireGenCmacs_iv, hheader]
  simp only [hwlen, ne_eq, not_true_eq_false, ↓reduceIte, houter, Bool.not_true, Bool.false_eq_true,
    wireDecryptData, haligned, wireGenCmacs_data, hbody]

/-- What the receiver has in front of it after decrypting a wire of this type
and payload. -/
structure Decoded (w : Wire) (type : WireType) (payload : List UInt8) : Prop where
  signature : w.header.signature = wireSignature
  type : wireGetType w = type.code
  alignment : w.header.alignment.toNat = ceil16 payload.length - payload.length
  wireLen : wireGetLength w = wireSize + ceil16 payload.length
  dataLength : wireGetDataLength w = payload.length
  data : w.data = payload ++ List.replicate w.header.alignment.toNat 0

section

variable {type : WireType} {payload : List UInt8} {iv : Block}

variable (type iv) in
theorem initWire_decoded (hfit : 64 + 14 + ceil16 payload.length < 2 ^ 64) :
    ∃ w, initWire type payload (some iv) = some w ∧ w.data.length = ceil16 payload.length ∧
      Decoded w type payload := by
  have hle := le_ceil16 payload.length
  have hlt := ceil16_sub_lt payload.length
  have haligned : getAlignedLen payload.length = ceil16 payload.length :=
    getAlignedLen_eq (by omega)
  have hsub : sizeSub (ceil16 payload.length) payload.length =
      ceil16 payload.length - payload.length := sizeSub_eq hle (by omega)
  have hadd : sizeAdd wireSize (ceil16 payload.length) = 64 + ceil16 payload.length :=
    sizeAdd_eq (by rw [wireSize]; omega)
  have hbyte : (UInt8.ofNat (ceil16 payload.length - payload.length)).toNat =
      ceil16 payload.length - payload.length := by
    rw [UInt8.toNat_ofNat']
    exact Nat.mod_eq_of_lt (by omega)
  have hlen : wirePack64 (wireUnpack64 (64 + ceil16 payload.length)) =
      64 + ceil16 payload.length := wirePack64_unpack64 (by omega)
  simp only [initWire, Option.map_some, haligned, hsub, hadd]
  refine ⟨_, rfl, ?_, ⟨rfl, rfl, hbyte, hlen, ?_, ?_⟩⟩
  · simp only [List.length_append, List.length_replicate]
    omega
  · have hsize : sizeSub (64 + ceil16 payload.length) wireSize = ceil16 payload.length := by
      rw [wireSize, sizeSub_eq (by omega) (by omega), Nat.add_sub_cancel_left]
    simp only [wireGetDataLength, headerGetDataLength, headerGetLength, headerGetAlignment, hbyte,
      hlen, hsize]
    rw [sizeSub_eq (by omega) (by omega)]
    omega
  · simp only [hbyte]

theorem Decoded.congr {w w' : Wire} (h : Decoded w type payload) (hheader : w'.header = w.header)
    (hdata : w'.data = w.data) : Decoded w' type payload := by
  obtain ⟨h1, h2, h3, h4, h5, h6⟩ := h
  unfold wireGetType at h2
  unfold wireGetLength at h4
  unfold wireGetDataLength at h5
  refine ⟨?_, ?_, ?_, ?_, ?_, ?_⟩ <;>
    simpa only [wireGetType, wireGetLength, wireGetDataLength, hheader, hdata]

theorem decryptVerified_initWire {w : Wire} (key : Key)
    (hfit : 64 + 14 + ceil16 payload.length < 2 ^ 64)
    (hw : Decoded w type payload) (hdata : w.data.length = ceil16 payload.length) :
    ∃ w', decryptVerified (encryptWire w key) (wireSize + ceil16 payload.length)
        (aes128Init (encryptWire w key).iv key.cipher) (aes128InitCmac key.mac) = (true, w') ∧
      Decoded w' type payload := by
  have h := decryptVerified_encryptWire w key ((payload.length + 15) / 16) hw.signature
    (by rw [hw.wireLen, hdata, wireSize]) (by rw [hdata, ceil16]; omega) (by omega)
  rw [hdata] at h
  exact ⟨_, h, hw.congr rfl rfl⟩

theorem encryptWire_initWire_length {w : Wire} (key : Key)
    (hfit : 64 + 14 + ceil16 payload.length < 2 ^ 64)
    (hw : Decoded w type payload) (hdata : w.data.length = ceil16 payload.length) :
    (encryptWire w key).bytes.length = wireSize + ceil16 payload.length := by
  have hblocks : ceil16 payload.length = 16 * ((payload.length + 15) / 16) := by
    rw [ceil16, Nat.mul_comm]
  have haligned : wireGetAlignedDataLength w = 16 * ((payload.length + 15) / 16) := by
    rw [wireGetAlignedDataLength, headerGetAlignedDataLength, ← wireGetLength, hw.wireLen,
      sizeSub_eq (by omega) (by rw [wireSize]; omega), Nat.add_sub_cancel_left, hblocks]
  rw [encryptWire_bytes_length w key _ haligned (hdata.trans hblocks), hdata, wireSize]

/-- The receiver of the cable, once its keys select the sender's, has the wire
that was sent. -/
theorem openCable_initCable {w : Wire} {key key1 : Key} {key2 : Option Key}
    (hfit : 64 + 14 + ceil16 payload.length < 2 ^ 64)
    (hw : Decoded w type payload) (hdata : w.data.length = ceil16 payload.length)
    (hsel : selectedKey (encryptWire w key) key1 key2 = some key) :
    getCabledWire (initCable (encryptWire w key).bytes) =
        (wireSize + ceil16 payload.length, (encryptWire w key).bytes) ∧
      ∃ w', openCable (initCable (encryptWire w key).bytes) key1 key2 = (true, w') ∧
        Decoded w' type payload := by
  obtain ⟨w', hopen, hw'⟩ := decryptVerified_initWire key hfit hw hdata
  have hlen := encryptWire_initWire_length key hfit hw hdata
  -- the sealed wire is a variable from here on, so that nothing evaluates the cipher
  generalize encryptWire w key = c at hopen hlen hsel ⊢
  have hcable : getCabledWire (initCable c.bytes) =
      (wireSize + ceil16 payload.length, c.bytes) := by
    rw [getCabledWire_initCable (by rw [hlen, wireSize]; omega), hlen]
  refine ⟨hcable, w', ?_, hw'⟩
  rw [openCable, hcable, Wire.ofBytes_bytes, decryptWire_of_selected hsel, hopen]

end

/-- Round trip of a wire through its cable, with the sender's key in either slot
of `decrypt_wire`. -/
theorem wire_round_trip (type : WireType) (payload : List UInt8) (iv : Block) (key : Key)
    (hfit : 64 + 14 + ceil16 payload.length < 2 ^ 64) :
    ∃ w, initWire type payload (some iv) = some w ∧
      let c := encryptWire w key
      let cabled := getCabledWire (initCable c.bytes)
      cabled = (wireSize + ceil16 payload.length, c.bytes) ∧
      (∀ key2, ∃ w', decryptWire (Wire.ofBytes cabled.2) cabled.1 key key2 = (true, w') ∧
        Decoded w' type payload) ∧
      (∀ key1, wireVerifyInnerMac (aes128InitCmac key1.mac) c = false →
        ∃ w', decryptWire (Wire.ofBytes cabled.2) cabled.1 key1 (some key) = (true, w') ∧
          Decoded w' type payload) := by
  obtain ⟨w, hw, hdata, hdec⟩ := initWire_decoded type iv hfit
  have hinner := encryptWire_verifies w key
  refine ⟨w, hw, ?_, ?_, ?_⟩
  · exact (openCable_initCable hfit hdec hdata (selectedKey_first hinner none)).1
  · intro key2
    exact (openCable_initCable hfit hdec hdata (selectedKey_first hinner key2)).2
  · intro key1 hkey1
    exact (openCable_initCable hfit hdec hdata (selectedKey_second hkey1 hinner)).2

/-- A three-byte text under the zero key. -/
theorem wire_round_trip_three :
    64 + 14 + ceil16 [1, 2, 3].length < 2 ^ 64 ∧
      ∃ w, initWire .text [1, 2, 3] (some (Vector.replicate 16 0)) = some w ∧
        ∃ w', decryptWire
            (Wire.ofBytes
              (getCabledWire (initCable (encryptWire w (Vector.replicate 32 0)).bytes)).2)
            (getCabledWire (initCable (encryptWire w (Vector.replicate 32 0)).bytes)).1
            (Vector.replicate 32 0) none = (true, w') ∧ Decoded w' .text [1, 2, 3] := by
  have hfit : 64 + 14 + ceil16 [1, 2, 3].length < 2 ^ 64 := by decide
  obtain ⟨w, hw, -, hfirst, -⟩ :=
    wire_round_trip .text [1, 2, 3] (Vector.replicate 16 0) (Vector.replicate 32 0) hfit
  exact ⟨hfit, w, hw, hfirst none⟩

end Parcel
