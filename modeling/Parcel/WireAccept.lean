import Parcel.WireRoundTrip

/-!
# What `decrypt_wire` accepts

For an arbitrary buffer of whole blocks, `decrypt_wire` accepts exactly when the
inner MAC selects a key under which the header is well formed and the outer MAC
verifies. A rejected buffer keeps all of its bytes.
-/

namespace Parcel
open ByteStrings Aes

def cbcPlain (key : Key) (iv : Block) (blocks : List Block) : List UInt8 :=
  ofBlocks (Cbc.decrypt xor128 (aesXcrypt · (aesKeyExpansion key.cipher) true) iv blocks)

def headerBlock (buf : List UInt8) : Block := readVec 16 (buf.drop 48)

/-- The decrypted header, chained from the IV at offset 32. -/
def plainHeader (buf : List UInt8) (key : Key) : Header :=
  Header.ofBytes (cbcPlain key (readVec 16 (buf.drop 32)) [headerBlock buf])

/-- The decrypted data, chained from the header ciphertext. -/
def plainData (buf : List UInt8) (key : Key) : List UInt8 :=
  cbcPlain key (headerBlock buf) (toBlocks ((buf.length - 64) / 16) (buf.drop 64))

theorem aes128Decrypt_eq (key : Key) (iv : Block) (chunk : List UInt8) (n : ℕ)
    (h : chunk.length = 16 * n) :
    aes128Decrypt ⟨aesKeyExpansion key.cipher, iv⟩ chunk (16 * n) =
      (⟨aesKeyExpansion key.cipher, (toBlocks n chunk).getLastD iv⟩,
        cbcPlain key iv (toBlocks n chunk)) := by
  have hblocks : (16 * n + 15) / 16 = n := by omega
  have hrest : chunk.drop (16 * n) = [] := List.drop_of_length_le h.le
  rw [aes128Decrypt, hblocks, decryptBlocks_eq, hrest, List.append_nil, cbcPlain]

section

variable {buf : List UInt8}

theorem headerBlock_eq (h : 64 ≤ buf.length) :
    readVec 16 (Wire.ofBytes buf).header.bytes = headerBlock buf := by
  have hbytes : (Wire.ofBytes buf).header.bytes = (buf.drop 48).take 16 :=
    Header.bytes_ofBytes (by rw [List.length_drop]; omega)
  rw [hbytes, headerBlock, ← toList_readVec (by rw [List.length_drop]; omega), readVec_toList]

theorem wireDecryptHeader_ofBytes (h : 64 ≤ buf.length) (key : Key) :
    wireDecryptHeader (aes128Init (Wire.ofBytes buf).iv key.cipher) (Wire.ofBytes buf) =
      (⟨aesKeyExpansion key.cipher, headerBlock buf⟩,
        if headerCheckSignature (plainHeader buf key) then plainHeader buf key
        else zeroHeader) := by
  have hdec := aes128Decrypt_eq key (Wire.ofBytes buf).iv (Wire.ofBytes buf).header.bytes 1
    (by rw [Header.bytes_length])
  have hblocks : toBlocks 1 (Wire.ofBytes buf).header.bytes = [headerBlock buf] := by
    rw [toBlocks, toBlocks, headerBlock_eq h]
  rw [hblocks] at hdec
  rw [wireDecryptHeader, aes128Init, blockLen, hdec]
  rfl

/-- The checks of `decrypt_wire` after the inner MAC. -/
structure Authentic (buf : List UInt8) (key : Key) : Prop where
  signature : (plainHeader buf key).signature = wireSignature
  wireLen : headerGetLength (plainHeader buf key) = buf.length
  macOuter : aes128Cmac (aes128InitCmac key.mac) (buf.drop 16) (buf.length - 16) = readVec 16 buf

/-- The buffer after a successful decryption: the auth bytes stay. -/
def opened (buf : List UInt8) (key : Key) : List UInt8 :=
  buf.take 48 ++ ((plainHeader buf key).bytes ++ plainData buf key)

theorem wireVerifyOuterMac_ofBytes (h : 64 ≤ buf.length) (hfit : buf.length < 2 ^ 64) (key : Key) :
    wireVerifyOuterMac (aes128InitCmac key.mac) (Wire.ofBytes buf) buf.length = true ↔
      aes128Cmac (aes128InitCmac key.mac) (buf.drop 16) (buf.length - 16) = readVec 16 buf := by
  have hauth : (Wire.ofBytes buf).authBytes = buf.drop 16 := by
    have hbytes : (Wire.ofBytes buf).bytes.drop 16 = (Wire.ofBytes buf).authBytes :=
      List.drop_left' (by simp)
    rw [← hbytes, Wire.bytes_ofBytes h]
  have hmac : (Wire.ofBytes buf).macOuter = readVec 16 buf := by rw [Wire.ofBytes]
  rw [wireVerifyOuterMac, decide_eq_true_iff, hauth, hmac, wireOffsetMacInner,
    sizeSub_eq (by omega) hfit]
  exact eq_comm

theorem ofBytes_overwrite (h : 64 ≤ buf.length) (header : Header) (data : List UInt8) :
    { Wire.ofBytes buf with header := header, data := data }.bytes =
      buf.take 48 ++ (header.bytes ++ data) := by
  have htake : buf.take 48 = (Wire.ofBytes buf).macOuter.toList ++
      ((Wire.ofBytes buf).macInner.toList ++ (Wire.ofBytes buf).iv.toList) := by
    have hbytes := Wire.bytes_ofBytes h
    rw [Wire.bytes, Wire.authBytes, ← List.append_assoc (Wire.ofBytes buf).macInner.toList,
      ← List.append_assoc] at hbytes
    nth_rewrite 1 [← hbytes]
    exact List.take_left' (by simp)
  rw [htake, Wire.bytes, Wire.authBytes]
  simp only [List.append_assoc]

theorem decryptVerified_authentic (h : 64 ≤ buf.length) (hdvd : 16 ∣ buf.length) {key : Key}
    (hauth : Authentic buf key) :
    ∃ w, decryptVerified (Wire.ofBytes buf) buf.length
        (aes128Init (Wire.ofBytes buf).iv key.cipher) (aes128InitCmac key.mac) = (true, w) ∧
      w.bytes = opened buf key := by
  have hfit : buf.length < 2 ^ 64 := hauth.wireLen ▸ wirePack64_lt _
  have hsig : headerCheckSignature (plainHeader buf key) = true :=
    decide_eq_true hauth.signature
  have houter := (wireVerifyOuterMac_ofBytes h hfit key).mpr hauth.macOuter
  have haligned : headerGetAlignedDataLength (plainHeader buf key) =
      16 * ((buf.length - 64) / 16) := by
    rw [headerGetAlignedDataLength, hauth.wireLen, wireSize, sizeSub_eq h hfit]
    omega
  have hdata : (aes128Decrypt ⟨aesKeyExpansion key.cipher, headerBlock buf⟩
      (Wire.ofBytes buf).data (16 * ((buf.length - 64) / 16))).2 = plainData buf key := by
    have hlen : (buf.drop 64).length = 16 * ((buf.length - 64) / 16) := by
      rw [List.length_drop]
      omega
    rw [Wire.ofBytes, aes128Decrypt_eq key _ _ _ hlen, plainData]
  refine ⟨_, ?_, ofBytes_overwrite h (plainHeader buf key) (plainData buf key)⟩
  rw [decryptVerified, wireDecryptHeader_ofBytes h, if_pos hsig]
  simp only [hauth.wireLen, ne_eq, not_true_eq_false, ↓reduceIte, houter, Bool.not_true,
    Bool.false_eq_true, wireDecryptData, haligned, hdata]

theorem decryptVerified_rejects (h : 64 ≤ buf.length) {key : Key} (hauth : ¬Authentic buf key) :
    decryptVerified (Wire.ofBytes buf) buf.length
      (aes128Init (Wire.ofBytes buf).iv key.cipher) (aes128InitCmac key.mac) =
      (false, Wire.ofBytes buf) := by
  rw [decryptVerified, wireDecryptHeader_ofBytes h]
  dsimp only
  by_cases hsig : headerCheckSignature (plainHeader buf key) = true
  · rw [if_pos hsig]
    by_cases hlen : buf.length = headerGetLength (plainHeader buf key)
    · have hfit : buf.length < 2 ^ 64 := hlen ▸ wirePack64_lt _
      have houter : ¬wireVerifyOuterMac (aes128InitCmac key.mac) (Wire.ofBytes buf)
          buf.length = true := by
        intro hmac
        exact hauth ⟨of_decide_eq_true hsig, hlen.symm,
          (wireVerifyOuterMac_ofBytes h hfit key).mp hmac⟩
      rw [if_neg (not_not.mpr hlen), ← hlen, if_pos (by simpa using houter)]
    · rw [if_pos hlen]
  · -- the zero header has length 0, which no buffer of a wire has
    have hzero : headerGetLength zeroHeader = 0 := by decide
    rw [if_neg hsig, hzero, if_pos (by omega)]

end

/-- Acceptance by `decrypt_wire` is authenticity under the selected key, and the
buffer changes on acceptance only. -/
theorem decrypt_wire_accepts_authentic (buf : List UInt8) (hlen : 64 ≤ buf.length)
    (hdvd : 16 ∣ buf.length) (key1 : Key) (key2 : Option Key) :
    let k := selectedKey (Wire.ofBytes buf) key1 key2
    let r := decryptWire (Wire.ofBytes buf) buf.length key1 key2
    (r.1 = true ↔ ∃ key, k = some key ∧ Authentic buf key) ∧
      (r.1 = false → r.2.bytes = buf) ∧
      (r.1 = true → ∃ key, k = some key ∧ r.2.bytes = opened buf key) := by
  dsimp only
  rw [decryptWire_eq]
  -- no key verifies, or one was chosen and decides alone
  cases hk : selectedKey (Wire.ofBytes buf) key1 key2 with
  | none =>
    refine ⟨?_, ?_, ?_⟩
    · constructor
      · intro h
        cases h
      · rintro ⟨key, hkey, -⟩
        cases hkey
    · intro _
      exact Wire.bytes_ofBytes hlen
    · intro h
      cases h
  | some key =>
    dsimp only
    by_cases hauth : Authentic buf key
    · obtain ⟨w, hw, hbytes⟩ := decryptVerified_authentic hlen hdvd hauth
      rw [hw]
      refine ⟨⟨fun _ => ⟨key, rfl, hauth⟩, fun _ => rfl⟩, ?_, fun _ => ⟨key, rfl, hbytes⟩⟩
      intro h
      cases h
    · rw [decryptVerified_rejects hlen hauth]
      refine ⟨⟨?_, ?_⟩, fun _ => Wire.bytes_ofBytes hlen, ?_⟩
      · intro h
        cases h
      · rintro ⟨key', hkey', hauth'⟩
        cases hkey'
        exact absurd hauth' hauth
      · intro h
        cases h

/-- A text of three bytes, sealed with the key. -/
theorem decrypt_wire_accepts_authentic_sealed :
    ∃ buf : List UInt8, buf.length = 80 ∧
      (decryptWire (Wire.ofBytes buf) buf.length (Vector.replicate 32 0) none).1 = true ∧
      Authentic buf (Vector.replicate 32 0) ∧
      (decryptWire (Wire.ofBytes buf) buf.length (Vector.replicate 32 0) none).2.bytes =
        opened buf (Vector.replicate 32 0) := by
  have hfit : 64 + 14 + ceil16 [(1 : UInt8), 2, 3].length < 2 ^ 64 := by decide
  obtain ⟨w, -, hdata, hdec⟩ := initWire_decoded .text (Vector.replicate 16 0) hfit
  have hlength := encryptWire_initWire_length (Vector.replicate 32 0) hfit hdec hdata
  obtain ⟨w', hopen, -⟩ := decryptVerified_initWire (Vector.replicate 32 0) hfit hdec hdata
  have hsel := selectedKey_first (encryptWire_verifies w (Vector.replicate 32 0)) none
  have haccepted : (decryptWire (Wire.ofBytes (encryptWire w (Vector.replicate 32 0)).bytes)
      (encryptWire w (Vector.replicate 32 0)).bytes.length (Vector.replicate 32 0) none).1 =
        true := by
    rw [Wire.ofBytes_bytes, decryptWire_of_selected hsel, hlength, hopen]
  have hauthentic := decrypt_wire_accepts_authentic (encryptWire w (Vector.replicate 32 0)).bytes
    (by rw [hlength]; decide) (by rw [hlength]; decide) (Vector.replicate 32 0) none
  dsimp only at hauthentic
  rw [Wire.ofBytes_bytes, hsel] at hauthentic
  rw [Wire.ofBytes_bytes] at haccepted
  obtain ⟨hiff, -, hopened⟩ := hauthentic
  obtain ⟨key, hkey, hbytes⟩ := hopened haccepted
  obtain ⟨key', hkey', hauth⟩ := hiff.mp haccepted
  obtain rfl := Option.some.inj hkey
  obtain rfl := Option.some.inj hkey'
  refine ⟨_, hlength, ?_, hauth, ?_⟩
  · rw [Wire.ofBytes_bytes]
    exact haccepted
  · rw [Wire.ofBytes_bytes]
    exact hbytes

end Parcel
