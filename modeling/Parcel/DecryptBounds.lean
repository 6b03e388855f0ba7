import Parcel.BoundedReads
import Parcel.Cmac
import Parcel.WireAccept

/-!
# Accesses of `decrypt_wire`

The function `decrypt_wire` on the bytes of a received wire, with every read and write
of the buffer and every subtraction of lengths checked: the result is `none` as soon as
one leaves the buffer or wraps. The length of the wire is compared with the one in the
header only, so that the checks hold from 64 bytes on, and for a wire that is accepted
only if its length is a multiple of the block size.
-/

namespace Parcel
open ByteStrings BoundedReads Aes

/-- The loop of `aes128_decrypt`: each turn reads and overwrites a whole block. -/
def decryptBlocksWithin (rk : RoundKey) : ℕ → Block → List UInt8 → Option (Block × List UInt8)
  | 0, iv, chunk => some (iv, chunk)
  | n + 1, iv, chunk =>
    if 16 ≤ chunk.length then
      let c := readVec 16 chunk
      (decryptBlocksWithin rk n c (chunk.drop 16)).map fun next =>
        (next.1, (xor128 (aesXcrypt c rk true) iv).toList ++ next.2)
    else none

def innerMacReads (cmac : Aes128) (buf : List UInt8) : Option Bool := do
  let mac ← aes128CmacWithin cmac (buf.drop 48) blockLen
  let macInner ← copyAt buf 16 16
  return decide (readVec 16 macInner = mac)

/-- The copy of the header is decrypted outside of the buffer. -/
def headerReads (cipher : Aes128) (buf : List UInt8) : Option (Aes128 × Header) := do
  let bytes ← copyAt buf 48 16
  let out := aes128Decrypt cipher bytes blockLen
  let h := Header.ofBytes out.2
  return (out.1, if headerCheckSignature h then h else zeroHeader)

def outerMacReads (cmac : Aes128) (buf : List UInt8) (wireLen : ℕ) : Option Bool := do
  let len ← subWithin wireLen wireOffsetMacInner
  let mac ← aes128CmacWithin cmac (buf.drop 16) len
  let macOuter ← copyAt buf 0 16
  return decide (readVec 16 macOuter = mac)

/-- The decryption of the data in place and the header that is written back. -/
def dataReads (cipher : Aes128) (buf : List UInt8) (h : Header) (alignedLen : ℕ) :
    Option (List UInt8) := do
  let data ← decryptBlocksWithin cipher.roundKey ((alignedLen + 15) / 16) cipher.iv (buf.drop 64)
  writeAt (buf.take 64 ++ data.2) 48 h.bytes

def verifiedReads (buf : List UInt8) (len : ℕ) (cipher cmac : Aes128) :
    Option (Bool × List UInt8) := do
  let out ← headerReads cipher buf
  let wireLen := headerGetLength out.2
  if len ≠ wireLen then return (false, buf)
  else
    let alignedLen ← subWithin wireLen wireSize
    let ok ← outerMacReads cmac buf wireLen
    if !ok then return (false, buf)
    else
      let buf ← dataReads out.1 buf out.2 alignedLen
      return (true, buf)

/-- One pass from the label `init`; the result is `none` inside when the inner MAC does
not verify. -/
def keyReads (buf : List UInt8) (len : ℕ) (key : Key) : Option (Option (Bool × List UInt8)) := do
  let iv ← copyAt buf 32 16
  let cmac := aes128InitCmac key.mac
  let ok ← innerMacReads cmac buf
  if ok then
    let r ← verifiedReads buf len (aes128Init (readVec 16 iv) key.cipher) cmac
    return some r
  else return none

/-- The function `decrypt_wire`: the result and the buffer afterwards. -/
def decryptReads (buf : List UInt8) (len : ℕ) (key1 : Key) (key2 : Option Key) :
    Option (Bool × List UInt8) := do
  match ← keyReads buf len key1 with
  | some r => return r
  | none =>
    match key2 with
    | none => return (false, buf)
    | some key2 =>
      let r ← keyReads buf len key2
      return r.getD (false, buf)

/-- The buffer holds a `wire_t`, and its data fills whole blocks if it is accepted. -/
def WireWithin (buf : List UInt8) (key1 : Key) (key2 : Option Key) : Prop :=
  64 ≤ buf.length ∧
    ∀ key, selectedKey (Wire.ofBytes buf) key1 key2 = some key → Authentic buf key →
      16 ∣ buf.length

theorem decryptBlocksWithin_eq (rk : RoundKey) (n : ℕ) (iv : Block) (chunk : List UInt8)
    (h : 16 * n ≤ chunk.length) :
    decryptBlocksWithin rk n iv chunk = some (decryptBlocks rk n iv chunk) := by
  induction n generalizing iv chunk with
  | zero => rfl
  | succ n ih =>
    have hrest : 16 * n ≤ (chunk.drop 16).length := by
      rw [List.length_drop]
      omega
    rw [decryptBlocksWithin, if_pos (by omega)]
    dsimp only
    rw [ih _ _ hrest, decryptBlocks]
    rfl

theorem decryptBlocksWithin_none (rk : RoundKey) (n : ℕ) (iv : Block) (chunk : List UInt8)
    (h : chunk.length < 16 * n) : decryptBlocksWithin rk n iv chunk = none := by
  induction n generalizing iv chunk with
  | zero => omega
  | succ n ih =>
    rw [decryptBlocksWithin]
    by_cases hblock : 16 ≤ chunk.length
    · have hrest : (chunk.drop 16).length < 16 * n := by
        rw [List.length_drop]
        omega
      rw [if_pos hblock]
      dsimp only
      rw [ih _ _ hrest]
      rfl
    · rw [if_neg hblock]

theorem aes128CmacWithin_eq (ctx : Aes128) (msg : List UInt8) {length : ℕ}
    (h : length ≤ msg.length) :
    aes128CmacWithin ctx msg length = some (aes128Cmac ctx msg length) := by
  rw [aes128CmacWithin]
  by_cases hzero : length = 0
  · subst hzero
    rw [if_pos rfl, aes128Cmac, aes128Cmac, if_pos rfl, if_pos rfl]
  · rw [if_neg hzero, aes128Cmac, if_neg hzero]
    exact cmacLoopWithin_eq _ _ _ _ h

theorem aes128CmacWithin_block (ctx : Aes128) {msg : List UInt8} (h : msg.length < blockLen) :
    aes128CmacWithin ctx msg blockLen = none := by
  rw [blockLen] at h ⊢
  rw [aes128CmacWithin, if_neg (by decide), cmacLoopWithin, if_neg (by decide),
    if_pos (by decide), if_neg (by omega)]

section

variable {buf : List UInt8}

theorem readVec_copy {n k : ℕ} (h : n + k ≤ buf.length) :
    readVec k ((buf.drop n).take k) = readVec k (buf.drop n) := by
  rw [← toList_readVec (by rw [List.length_drop]; omega), readVec_toList]

theorem innerMacReads_eq (cmac : Aes128) (h : 64 ≤ buf.length) :
    innerMacReads cmac buf = some (wireVerifyInnerMac cmac (Wire.ofBytes buf)) := by
  have hheader : (Wire.ofBytes buf).header.bytes = (buf.drop 48).take 16 :=
    Header.bytes_ofBytes (by rw [List.length_drop]; omega)
  -- the bytes behind the header do not take part in the MAC
  have hmac : aes128Cmac cmac (buf.drop 48) blockLen =
      aes128Cmac cmac (Wire.ofBytes buf).header.bytes blockLen := by
    have hlen : ((buf.drop 48).take 16).length = blockLen := by
      rw [List.length_take, List.length_drop, blockLen]
      omega
    rw [hheader, ← hlen]
    have hlong := aes128Cmac_eq cmac ((buf.drop 48).take 16) ((buf.drop 48).drop 16)
    have hshort := aes128Cmac_eq cmac ((buf.drop 48).take 16) []
    rw [List.take_append_drop] at hlong
    rw [List.append_nil] at hshort
    rw [hlong, hshort]
  have hinside : blockLen ≤ (buf.drop 48).length := by
    rw [List.length_drop, blockLen]
    omega
  have hvec : readVec 16 ((buf.drop 16).take 16) = (Wire.ofBytes buf).macInner := by
    rw [readVec_copy (by omega), Wire.ofBytes]
  rw [innerMacReads, aes128CmacWithin_eq cmac _ hinside, copyAt_eq (by omega), hmac]
  simp only [Option.bind_eq_bind, Option.bind_some, hvec]
  rfl

theorem headerReads_eq (cipher : Aes128) (h : 64 ≤ buf.length) :
    headerReads cipher buf = some (wireDecryptHeader cipher (Wire.ofBytes buf)) := by
  have hheader : (Wire.ofBytes buf).header.bytes = (buf.drop 48).take 16 :=
    Header.bytes_ofBytes (by rw [List.length_drop]; omega)
  rw [headerReads, copyAt_eq (by omega), ← hheader]
  rfl

theorem outerMacReads_eq (cmac : Aes128) (h : 64 ≤ buf.length) (hfit : buf.length < 2 ^ 64) :
    outerMacReads cmac buf buf.length =
      some (wireVerifyOuterMac cmac (Wire.ofBytes buf) buf.length) := by
  have hauth : (Wire.ofBytes buf).authBytes = buf.drop 16 := by
    have hbytes : (Wire.ofBytes buf).bytes.drop 16 = (Wire.ofBytes buf).authBytes :=
      List.drop_left' (by simp)
    rw [← hbytes, Wire.bytes_ofBytes h]
  have hlen : subWithin buf.length wireOffsetMacInner = some (buf.length - 16) :=
    if_pos (by rw [wireOffsetMacInner]; omega)
  have hinside : buf.length - 16 ≤ (buf.drop 16).length := by rw [List.length_drop]
  have hvec : readVec 16 ((buf.drop 0).take 16) = (Wire.ofBytes buf).macOuter := by
    rw [readVec_copy (by omega), Wire.ofBytes, List.drop_zero]
  rw [outerMacReads, hlen, Option.bind_eq_bind, Option.bind_some,
    aes128CmacWithin_eq cmac _ hinside, copyAt_eq (by omega), wireVerifyOuterMac, hauth,
    wireOffsetMacInner, sizeSub_eq (by omega) hfit]
  simp only [Option.bind_eq_bind, Option.bind_some, hvec]
  rfl

theorem dataReads_eq (cipher : Aes128) (hdr : Header) (h : 64 ≤ buf.length)
    (hdvd : 16 ∣ buf.length) :
    dataReads cipher buf hdr (buf.length - 64) = some (buf.take 48 ++ (hdr.bytes ++
      (aes128Decrypt cipher (buf.drop 64) (buf.length - 64)).2)) := by
  have hblocks : 16 * ((buf.length - 64 + 15) / 16) ≤ (buf.drop 64).length := by
    rw [List.length_drop]
    omega
  have htake : (buf.take 64).length = 64 := by
    rw [List.length_take, Nat.min_eq_left h]
  rw [dataReads, decryptBlocksWithin_eq _ _ _ _ hblocks, Option.bind_eq_bind, Option.bind_some,
    writeAt, Header.bytes_length, if_pos (by rw [List.length_append, htake]; omega),
    List.take_append_of_le_length (by omega), List.take_take, List.drop_left' htake]
  rfl

theorem dataReads_none (cipher : Aes128) (hdr : Header) (h : 64 ≤ buf.length)
    (hdvd : ¬16 ∣ buf.length) : dataReads cipher buf hdr (buf.length - 64) = none := by
  have hblocks : (buf.drop 64).length < 16 * ((buf.length - 64 + 15) / 16) := by
    rw [List.length_drop]
    omega
  rw [dataReads, decryptBlocksWithin_none _ _ _ _ hblocks]
  rfl

/-- The checks after the inner MAC, in the order of the source. -/
theorem verifiedReads_cases (h : 64 ≤ buf.length) (cipher cmac : Aes128) :
    let out := wireDecryptHeader cipher (Wire.ofBytes buf)
    verifiedReads buf buf.length cipher cmac =
      if buf.length ≠ headerGetLength out.2 then some (false, buf)
      else if !wireVerifyOuterMac cmac (Wire.ofBytes buf) buf.length then some (false, buf)
      else (dataReads out.1 buf out.2 (buf.length - 64)).map fun buf => (true, buf) := by
  rw [verifiedReads, headerReads_eq cipher h, Option.bind_eq_bind, Option.bind_some]
  dsimp only
  generalize wireDecryptHeader cipher (Wire.ofBytes buf) = out
  by_cases hlen : buf.length = headerGetLength out.2
  · have hfit : buf.length < 2 ^ 64 := hlen ▸ wirePack64_lt _
    have hsub : subWithin buf.length wireSize = some (buf.length - 64) := if_pos h
    rw [if_neg (not_not.mpr hlen), if_neg (not_not.mpr hlen), ← hlen, hsub,
      outerMacReads_eq cmac h hfit]
    -- the outcome of the MAC is a variable, which keeps the cipher from being evaluated
    generalize wireVerifyOuterMac cmac (Wire.ofBytes buf) buf.length = ok
    cases ok with
    | false => rfl
    | true => exact Option.map_eq_bind.symm
  · rw [if_pos hlen, if_pos hlen]
    rfl

theorem decryptVerified_accepts (w : Wire) (len : ℕ) (cipher cmac : Aes128) :
    (decryptVerified w len cipher cmac).1 = true ↔
      len = headerGetLength (wireDecryptHeader cipher w).2 ∧
        wireVerifyOuterMac cmac w len = true := by
  rw [decryptVerified]
  dsimp only
  generalize wireDecryptHeader cipher w = out
  by_cases hlen : len = headerGetLength out.2
  · rw [if_neg (not_not.mpr hlen), ← hlen]
    cases wireVerifyOuterMac cmac w len <;> simp
  · rw [if_pos hlen]
    simp [hlen]

/-- After the inner MAC the accesses leave the buffer when a wire is accepted whose last
block is not whole, and only then. -/
theorem verifiedReads_spec (h : 64 ≤ buf.length) (cipher cmac : Aes128) :
    let r := decryptVerified (Wire.ofBytes buf) buf.length cipher cmac
    ReadsWhen (verifiedReads buf buf.length cipher cmac) (r.1 = true → 16 ∣ buf.length)
      (r.1, r.2.bytes) := by
  dsimp only
  have hsame := Wire.bytes_ofBytes h
  rw [decryptVerified_accepts, verifiedReads_cases h, decryptVerified]
  dsimp only
  generalize wireDecryptHeader cipher (Wire.ofBytes buf) = out
  by_cases hlen : buf.length = headerGetLength out.2
  · have hfit : buf.length < 2 ^ 64 := hlen ▸ wirePack64_lt _
    have haligned : headerGetAlignedDataLength out.2 = buf.length - 64 := by
      rw [headerGetAlignedDataLength, ← hlen, wireSize, sizeSub_eq h hfit]
    have hbytes := ofBytes_overwrite h out.2
      (aes128Decrypt out.1 (buf.drop 64) (buf.length - 64)).2
    rw [if_neg (not_not.mpr hlen), if_neg (not_not.mpr hlen), ← hlen, haligned]
    generalize wireVerifyOuterMac cmac (Wire.ofBytes buf) buf.length = ok
    cases ok with
    | false => simp [ReadsWhen, hsame]
    | true =>
      rw [Bool.not_true, if_neg Bool.false_ne_true, if_neg Bool.false_ne_true]
      constructor
      · intro hdvd
        rw [dataReads_eq _ _ h (hdvd ⟨rfl, rfl⟩), ← hbytes, Option.map_some]
        rfl
      · intro hdvd
        rw [dataReads_none _ _ h fun hd => hdvd fun _ => hd, Option.map_none]
  · rw [if_pos hlen, if_pos hlen]
    simp [ReadsWhen, hlen, hsame]

theorem Authentic.passes {key : Key} (hauth : Authentic buf key) (h : 64 ≤ buf.length) :
    (decryptVerified (Wire.ofBytes buf) buf.length
      (aes128Init (Wire.ofBytes buf).iv key.cipher) (aes128InitCmac key.mac)).1 = true := by
  have hfit : buf.length < 2 ^ 64 := hauth.wireLen ▸ wirePack64_lt _
  have hsig : headerCheckSignature (plainHeader buf key) = true :=
    decide_eq_true hauth.signature
  rw [decryptVerified_accepts]
  refine ⟨?_, (wireVerifyOuterMac_ofBytes h hfit key).mpr hauth.macOuter⟩
  rw [wireDecryptHeader_ofBytes h, if_pos hsig, hauth.wireLen]

theorem decryptVerified_iff (h : 64 ≤ buf.length) (key : Key) :
    (decryptVerified (Wire.ofBytes buf) buf.length
      (aes128Init (Wire.ofBytes buf).iv key.cipher) (aes128InitCmac key.mac)).1 = true ↔
      Authentic buf key := by
  refine ⟨fun hok => ?_, fun hauth => hauth.passes h⟩
  by_contra hauth
  rw [decryptVerified_rejects h hauth] at hok
  exact Bool.false_ne_true hok

theorem keyReads_spec (h : 64 ≤ buf.length) (key : Key) :
    ReadsWhen (keyReads buf buf.length key)
      (wireVerifyInnerMac (aes128InitCmac key.mac) (Wire.ofBytes buf) = true →
        Authentic buf key → 16 ∣ buf.length)
      ((decryptWithKey (Wire.ofBytes buf) buf.length key).map fun r => (r.1, r.2.bytes)) := by
  have hiv : readVec 16 ((buf.drop 32).take 16) = (Wire.ofBytes buf).iv := by
    rw [readVec_copy (by omega), Wire.ofBytes]
  have hreads := verifiedReads_spec h (aes128Init (Wire.ofBytes buf).iv key.cipher)
    (aes128InitCmac key.mac)
  dsimp only at hreads
  rw [decryptVerified_iff h] at hreads
  rw [keyReads, copyAt_eq (by omega), Option.bind_eq_bind, Option.bind_some]
  dsimp only
  rw [innerMacReads_eq _ h, Option.bind_eq_bind, Option.bind_some, hiv, decryptWithKey]
  generalize wireVerifyInnerMac (aes128InitCmac key.mac) (Wire.ofBytes buf) = ok
  generalize decryptVerified (Wire.ofBytes buf) buf.length _ _ = r at hreads ⊢
  generalize verifiedReads buf buf.length _ _ = reads at hreads ⊢
  cases ok with
  | false => exact (ReadsWhen.pure _).congr (by simp) fun _ => rfl
  | true =>
    have hsome := hreads.map some
    rw [Option.map_eq_bind] at hsome
    exact hsome.congr (by simp) fun _ => rfl

theorem wireWithin_of_selected (h : 64 ≤ buf.length) {key1 key : Key} {key2 : Option Key}
    (hkey : selectedKey (Wire.ofBytes buf) key1 key2 = some key) :
    WireWithin buf key1 key2 ↔ (Authentic buf key → 16 ∣ buf.length) := by
  rw [WireWithin, hkey]
  simp [h]

theorem decryptReads_spec (h : 64 ≤ buf.length) (key1 : Key) (key2 : Option Key) :
    ReadsWhen (decryptReads buf buf.length key1 key2) (WireWithin buf key1 key2)
      ((decryptWire (Wire.ofBytes buf) buf.length key1 key2).1,
        (decryptWire (Wire.ofBytes buf) buf.length key1 key2).2.bytes) := by
  have hsame := Wire.bytes_ofBytes h
  have hfirst := keyReads_spec h key1
  rw [decryptReads.eq_def, decryptWire.eq_def]
  rw [decryptWithKey] at hfirst ⊢
  generalize decryptVerified (Wire.ofBytes buf) buf.length _ _ = r at hfirst ⊢
  -- the second key is tried only where the first does not verify
  cases hmac1 : wireVerifyInnerMac (aes128InitCmac key1.mac) (Wire.ofBytes buf) with
  | true =>
    have hwithin := wireWithin_of_selected h (selectedKey_first hmac1 key2)
    rw [hmac1, if_pos rfl] at hfirst
    rw [if_pos rfl]
    refine ReadsWhen.congr (hfirst.bind (Q := True) fun _ => ReadsWhen.pure _) ?_ fun _ => rfl
    simp [hwithin]
  | false =>
    rw [hmac1, if_neg Bool.false_ne_true] at hfirst
    rw [if_neg Bool.false_ne_true]
    cases key2 with
    | none =>
      have hwithin : WireWithin buf key1 none := by
        simp [WireWithin, selectedKey, hmac1, h]
      refine ReadsWhen.congr (b := (false, (Wire.ofBytes buf).bytes))
        (hfirst.bind (Q := True) fun _ => ReadsWhen.pure (false, buf)) ?_ fun _ => ?_
      · simp [hwithin]
      · rw [hsame]
    | some key2 =>
      have hsecond := keyReads_spec h key2
      dsimp only
      rw [decryptWithKey] at hsecond ⊢
      generalize decryptVerified (Wire.ofBytes buf) buf.length _ _ = r2 at hsecond ⊢
      cases hmac2 : wireVerifyInnerMac (aes128InitCmac key2.mac) (Wire.ofBytes buf) with
      | true =>
        have hwithin := wireWithin_of_selected h (selectedKey_second hmac1 hmac2)
        rw [hmac2, if_pos rfl] at hsecond
        rw [if_pos rfl]
        refine ReadsWhen.congr (hfirst.bind fun _ => hsecond.bind (Q := True) fun _ =>
          ReadsWhen.pure _) ?_ fun _ => rfl
        simp [hwithin]
      | false =>
        have hwithin : WireWithin buf key1 (some key2) := by
          simp [WireWithin, selectedKey, hmac1, hmac2, h]
        rw [hmac2, if_neg Bool.false_ne_true] at hsecond
        rw [if_neg Bool.false_ne_true]
        refine ReadsWhen.congr (b := (false, (Wire.ofBytes buf).bytes))
          (hfirst.bind fun _ => hsecond.bind (Q := True) fun _ => ReadsWhen.pure (false, buf))
          ?_ fun _ => ?_
        · simp [hwithin]
        · rw [hsame]

end

theorem keyReads_short {buf : List UInt8} (h : buf.length < 64) (len : ℕ) (key : Key) :
    keyReads buf len key = none := by
  rw [keyReads]
  by_cases hiv : 48 ≤ buf.length
  · have hmac : innerMacReads (aes128InitCmac key.mac) buf = none := by
      rw [innerMacReads, aes128CmacWithin_block _ (by rw [List.length_drop, blockLen]; omega)]
      rfl
    rw [copyAt_eq (by omega), Option.bind_eq_bind, Option.bind_some]
    dsimp only
    rw [hmac]
    rfl
  · have hcopy : copyAt buf 32 16 = none := if_neg (by omega)
    rw [hcopy]
    rfl

theorem decryptReads_short {buf : List UInt8} (h : buf.length < 64) (len : ℕ) (key1 : Key)
    (key2 : Option Key) : decryptReads buf len key1 key2 = none := by
  rw [decryptReads.eq_def, keyReads_short h]
  rfl

theorem decrypt_wire_within_iff (buf : List UInt8) (key1 : Key) (key2 : Option Key) :
    (decryptReads buf buf.length key1 key2).isSome ↔ WireWithin buf key1 key2 := by
  by_cases h : 64 ≤ buf.length
  · exact (decryptReads_spec h key1 key2).isSome_iff
  · rw [decryptReads_short (not_le.mp h)]
    simp [WireWithin, h]

/-- A cable with no payload: the IV is read behind the buffer. -/
theorem empty_wire_read_past_end :
    ¬(decryptReads [] 0 (Vector.replicate 32 0) none).isSome = true := by
  rw [decryptReads_short (by decide)]
  decide

end Parcel
