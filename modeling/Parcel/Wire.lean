import Parcel.Aes128Modes
import Parcel.WireUtil

/-!
# Wires

The packed struct `wire_t` and the functions of `wire.c`: building a wire,
encrypting it in place with its two nested MACs, and decrypting it with one of
two keys. Field accesses through a `wire_t *` are reads of the sixteen-byte
groups at offsets 0, 16, 32 and 48 of the buffer, with the data from offset 64.
-/

namespace Parcel
open ByteStrings Aes

/-- An array of `KEY_LEN` bytes: a cipher key at `CIPHER_OFFSET`, a MAC key at
`CMAC_OFFSET`. -/
abbrev Key := Vector UInt8 32

def Key.cipher (key : Key) : Block := readVec 16 key.toList
def Key.mac (key : Key) : Block := readVec 16 (key.toList.drop 16)

/-- The members of `wire_type_t` that a wire can carry; `TYPE_ERROR` is not one. -/
inductive WireType
  | none | text | file | ctrl | stat | sessionKey
  deriving DecidableEq, Repr

def WireType.code : WireType → UInt8
  | .none => 0
  | .text => 1
  | .file => 2
  | .ctrl => 3
  | .stat => 4
  | .sessionKey => 5

/-- The struct `header_t`, sixteen bytes. -/
structure Header where
  signature : Vector UInt8 6
  wireLen : Vector UInt8 8
  alignment : UInt8
  type : UInt8
  deriving DecidableEq

def Header.bytes (h : Header) : List UInt8 :=
  h.signature.toList ++ (h.wireLen.toList ++ [h.alignment, h.type])

/-- The cast of sixteen bytes to `header_t`. -/
def Header.ofBytes (mem : List UInt8) : Header :=
  ⟨readVec 6 mem, readVec 8 (mem.drop 6), mem.getD 14 0, mem.getD 15 0⟩

/-- The struct `wire_t` with its flexible array. -/
structure Wire where
  macOuter : Block
  macInner : Block
  iv : Block
  header : Header
  data : List UInt8
  deriving DecidableEq

/-- The size of `wire_t` without data. -/
def wireSize : ℕ := 64

def blockLen : ℕ := 16

def wireOffsetMacInner : ℕ := 16

/-- The region that the outer MAC covers: inner MAC, IV, header and data. -/
def Wire.authBytes (w : Wire) : List UInt8 :=
  w.macInner.toList ++ (w.iv.toList ++ (w.header.bytes ++ w.data))

def Wire.bytes (w : Wire) : List UInt8 := w.macOuter.toList ++ w.authBytes

/-- The cast of a buffer to `wire_t`. -/
def Wire.ofBytes (mem : List UInt8) : Wire :=
  ⟨readVec 16 mem, readVec 16 (mem.drop 16), readVec 16 (mem.drop 32),
    Header.ofBytes (mem.drop 48), mem.drop 64⟩

@[simp] theorem Header.bytes_length (h : Header) : h.bytes.length = 16 := by simp [Header.bytes]

@[simp] theorem Wire.bytes_length (w : Wire) : w.bytes.length = 64 + w.data.length := by
  simp [Wire.bytes, Wire.authBytes]
  omega

theorem Header.ofBytes_append (h : Header) (rest : List UInt8) :
    Header.ofBytes (h.bytes ++ rest) = h := by
  obtain ⟨signature, wireLen, alignment, type⟩ := h
  have hdrop : (signature.toList ++ (wireLen.toList ++ ([alignment, type] ++ rest))).drop 6 =
      wireLen.toList ++ ([alignment, type] ++ rest) := List.drop_left' (by simp)
  simp only [Header.ofBytes, Header.bytes, List.append_assoc, hdrop, readVec_append,
    Header.mk.injEq, true_and]
  simp [List.getElem?_append_right]

theorem Header.ofBytes_bytes (h : Header) : Header.ofBytes h.bytes = h := by
  simpa using Header.ofBytes_append h []

theorem Header.bytes_ofBytes {mem : List UInt8} (h : 16 ≤ mem.length) :
    (Header.ofBytes mem).bytes = mem.take 16 := by
  have htail : (mem.drop 14).take 2 = [mem.getD 14 0, mem.getD 15 0] := by
    apply List.ext_getElem
    · simp; omega
    · intro k hk hk'
      have : k < 2 := by simpa using hk'
      interval_cases k <;> simp [show 14 < mem.length by omega, show 15 < mem.length by omega]
  rw [Header.bytes, Header.ofBytes, toList_readVec (by omega),
    toList_readVec (by simp; omega), ← htail, show 16 = 6 + (8 + 2) by rfl, List.take_add,
    List.take_add, List.drop_drop]

theorem Wire.ofBytes_bytes (w : Wire) : Wire.ofBytes w.bytes = w := by
  obtain ⟨macOuter, macInner, iv, header, data⟩ := w
  have drop16 (v : Block) (n : ℕ) (rest : List UInt8) :
      (v.toList ++ rest).drop (16 + n) = rest.drop n := by
    rw [← List.drop_drop, List.drop_left' (by simp)]
  have dropHeader (rest : List UInt8) : (header.bytes ++ rest).drop 16 = rest :=
    List.drop_left' (by simp)
  simp only [Wire.ofBytes, Wire.bytes, Wire.authBytes, Wire.mk.injEq]
  refine ⟨readVec_append _ _, ?_, ?_, ?_, ?_⟩
  · rw [drop16 _ 0, List.drop_zero, readVec_append]
  · rw [drop16 _ 16, drop16 _ 0, List.drop_zero, readVec_append]
  · rw [drop16 _ 32, drop16 _ 16, drop16 _ 0, List.drop_zero, Header.ofBytes_append]
  · rw [drop16 _ 48, drop16 _ 32, drop16 _ 16, dropHeader]

theorem Wire.bytes_ofBytes {mem : List UInt8} (h : 64 ≤ mem.length) :
    (Wire.ofBytes mem).bytes = mem := by
  have step (n : ℕ) (hn : n + 16 ≤ mem.length) :
      (readVec 16 (mem.drop n)).toList ++ mem.drop (n + 16) = mem.drop n := by
    have hlen : 16 ≤ (mem.drop n).length := by rw [List.length_drop]; omega
    simpa [List.drop_drop] using readVec_append_drop hlen
  have hheader : (Header.ofBytes (mem.drop 48)).bytes ++ mem.drop 64 = mem.drop 48 := by
    rw [Header.bytes_ofBytes (by simp; omega), show 64 = 48 + 16 by rfl, ← List.drop_drop,
      List.take_append_drop]
  simp only [Wire.bytes, Wire.authBytes, Wire.ofBytes]
  rw [hheader, step 32 (by omega), step 16 (by omega)]
  simpa using step 0 (by omega)

/-- The macro `ROUND_UP (len, BLOCK_LEN)` on `size_t`. -/
def getAlignedLen (len : ℕ) : ℕ := (len + blockLen - 1) % 2 ^ 64 &&& (2 ^ 64 - blockLen)

def headerGetAlignment (h : Header) : ℕ := h.alignment.toNat
def headerGetLength (h : Header) : ℕ := wirePack64 h.wireLen
def headerGetDataLength (h : Header) : ℕ :=
  sizeSub (sizeSub (headerGetLength h) wireSize) (headerGetAlignment h)
def headerGetAlignedDataLength (h : Header) : ℕ := sizeSub (headerGetLength h) wireSize

def wireGetLength (w : Wire) : ℕ := headerGetLength w.header
def wireGetDataLength (w : Wire) : ℕ := headerGetDataLength w.header
def wireGetAlignedDataLength (w : Wire) : ℕ := headerGetAlignedDataLength w.header
def wireGetType (w : Wire) : UInt8 := w.header.type

/-- The six bytes `-wire-`. -/
def wireSignature : Vector UInt8 6 := #v[0x2d, 0x77, 0x69, 0x72, 0x65, 0x2d]

def headerCheckSignature (h : Header) : Bool := decide (h.signature = wireSignature)

/-- The compound literal `(header_t) { 0 }`. -/
def zeroHeader : Header := ⟨Vector.replicate 6 0, Vector.replicate 8 0, 0, 0⟩

/-- The function `init_wire`: `rnd` is what `xgetrandom` stored for the IV, or
`none` when it failed. The buffer is zeroed, so the bytes after the data are
zero up to the block boundary. -/
def initWire (type : WireType) (data : List UInt8) (rnd : Option Block) : Option Wire :=
  let dataLength := getAlignedLen data.length
  let alignment := sizeSub dataLength data.length
  let wireLength := sizeAdd wireSize dataLength
  rnd.map fun iv =>
    { macOuter := Vector.replicate 16 0
      macInner := Vector.replicate 16 0
      iv := iv
      header := ⟨wireSignature, wireUnpack64 wireLength, UInt8.ofNat alignment, type.code⟩
      data := data ++ List.replicate (dataLength - data.length) 0 }

def wireGenCmacs (cmac : Aes128) (w : Wire) (len : ℕ) : Wire :=
  let w := { w with macInner := aes128Cmac cmac w.header.bytes blockLen }
  { w with macOuter := aes128Cmac cmac w.authBytes (sizeSub len wireOffsetMacInner) }

/-- The body of `encrypt_wire` after its null checks. -/
def encryptWire (w : Wire) (key : Key) : Wire :=
  let cipher := aes128Init w.iv key.cipher
  let cmac := aes128InitCmac key.mac
  let dataLen := wireGetAlignedDataLength w
  let wireLen := wireGetLength w
  let header := aes128Encrypt cipher w.header.bytes blockLen
  let data := aes128Encrypt header.1 w.data dataLen
  wireGenCmacs cmac { w with header := Header.ofBytes header.2, data := data.2 } wireLen

/-- Decryption of a copy of the header; an invalid signature gives a zero header. -/
def wireDecryptHeader (aes128 : Aes128) (w : Wire) : Aes128 × Header :=
  let out := aes128Decrypt aes128 w.header.bytes blockLen
  let h := Header.ofBytes out.2
  (out.1, if headerCheckSignature h then h else zeroHeader)

def wireDecryptData (aes128 : Aes128) (w : Wire) (len : ℕ) : Wire :=
  { w with data := (aes128Decrypt aes128 w.data len).2 }

def wireVerifyOuterMac (aes128 : Aes128) (w : Wire) (wireLen : ℕ) : Bool :=
  decide (w.macOuter = aes128Cmac aes128 w.authBytes (sizeSub wireLen wireOffsetMacInner))

def wireVerifyInnerMac (aes128 : Aes128) (w : Wire) : Bool :=
  decide (w.macInner = aes128Cmac aes128 w.header.bytes blockLen)

/-- What follows a successful inner MAC check in `decrypt_wire`. -/
def decryptVerified (w : Wire) (len : ℕ) (cipher cmac : Aes128) : Bool × Wire :=
  let out := wireDecryptHeader cipher w
  let h := out.2
  let wireLen := headerGetLength h
  if len ≠ wireLen then (false, w)
  else if !wireVerifyOuterMac cmac w wireLen then (false, w)
  else (true, { wireDecryptData out.1 w (headerGetAlignedDataLength h) with header := h })

/-- One pass from the label `init` with the given key; `none` when the inner MAC
does not verify. -/
def decryptWithKey (w : Wire) (len : ℕ) (key : Key) : Option (Bool × Wire) :=
  let cipher := aes128Init w.iv key.cipher
  let cmac := aes128InitCmac key.mac
  if wireVerifyInnerMac cmac w then some (decryptVerified w len cipher cmac) else none

/-- The function `decrypt_wire`: the result and the buffer afterwards. The two
keys are at different addresses, so `key == key1` holds on the first pass only. -/
def decryptWire (w : Wire) (len : ℕ) (key1 : Key) (key2 : Option Key) : Bool × Wire :=
  match decryptWithKey w len key1 with
  | some r => r
  | none =>
    match key2 with
    | none => (false, w)
    | some key2 => (decryptWithKey w len key2).getD (false, w)

end Parcel
