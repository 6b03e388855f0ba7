import Parcel.ByteStrings
import Parcel.Cbc
import Parcel.CipherInverse

/-!
# CBC and CMAC of `aes128.c`

The context `aes128_t`, the two in-place CBC calls and `aes128_cmac`, over byte
regions. A region is the list of the bytes from a pointer on; `length` is the
argument of the call, and a call rewrites the `⌈length / 16⌉` blocks at the front
of the region and leaves the rest.
-/

namespace Parcel.Aes
open ByteStrings

structure Aes128 where
  roundKey : RoundKey
  iv : Block

def aes128Init (iv key : Block) : Aes128 := ⟨aesKeyExpansion key, iv⟩

/-- The `memset` of the context leaves a zero `iv`, which the CMAC never reads. -/
def aes128InitCmac (key : Block) : Aes128 := ⟨aesKeyExpansion key, Vector.replicate 16 0⟩

/-- The loop of `aes128_encrypt`: `iv` points at the last ciphertext block. -/
def encryptBlocks (rk : RoundKey) : ℕ → Block → List UInt8 → Block × List UInt8
  | 0, iv, chunk => (iv, chunk)
  | n + 1, iv, chunk =>
    let c := aesXcrypt (xor128 (readVec 16 chunk) iv) rk false
    let next := encryptBlocks rk n c (chunk.drop 16)
    (next.1, c.toList ++ next.2)

/-- The loop of `aes128_decrypt`: the ciphertext block is copied before it is overwritten. -/
def decryptBlocks (rk : RoundKey) : ℕ → Block → List UInt8 → Block × List UInt8
  | 0, iv, chunk => (iv, chunk)
  | n + 1, iv, chunk =>
    let c := readVec 16 chunk
    let next := decryptBlocks rk n c (chunk.drop 16)
    (next.1, (xor128 (aesXcrypt c rk true) iv).toList ++ next.2)

def aes128Encrypt (ctx : Aes128) (chunk : List UInt8) (length : ℕ) : Aes128 × List UInt8 :=
  let out := encryptBlocks ctx.roundKey ((length + 15) / 16) ctx.iv chunk
  ({ ctx with iv := out.1 }, out.2)

def aes128Decrypt (ctx : Aes128) (chunk : List UInt8) (length : ℕ) : Aes128 × List UInt8 :=
  let out := decryptBlocks ctx.roundKey ((length + 15) / 16) ctx.iv chunk
  ({ ctx with iv := out.1 }, out.2)

/-- The first `n` blocks of a region. -/
def toBlocks : ℕ → List UInt8 → List Block
  | 0, _ => []
  | n + 1, chunk => readVec 16 chunk :: toBlocks n (chunk.drop 16)

def ofBlocks (bs : List Block) : List UInt8 := bs.flatMap Vector.toList

@[simp] theorem toBlocks_length (n : ℕ) (chunk : List UInt8) : (toBlocks n chunk).length = n := by
  induction n generalizing chunk with
  | zero => rfl
  | succ n ih => simp [toBlocks, ih]

@[simp] theorem ofBlocks_length (bs : List Block) : (ofBlocks bs).length = 16 * bs.length := by
  induction bs with
  | nil => rfl
  | cons b bs ih =>
    simp only [ofBlocks, List.flatMap_cons, List.length_append, Vector.length_toList,
      List.length_cons] at ih ⊢
    omega

theorem toBlocks_ofBlocks (bs : List Block) (rest : List UInt8) :
    toBlocks bs.length (ofBlocks bs ++ rest) = bs := by
  induction bs with
  | nil => rfl
  | cons b bs ih =>
    have hdrop : (b.toList ++ (ofBlocks bs ++ rest)).drop 16 = ofBlocks bs ++ rest :=
      List.drop_left' (by simp)
    change readVec 16 ((b.toList ++ ofBlocks bs) ++ rest) ::
      toBlocks bs.length (((b.toList ++ ofBlocks bs) ++ rest).drop 16) = b :: bs
    rw [List.append_assoc, readVec_append, hdrop, ih]

theorem ofBlocks_toBlocks (n : ℕ) (chunk : List UInt8) (h : 16 * n ≤ chunk.length) :
    ofBlocks (toBlocks n chunk) = chunk.take (16 * n) := by
  induction n generalizing chunk with
  | zero => simp [toBlocks, ofBlocks]
  | succ n ih =>
    have hd := ih (chunk.drop 16) (by simp; omega)
    change (readVec 16 chunk).toList ++ ofBlocks (toBlocks n (chunk.drop 16)) = _
    rw [hd, toList_readVec (by omega), Nat.mul_succ, Nat.add_comm, List.take_add]

theorem encryptBlocks_eq (rk : RoundKey) (n : ℕ) (iv : Block) (chunk : List UInt8) :
    let cs := Cbc.encrypt xor128 (aesXcrypt · rk false) iv (toBlocks n chunk)
    encryptBlocks rk n iv chunk = (cs.getLastD iv, ofBlocks cs ++ chunk.drop (16 * n)) := by
  induction n generalizing iv chunk with
  | zero => rfl
  | succ n ih =>
    simp only [encryptBlocks, ih, toBlocks, Cbc.encrypt, List.getLastD_cons, ofBlocks,
      List.flatMap_cons, List.append_assoc, List.drop_drop]
    rw [Nat.mul_succ, Nat.add_comm 16]

theorem decryptBlocks_eq (rk : RoundKey) (n : ℕ) (iv : Block) (chunk : List UInt8) :
    let cs := toBlocks n chunk
    decryptBlocks rk n iv chunk = (cs.getLastD iv,
      ofBlocks (Cbc.decrypt xor128 (aesXcrypt · rk true) iv cs) ++ chunk.drop (16 * n)) := by
  induction n generalizing iv chunk with
  | zero => rfl
  | succ n ih =>
    simp only [decryptBlocks, ih, toBlocks, Cbc.decrypt, List.getLastD_cons, ofBlocks,
      List.flatMap_cons, List.append_assoc, List.drop_drop]
    rw [Nat.mul_succ, Nat.add_comm 16]

theorem encryptBlocks_length (rk : RoundKey) (n : ℕ) (iv : Block) (chunk : List UInt8)
    (h : 16 * n ≤ chunk.length) : (encryptBlocks rk n iv chunk).2.length = chunk.length := by
  simp only [encryptBlocks_eq, List.length_append, ofBlocks_length, Cbc.encrypt_length,
    toBlocks_length, List.length_drop]
  omega

/-- Decrypting what was encrypted from the same chaining value gives back the
region, and both calls end on the same chaining value. -/
theorem decryptBlocks_encryptBlocks (rk : RoundKey) (n : ℕ) (iv : Block) (chunk : List UInt8)
    (h : 16 * n ≤ chunk.length) :
    decryptBlocks rk n iv (encryptBlocks rk n iv chunk).2 =
      ((encryptBlocks rk n iv chunk).1, chunk) := by
  have hinv := Cbc.decrypt_encrypt (E := (aesXcrypt · rk false)) (D := (aesXcrypt · rk true))
    xor128_cancel (fun x => aesXcrypt_inverse x rk) iv (toBlocks n chunk)
  have hblocks := toBlocks_ofBlocks
    (Cbc.encrypt xor128 (aesXcrypt · rk false) iv (toBlocks n chunk)) (chunk.drop (16 * n))
  simp only [Cbc.encrypt_length, toBlocks_length] at hblocks
  rw [decryptBlocks_eq, encryptBlocks_eq]
  simp only [hblocks, hinv, ofBlocks_toBlocks n chunk h]
  rw [List.drop_left' (by simp), List.take_append_drop]

/-- A left shift of the sixteen bytes, most significant byte first, reduced by
`const_Rb` when a bit falls out. -/
def aesGenerateSubkey (key : Block) : Block :=
  let msb := key[0] &&& 0x80
  let shifted : Block := Vector.ofFn fun i =>
    if h : i.val < 15 then (key[i] <<< 1) ||| (key[i.val + 1] >>> 7) else key[i] <<< 1
  if msb ≠ 0 then shifted.set 15 (shifted[15] ^^^ 0x87) else shifted

/-- The constant `AES_KEY_BITS`, which is also the padding bit. -/
def aesKeyBits : UInt8 := 128

/-- The exclusive or of the byte at `i`, for a variable index. -/
def xorAt (b : Block) (i : ℕ) (x : UInt8) : Block :=
  b.setIfInBounds i (b.toList.getD i 0 ^^^ x)

/-- The loop of `aes128_cmac` with `length` bytes to go. A last block of up to
sixteen bytes is folded into the subkey buffer, which then takes the place of
`msg`, and `length` is set back to sixteen so that the loop ends. -/
def cmacLoop (rk : RoundKey) (L block : Block) (msg : List UInt8) (length : ℕ) : Block :=
  if length = 0 then block
  else if length ≤ 16 then
    let L := if length < 16 then xorAt (aesGenerateSubkey L) length aesKeyBits else L
    let L : Block := Vector.ofFn fun i =>
      if i.val < length then L.get i ^^^ msg.getD i 0 else L.get i
    aesXcrypt (xor128 block L) rk false
  else
    cmacLoop rk L (aesXcrypt (xor128 block (readVec 16 msg)) rk false) (msg.drop 16) (length - 16)
termination_by length

@[irreducible] def aes128Cmac (ctx : Aes128) (msg : List UInt8) (length : ℕ) : Block :=
  let zero : Block := Vector.replicate 16 0
  let L := aesGenerateSubkey (aesXcrypt zero ctx.roundKey false)
  if length = 0 then
    let L := xorAt (aesGenerateSubkey L) 0 aesKeyBits
    aesXcrypt (xor128 zero L) ctx.roundKey false
  else cmacLoop ctx.roundKey L zero msg length

end Parcel.Aes
