import Mathlib

/-!
# The block cipher of `aes128.c`

AES-128 as the C code computes it: the two substitution tables, the key
schedule, the four round functions with their `invert` flag, and `aes_xcrypt`.
A `state_t` is the sixteen bytes of a block seen as `s[4][4]`, so `s[i][j]` is
byte `4 * i + j`; columns are consecutive groups of four bytes.
-/

namespace Parcel.Aes

/-- An array of `AES_BLOCK_SIZE` bytes: a `state_t`, an `iv`, a MAC, a subkey. -/
abbrev Block := Vector UInt8 16

def aesRounds : ℕ := 10

/-- The `round_key` array: `AES_BLOCK_SIZE * (AES_ROUNDS + 1)` bytes. -/
abbrev RoundKey := Vector UInt8 176

/-- Four shifted copies of `x` selected by the low bits of `y`, the three
overflow bits reduced through a table; the sum is below `2 ^ 11`. -/
def gfmul (x y : UInt8) : UInt8 :=
  let mask : List ℕ := [0x00, 0x1b, 0x36, 0x2d, 0x6c, 0x77, 0x5a, 0x41]
  let r := (x.toNat * (y.toNat &&& 0x1)) ^^^ (x.toNat * (y.toNat &&& 0x2)) ^^^
    (x.toNat * (y.toNat &&& 0x4)) ^^^ (x.toNat * (y.toNat &&& 0x8))
  UInt8.ofNat (r ^^^ mask.getD (r >>> 8) 0)

def xor128 (a b : Block) : Block := Vector.zipWith (· ^^^ ·) a b

def sbox : List UInt8 := [
  0x63, 0x7c, 0x77, 0x7b, 0xf2, 0x6b, 0x6f, 0xc5, 0x30, 0x01, 0x67, 0x2b, 0xfe, 0xd7, 0xab, 0x76,
  0xca, 0x82, 0xc9, 0x7d, 0xfa, 0x59, 0x47, 0xf0, 0xad, 0xd4, 0xa2, 0xaf, 0x9c, 0xa4, 0x72, 0xc0,
  0xb7, 0xfd, 0x93, 0x26, 0x36, 0x3f, 0xf7, 0xcc, 0x34, 0xa5, 0xe5, 0xf1, 0x71, 0xd8, 0x31, 0x15,
  0x04, 0xc7, 0x23, 0xc3, 0x18, 0x96, 0x05, 0x9a, 0x07, 0x12, 0x80, 0xe2, 0xeb, 0x27, 0xb2, 0x75,
  0x09, 0x83, 0x2c, 0x1a, 0x1b, 0x6e, 0x5a, 0xa0, 0x52, 0x3b, 0xd6, 0xb3, 0x29, 0xe3, 0x2f, 0x84,
  0x53, 0xd1, 0x00, 0xed, 0x20, 0xfc, 0xb1, 0x5b, 0x6a, 0xcb, 0xbe, 0x39, 0x4a, 0x4c, 0x58, 0xcf,
  0xd0, 0xef, 0xaa, 0xfb, 0x43, 0x4d, 0x33, 0x85, 0x45, 0xf9, 0x02, 0x7f, 0x50, 0x3c, 0x9f, 0xa8,
  0x51, 0xa3, 0x40, 0x8f, 0x92, 0x9d, 0x38, 0xf5, 0xbc, 0xb6, 0xda, 0x21, 0x10, 0xff, 0xf3, 0xd2,
  0xcd, 0x0c, 0x13, 0xec, 0x5f, 0x97, 0x44, 0x17, 0xc4, 0xa7, 0x7e, 0x3d, 0x64, 0x5d, 0x19, 0x73,
  0x60, 0x81, 0x4f, 0xdc, 0x22, 0x2a, 0x90, 0x88, 0x46, 0xee, 0xb8, 0x14, 0xde, 0x5e, 0x0b, 0xdb,
  0xe0, 0x32, 0x3a, 0x0a, 0x49, 0x06, 0x24, 0x5c, 0xc2, 0xd3, 0xac, 0x62, 0x91, 0x95, 0xe4, 0x79,
  0xe7, 0xc8, 0x37, 0x6d, 0x8d, 0xd5, 0x4e, 0xa9, 0x6c, 0x56, 0xf4, 0xea, 0x65, 0x7a, 0xae, 0x08,
  0xba, 0x78, 0x25, 0x2e, 0x1c, 0xa6, 0xb4, 0xc6, 0xe8, 0xdd, 0x74, 0x1f, 0x4b, 0xbd, 0x8b, 0x8a,
  0x70, 0x3e, 0xb5, 0x66, 0x48, 0x03, 0xf6, 0x0e, 0x61, 0x35, 0x57, 0xb9, 0x86, 0xc1, 0x1d, 0x9e,
  0xe1, 0xf8, 0x98, 0x11, 0x69, 0xd9, 0x8e, 0x94, 0x9b, 0x1e, 0x87, 0xe9, 0xce, 0x55, 0x28, 0xdf,
  0x8c, 0xa1, 0x89, 0x0d, 0xbf, 0xe6, 0x42, 0x68, 0x41, 0x99, 0x2d, 0x0f, 0xb0, 0x54, 0xbb, 0x16
]

def rsbox : List UInt8 := [
  0x52, 0x09, 0x6a, 0xd5, 0x30, 0x36, 0xa5, 0x38, 0xbf, 0x40, 0xa3, 0x9e, 0x81, 0xf3, 0xd7, 0xfb,
  0x7c, 0xe3, 0x39, 0x82, 0x9b, 0x2f, 0xff, 0x87, 0x34, 0x8e, 0x43, 0x44, 0xc4, 0xde, 0xe9, 0xcb,
  0x54, 0x7b, 0x94, 0x32, 0xa6, 0xc2, 0x23, 0x3d, 0xee, 0x4c, 0x95, 0x0b, 0x42, 0xfa, 0xc3, 0x4e,
  0x08, 0x2e, 0xa1, 0x66, 0x28, 0xd9, 0x24, 0xb2, 0x76, 0x5b, 0xa2, 0x49, 0x6d, 0x8b, 0xd1, 0x25,
  0x72, 0xf8, 0xf6, 0x64, 0x86, 0x68, 0x98, 0x16, 0xd4, 0xa4, 0x5c, 0xcc, 0x5d, 0x65, 0xb6, 0x92,
  0x6c, 0x70, 0x48, 0x50, 0xfd, 0xed, 0xb9, 0xda, 0x5e, 0x15, 0x46, 0x57, 0xa7, 0x8d, 0x9d, 0x84,
  0x90, 0xd8, 0xab, 0x00, 0x8c, 0xbc, 0xd3, 0x0a, 0xf7, 0xe4, 0x58, 0x05, 0xb8, 0xb3, 0x45, 0x06,
  0xd0, 0x2c, 0x1e, 0x8f, 0xca, 0x3f, 0x0f, 0x02, 0xc1, 0xaf, 0xbd, 0x03, 0x01, 0x13, 0x8a, 0x6b,
  0x3a, 0x91, 0x11, 0x41, 0x4f, 0x67, 0xdc, 0xea, 0x97, 0xf2, 0xcf, 0xce, 0xf0, 0xb4, 0xe6, 0x73,
  0x96, 0xac, 0x74, 0x22, 0xe7, 0xad, 0x35, 0x85, 0xe2, 0xf9, 0x37, 0xe8, 0x1c, 0x75, 0xdf, 0x6e,
  0x47, 0xf1, 0x1a, 0x71, 0x1d, 0x29, 0xc5, 0x89, 0x6f, 0xb7, 0x62, 0x0e, 0xaa, 0x18, 0xbe, 0x1b,
  0xfc, 0x56, 0x3e, 0x4b, 0xc6, 0xd2, 0x79, 0x20, 0x9a, 0xdb, 0xc0, 0xfe, 0x78, 0xcd, 0x5a, 0xf4,
  0x1f, 0xdd, 0xa8, 0x33, 0x88, 0x07, 0xc7, 0x31, 0xb1, 0x12, 0x10, 0x59, 0x27, 0x80, 0xec, 0x5f,
  0x60, 0x51, 0x7f, 0xa9, 0x19, 0xb5, 0x4a, 0x0d, 0x2d, 0xe5, 0x7a, 0x9f, 0x93, 0xc9, 0x9c, 0xef,
  0xa0, 0xe0, 0x3b, 0x4d, 0xae, 0x2a, 0xf5, 0xb0, 0xc8, 0xeb, 0xbb, 0x3c, 0x83, 0x53, 0x99, 0x61,
  0x17, 0x2b, 0x04, 0x7e, 0xba, 0x77, 0xd6, 0x26, 0xe1, 0x69, 0x14, 0x63, 0x55, 0x21, 0x0c, 0x7d
]

def sboxLookup (index : UInt8) (invert : Bool) : UInt8 :=
  if invert then rsbox.getD index.toNat 0 else sbox.getD index.toNat 0

/-- The table `round_constants`, indexed by `i / 4`. -/
def roundConstants : List UInt8 :=
  [0x8d, 0x01, 0x02, 0x04, 0x08, 0x10, 0x20, 0x40, 0x80, 0x1b, 0x36]

/-- One turn of the loop of `aes_key_expansion`: word `i` is written after the
`4 * i` bytes that are already there. -/
def expandWord (roundKey : List UInt8) (i : ℕ) : List UInt8 :=
  let at_ := fun k => roundKey.getD k 0
  let word := [at_ (4 * (i - 1)), at_ (4 * (i - 1) + 1), at_ (4 * (i - 1) + 2),
    at_ (4 * (i - 1) + 3)]
  let word :=
    if i % 4 = 0 then
      match (word.rotate 1).map (sboxLookup · false) with
      | w0 :: ws => (w0 ^^^ roundConstants.getD (i / 4) 0) :: ws
      | [] => []
    else word
  roundKey ++ word.mapIdx fun j w => at_ (4 * (i - 4) + j) ^^^ w

@[irreducible] def aesKeyExpansion (key : Block) : RoundKey :=
  let roundKey := (List.range' 4 40).foldl expandWord key.toList
  Vector.ofFn fun k => roundKey.getD k 0

def aesAddRoundKey (ctx : Block) (round : ℕ) (roundKey : RoundKey) : Block :=
  Vector.ofFn fun k : Fin 16 => ctx[k] ^^^ roundKey.toList.getD (16 * round + k) 0

def aesSubstituteBytes (ctx : Block) (invert : Bool) : Block :=
  ctx.map (sboxLookup · invert)

/-- The lvalue `ctx->s[i][j]`. -/
def cell (i j : Fin 4) : Fin 16 := ⟨4 * i + j, by omega⟩

/-- The assignments of `aes_shift_rows` in the source's order, `r1x` and `r3x`
being the two index arrays that `invert` chooses. -/
def aesShiftRows (ctx : Block) (invert : Bool) : Block :=
  let r1x : Vector (Fin 4) 4 := if invert then #v[3, 2, 1, 0] else #v[0, 1, 2, 3]
  let r3x : Vector (Fin 4) 4 := if invert then #v[0, 3, 2, 1] else #v[0, 1, 2, 3]
  -- row 1, one column
  let s := ctx[cell r1x[0] 1]
  let ctx := ctx.set (cell r1x[0] 1) ctx[cell r1x[1] 1]
  let ctx := ctx.set (cell r1x[1] 1) ctx[cell r1x[2] 1]
  let ctx := ctx.set (cell r1x[2] 1) ctx[cell r1x[3] 1]
  let ctx := ctx.set (cell r1x[3] 1) s
  -- row 2, two columns
  let s := ctx[cell 0 2]
  let ctx := ctx.set (cell 0 2) ctx[cell 2 2]
  let ctx := ctx.set (cell 2 2) s
  let s := ctx[cell 1 2]
  let ctx := ctx.set (cell 1 2) ctx[cell 3 2]
  let ctx := ctx.set (cell 3 2) s
  -- row 3, three columns
  let s := ctx[cell r3x[0] 3]
  let ctx := ctx.set (cell r3x[0] 3) ctx[cell r3x[3] 3]
  let ctx := ctx.set (cell r3x[3] 3) ctx[cell r3x[2] 3]
  let ctx := ctx.set (cell r3x[2] 3) ctx[cell r3x[1] 3]
  ctx.set (cell r3x[1] 3) s

/-- Doubling as `aes_mix_columns` writes it. -/
def xtime (c : UInt8) : UInt8 := (c <<< 1) ^^^ (((c >>> 7) &&& 1) * 0x1b)

def invMixColumn (s0 s1 s2 s3 : UInt8) : Vector UInt8 4 := #v[
  gfmul s0 0xe ^^^ gfmul s1 0xb ^^^ gfmul s2 0xd ^^^ gfmul s3 0x9,
  gfmul s0 0x9 ^^^ gfmul s1 0xe ^^^ gfmul s2 0xb ^^^ gfmul s3 0xd,
  gfmul s0 0xd ^^^ gfmul s1 0x9 ^^^ gfmul s2 0xe ^^^ gfmul s3 0xb,
  gfmul s0 0xb ^^^ gfmul s1 0xd ^^^ gfmul s2 0x9 ^^^ gfmul s3 0xe]

/-- One column of the forward branch. Byte `j + 1` is read before it is
overwritten, and the last byte uses the copy `c0` of the first. -/
def mixColumn (s0 s1 s2 s3 : UInt8) : Vector UInt8 4 :=
  let s := s0 ^^^ s1 ^^^ s2 ^^^ s3
  #v[s0 ^^^ (xtime (s0 ^^^ s1) ^^^ s), s1 ^^^ (xtime (s1 ^^^ s2) ^^^ s),
    s2 ^^^ (xtime (s2 ^^^ s3) ^^^ s), s3 ^^^ (xtime (s3 ^^^ s0) ^^^ s)]

/-- The new value of column `i`. -/
def mixedColumn (ctx : Block) (invert : Bool) (i : Fin 4) : Vector UInt8 4 :=
  (if invert then invMixColumn else mixColumn)
    ctx[cell i 0] ctx[cell i 1] ctx[cell i 2] ctx[cell i 3]

def aesMixColumns (ctx : Block) (invert : Bool) : Block :=
  Vector.ofFn fun k : Fin 16 =>
    (mixedColumn ctx invert ⟨k / 4, by omega⟩).get ⟨k % 4, by omega⟩

/-- The body of the forward loop up to the key addition, `i < AES_ROUNDS`. -/
def encryptRound (roundKey : RoundKey) (state : Block) (i : ℕ) : Block :=
  aesAddRoundKey (aesMixColumns (aesShiftRows (aesSubstituteBytes state false) false) false)
    i roundKey

/-- The body of the inverse loop, `i < AES_ROUNDS - 1`. -/
def decryptRound (roundKey : RoundKey) (state : Block) (i : ℕ) : Block :=
  aesMixColumns (aesAddRoundKey (aesSubstituteBytes (aesShiftRows state true) true)
    (aesRounds - 1 - i) roundKey) true

/-- Both loops leave in the middle of their last turn, before the column mix. -/
@[irreducible] def aesXcrypt (state : Block) (roundKey : RoundKey) (decrypt : Bool) : Block :=
  if decrypt then
    let state := aesAddRoundKey state aesRounds roundKey
    let state := (List.range (aesRounds - 1)).foldl (decryptRound roundKey) state
    aesAddRoundKey (aesSubstituteBytes (aesShiftRows state true) true) 0 roundKey
  else
    let state := aesAddRoundKey state 0 roundKey
    let state := (List.range' 1 (aesRounds - 1)).foldl (encryptRound roundKey) state
    aesAddRoundKey (aesShiftRows (aesSubstituteBytes state false) false) aesRounds roundKey

end Parcel.Aes
