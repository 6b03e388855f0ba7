import Parcel.ByteStrings

/-!
# SHA-256 of `sha256.c`

The context `sha256_t` with its three calls. The working variables of the
compression stay in place in an array while the indices of their names rotate.
-/

namespace Parcel.Sha256
open ByteStrings

abbrev State := Vector UInt32 8

def shr (x n : UInt32) : UInt32 := x >>> n
def rotr (x n : UInt32) : UInt32 := (x >>> n) ||| (x <<< (0x20 - n))
def ch (x y z : UInt32) : UInt32 := (x &&& y) ^^^ (~~~x &&& z)
def maj (x y z : UInt32) : UInt32 := (x &&& y) ^^^ (x &&& z) ^^^ (y &&& z)
def sum0 (x : UInt32) : UInt32 := rotr x 0x02 ^^^ rotr x 0x0d ^^^ rotr x 0x16
def sum1 (x : UInt32) : UInt32 := rotr x 0x06 ^^^ rotr x 0x0b ^^^ rotr x 0x19
def sig0 (x : UInt32) : UInt32 := rotr x 0x07 ^^^ rotr x 0x12 ^^^ shr x 0x03
def sig1 (x : UInt32) : UInt32 := rotr x 0x11 ^^^ rotr x 0x13 ^^^ shr x 0x0a

structure Context where
  data : Vector UInt8 64
  blockBytes : ℕ
  bitsTotal : UInt64
  state : State

def sha256Init : Context :=
  { data := Vector.replicate 64 0
    blockBytes := 0
    bitsTotal := 0
    state := #v[0x6a09e667, 0xbb67ae85, 0x3c6ef372, 0xa54ff53a,
      0x510e527f, 0x9b05688c, 0x1f83d9ab, 0x5be0cd19] }

def k : Vector UInt32 64 := #v[
  0x428a2f98, 0x71374491, 0xb5c0fbcf, 0xe9b5dba5, 0x3956c25b, 0x59f111f1, 0x923f82a4, 0xab1c5ed5,
  0xd807aa98, 0x12835b01, 0x243185be, 0x550c7dc3, 0x72be5d74, 0x80deb1fe, 0x9bdc06a7, 0xc19bf174,
  0xe49b69c1, 0xefbe4786, 0x0fc19dc6, 0x240ca1cc, 0x2de92c6f, 0x4a7484aa, 0x5cb0a9dc, 0x76f988da,
  0x983e5152, 0xa831c66d, 0xb00327c8, 0xbf597fc7, 0xc6e00bf3, 0xd5a79147, 0x06ca6351, 0x14292967,
  0x27b70a85, 0x2e1b2138, 0x4d2c6dfc, 0x53380d13, 0x650a7354, 0x766a0abb, 0x81c2c92e, 0x92722c85,
  0xa2bfe8a1, 0xa81a664b, 0xc24b8b70, 0xc76c51a3, 0xd192e819, 0xd6990624, 0xf40e3585, 0x106aa070,
  0x19a4c116, 0x1e376c08, 0x2748774c, 0x34b0bcb5, 0x391c0cb3, 0x4ed8aa4a, 0x5b9cca4f, 0x682e6ff3,
  0x748f82ee, 0x78a5636f, 0x84c87814, 0x8cc70208, 0x90befffa, 0xa4506ceb, 0xbef9a3f7, 0xc67178f2]

/-- The word of the schedule at `i`, given those before it. -/
def scheduleWord (data : Vector UInt8 64) (w : List UInt32) (i : ℕ) : UInt32 :=
  if i < 16 then
    (data.toList.getD (4 * i) 0).toUInt32 <<< 0x18 |||
      (data.toList.getD (4 * i + 1) 0).toUInt32 <<< 0x10 |||
      (data.toList.getD (4 * i + 2) 0).toUInt32 <<< 0x08 |||
      (data.toList.getD (4 * i + 3) 0).toUInt32 <<< 0x00
  else
    sig1 (w.getD (i - 0x02) 0) + sig0 (w.getD (i - 0x0f) 0) + w.getD (i - 0x07) 0 +
      w.getD (i - 0x10) 0

def schedule (data : Vector UInt8 64) : List UInt32 :=
  (List.range 64).foldl (fun w i => w ++ [scheduleWord data w i]) []

/-- The array `s` and the indices of `a` to `h` in it. -/
structure Working where
  s : State
  idx : Vector (Fin 8) 8

/-- One turn of the compression loop with the constant and the word of the turn. -/
def compress (v : Working) (kw : UInt32 × UInt32) : Working :=
  -- subtraction in `Fin 8` takes zero to seven, as the loop over `idx` does
  let idx := v.idx.map (· - 1)
  let a := idx[0]
  let b := idx[1]
  let c := idx[2]
  let d := idx[3]
  let e := idx[4]
  let f := idx[5]
  let g := idx[6]
  let h := idx[7]
  let s := v.s
  let s := s.set h (s[h] + sum1 s[e])
  let s := s.set h (s[h] + ch s[e] s[f] s[g])
  let s := s.set h (s[h] + kw.1)
  let s := s.set h (s[h] + kw.2)
  let s := s.set d (s[d] + s[h])
  let s := s.set h (s[h] + maj s[a] s[b] s[c])
  let s := s.set h (s[h] + sum0 s[a])
  ⟨s, idx⟩

def sha256Hash (state : State) (data : Vector UInt8 64) : State :=
  -- the indices start at one more than their place; `h` has wrapped around
  let start : Working := ⟨state, #v[1, 2, 3, 4, 5, 6, 7, 0]⟩
  let out := ((k.toList.zip (schedule data)).foldl compress start).s
  Vector.ofFn fun i => state[i] + out[i]

/-- One byte in the loop of `sha256_append`. -/
def appendByte (ctx : Context) (b : UInt8) : Context :=
  let ctx := { ctx with
    data := ctx.data.setIfInBounds ctx.blockBytes b
    blockBytes := ctx.blockBytes + 1 }
  if ctx.blockBytes = 64 then
    { ctx with
      state := sha256Hash ctx.state ctx.data
      bitsTotal := ctx.bitsTotal + 512
      blockBytes := 0 }
  else ctx

def sha256Append (ctx : Context) (src : List UInt8) : Context := src.foldl appendByte ctx

/-- The bytes of `data` with the marker at `block` and zeros up to `end`. -/
def padBlock (data : Vector UInt8 64) (block stop : ℕ) : Vector UInt8 64 :=
  (List.range' (block + 1) (stop - (block + 1))).foldl (fun d i => d.setIfInBounds i 0)
    (data.setIfInBounds block 128)

def sha256Finish (ctx : Context) : Vector UInt8 32 :=
  let stop := if ctx.blockBytes < 56 then 56 else 64
  let data := padBlock ctx.data ctx.blockBytes stop
  let state := if stop = 64 then sha256Hash ctx.state data else ctx.state
  let data := if stop = 64 then Vector.replicate 64 0 else data
  let bitsTotal := ctx.bitsTotal + 8 * UInt64.ofNat ctx.blockBytes
  let data := (List.range 8).foldl
    (fun d i => d.setIfInBounds (63 - i) (bitsTotal >>> UInt64.ofNat (8 * i)).toUInt8) data
  let state := sha256Hash state data
  Vector.ofFn fun n => (state[n.val / 4] >>> UInt32.ofNat (24 - 8 * (n.val % 4))).toUInt8

end Parcel.Sha256

namespace Parcel

@[irreducible] def sha256KeyDigest (key : Vector UInt8 32) : Vector UInt8 32 :=
  Sha256.sha256Finish (Sha256.sha256Append Sha256.sha256Init key.toList)

end Parcel
