import Mathlib

/-!
# SHA-256 of FIPS 180-4

The standard's own description: the constants as fractional parts of roots of
primes, the padding with one set bit, zeros and a 64-bit length, the message
schedule as a recurrence, and the eight working variables that move along one
place in every round.
-/

namespace Fips180

/-- The primes below 312, of which there are sixty-four. -/
def primes : List ℕ :=
  (List.range 312).filter fun n => 2 ≤ n && (List.range n).all fun d => d < 2 || n % d != 0

/-- The largest `r` below `2 ^ 40` whose power `e` is at most `n`, bit by bit. -/
def root (e n : ℕ) : ℕ :=
  (List.range 40).foldr (fun i r => if (r + 2 ^ i) ^ e ≤ n then r + 2 ^ i else r) 0

/-- The first thirty-two bits of the fractional parts of the cube roots of the
primes. -/
def constants : List UInt32 := primes.map fun p => UInt32.ofNat (root 3 (p * 2 ^ 96))

/-- The first thirty-two bits of the fractional parts of the square roots of the
first eight primes. -/
def initialHash : Vector UInt32 8 :=
  Vector.ofFn fun i => UInt32.ofNat (root 2 (primes.getD i 0 * 2 ^ 64))

def rotr (n : ℕ) (x : UInt32) : UInt32 := ⟨x.toBitVec.rotateRight n⟩
def shr (n : ℕ) (x : UInt32) : UInt32 := ⟨x.toBitVec >>> n⟩
def ch (x y z : UInt32) : UInt32 := (x &&& y) ^^^ (~~~x &&& z)
def maj (x y z : UInt32) : UInt32 := (x &&& y) ^^^ (x &&& z) ^^^ (y &&& z)
def bigSigma0 (x : UInt32) : UInt32 := rotr 2 x ^^^ rotr 13 x ^^^ rotr 22 x
def bigSigma1 (x : UInt32) : UInt32 := rotr 6 x ^^^ rotr 11 x ^^^ rotr 25 x
def smallSigma0 (x : UInt32) : UInt32 := rotr 7 x ^^^ rotr 18 x ^^^ shr 3 x
def smallSigma1 (x : UInt32) : UInt32 := rotr 17 x ^^^ rotr 19 x ^^^ shr 10 x

/-- The number of zero bytes that brings the length with the marker to eight
bytes below a multiple of sixty-four. -/
def zeroBytes (n : ℕ) : ℕ := (119 - n % 64) % 64

def bigEndian64 (n : ℕ) : List UInt8 :=
  (List.range 8).map fun i => UInt8.ofNat (n / 256 ^ (7 - i))

@[simp] theorem bigEndian64_length (n : ℕ) : (bigEndian64 n).length = 8 := by
  simp [bigEndian64]

def pad (m : List UInt8) : List UInt8 :=
  m ++ (0x80 :: List.replicate (zeroBytes m.length) 0 ++ bigEndian64 (8 * m.length))

theorem zeroBytes_spec (n : ℕ) : (n + 1 + zeroBytes n) % 64 = 56 ∧ zeroBytes n < 64 := by
  unfold zeroBytes
  omega

theorem pad_length (m : List UInt8) : (pad m).length % 64 = 0 := by
  have h := (zeroBytes_spec m.length).1
  simp only [pad, List.length_append, List.length_cons, List.length_replicate, bigEndian64_length]
  omega

/-- Word `t` of a block, most significant byte first. -/
def messageWord (block : List UInt8) (t : ℕ) : UInt32 :=
  UInt32.ofNat ((block.getD (4 * t) 0).toNat * 256 ^ 3 +
    (block.getD (4 * t + 1) 0).toNat * 256 ^ 2 +
    (block.getD (4 * t + 2) 0).toNat * 256 + (block.getD (4 * t + 3) 0).toNat)

def schedule (block : List UInt8) (t : ℕ) : UInt32 :=
  if t < 16 then messageWord block t
  else smallSigma1 (schedule block (t - 2)) + schedule block (t - 7) +
    smallSigma0 (schedule block (t - 15)) + schedule block (t - 16)
termination_by t

theorem schedule_message (block : List UInt8) {t : ℕ} (h : t < 16) :
    schedule block t = messageWord block t := by
  rw [schedule, if_pos h]

theorem schedule_recurrence (block : List UInt8) {t : ℕ} (h : ¬ t < 16) :
    schedule block t = smallSigma1 (schedule block (t - 2)) + schedule block (t - 7) +
      smallSigma0 (schedule block (t - 15)) + schedule block (t - 16) := by
  rw [schedule, if_neg h]

structure Vars where
  a : UInt32
  b : UInt32
  c : UInt32
  d : UInt32
  e : UInt32
  f : UInt32
  g : UInt32
  h : UInt32

def round (v : Vars) (k w : UInt32) : Vars :=
  let t1 := v.h + bigSigma1 v.e + ch v.e v.f v.g + k + w
  let t2 := bigSigma0 v.a + maj v.a v.b v.c
  { a := t1 + t2, b := v.a, c := v.b, d := v.c, e := v.d + t1, f := v.e, g := v.f, h := v.g }

@[irreducible] def rounds (start : Vars) (block : List UInt8) : Vars :=
  (List.range 64).foldl (fun v t => round v (constants.getD t 0) (schedule block t)) start

/-- The literals of the words of a hash value. -/
local instance neZero_eight : NeZero 8 := ⟨by decide⟩

@[irreducible] def hashBlock (h : Vector UInt32 8) (block : List UInt8) : Vector UInt32 8 :=
  let v := rounds ⟨h.get 0, h.get 1, h.get 2, h.get 3, h.get 4, h.get 5, h.get 6, h.get 7⟩ block
  #v[v.a + h.get 0, v.b + h.get 1, v.c + h.get 2, v.d + h.get 3, v.e + h.get 4, v.f + h.get 5,
    v.g + h.get 6, v.h + h.get 7]

/-- The blocks of sixty-four bytes in order; a shorter rest is not hashed. -/
def hashBlocks (h : Vector UInt32 8) (m : List UInt8) : Vector UInt32 8 :=
  (List.range (m.length / 64)).foldl (fun h i => hashBlock h ((m.drop (64 * i)).take 64)) h

theorem word_lt (n : Fin 32) : n.val / 4 < 8 := Nat.div_lt_of_lt_mul n.isLt

/-- The eight words of the final hash value, most significant byte first. -/
def digestBytes (h : Vector UInt32 8) : Vector UInt8 32 :=
  Vector.ofFn fun n => UInt8.ofNat ((h.get ⟨n / 4, word_lt n⟩).toNat / 256 ^ (3 - n.val % 4))

def sha256 (m : List UInt8) : Vector UInt8 32 := digestBytes (hashBlocks initialHash (pad m))

theorem hashBlocks_append_block (h : Vector UInt32 8) (m block : List UInt8)
    (hm : m.length % 64 = 0) (hb : block.length = 64) :
    hashBlocks h (m ++ block) = hashBlock (hashBlocks h m) block := by
  have hcount : (m ++ block).length / 64 = m.length / 64 + 1 := by
    rw [List.length_append]
    omega
  have hstart : 64 * (m.length / 64) = m.length := by omega
  rw [hashBlocks, hcount, List.range_succ, List.foldl_append, List.foldl_cons, List.foldl_nil,
    hstart, List.drop_left, List.take_of_length_le hb.le, hashBlocks]
  apply congrArg (hashBlock · block)
  -- the blocks before it lie inside `m`
  apply List.foldl_ext
  intro h i hi
  have hlt : i < m.length / 64 := List.mem_range.mp hi
  rw [List.drop_append_of_le_length (by omega), List.take_append_of_le_length]
  rw [List.length_drop]
  omega

end Fips180
