import Parcel.ByteStrings

/-!
# X25519

The functions of `x25519.c`. An element of the field is an array of sixteen
`int64_t` limbs of weight `2 ^ (16 * i)`; their arithmetic is that of `Int64`,
which wraps, and `unsigned long` has 64 bits.
-/

namespace Parcel.X25519

/-- An array of `int64_t`; `field_t` is the one of sixteen. -/
abbrev Limbs (n : ℕ) := Vector Int64 n

variable {n : ℕ}

/-- The array element `q[i]`. -/
def Limbs.q (a : Limbs n) (i : ℕ) : Int64 := a[i]?.getD 0

/-- The assignment `q[i] = x`. -/
def Limbs.put (a : Limbs n) (i : ℕ) (x : Int64) : Limbs n := a.setIfInBounds i x

/-- An array with the initialiser `{ 0 }`. -/
def Limbs.zero (n : ℕ) : Limbs n := Vector.replicate n 0

/-- One turn of the loop in `carry_reduce`. -/
def carryStep (dst : Limbs 16) (i : ℕ) : Limbs 16 :=
  let carry := dst.q i >>> 16
  let dst := dst.put i (dst.q i - carry <<< 16)
  if i = 15 then dst.put 0 (dst.q 0 + 38 * carry)
  else dst.put (i + 1) (dst.q (i + 1) + carry)

def carryReduce (dst : Limbs 16) : Limbs 16 := (List.range 16).foldl carryStep dst

/-- One turn of the inner loop in `multiply`. -/
def productStep (a b : Limbs 16) (i : ℕ) (product : Limbs 31) (j : ℕ) : Limbs 31 :=
  product.put (i + j) (product.q (i + j) + a.q i * b.q j)

def productRow (a b : Limbs 16) (product : Limbs 31) (i : ℕ) : Limbs 31 :=
  (List.range 16).foldl (productStep a b i) product

def product (a b : Limbs 16) : Limbs 31 := (List.range 16).foldl (productRow a b) (Limbs.zero 31)

/-- One turn of the loop that folds the upper limbs of a product into the lower ones. -/
def foldStep (product : Limbs 31) (i : ℕ) : Limbs 31 :=
  product.put i (product.q i + 38 * product.q (i + 16))

def foldUpper (product : Limbs 31) : Limbs 31 := (List.range 15).foldl foldStep product

/-- The lower limbs, which `multiply` copies to its result. -/
def lower (product : Limbs 31) : Limbs 16 := Vector.ofFn fun i => product.q i

def multiply (a b : Limbs 16) : Limbs 16 :=
  carryReduce (carryReduce (lower (foldUpper (product a b))))

def square (src : Limbs 16) : Limbs 16 := multiply src src

def inverse (src : Limbs 16) : Limbs 16 :=
  (List.range 254).foldl (fun elements i =>
    let elements := square elements
    if i ≠ 251 ∧ i ≠ 249 then multiply elements src else elements) src

def add (a b : Limbs 16) : Limbs 16 := Vector.ofFn fun i => a.q i + b.q i

/-- The new value of `a` after `add_inplace`. -/
def addInplace (a b : Limbs 16) : Limbs 16 := add a b

def subtract (a b : Limbs 16) : Limbs 16 := Vector.ofFn fun i => a.q i - b.q i

/-- The new value of `a` after `subtract_inplace`. -/
def subtractInplace (a b : Limbs 16) : Limbs 16 := subtract a b

/-- The bits in which `swap` changes a limb of both elements. -/
def swapBits (a b : Limbs 16) (bit : UInt8) (i : ℕ) : Int64 :=
  (~~~(bit.toUInt64 - 1)).toInt64 &&& (a.q i ^^^ b.q i)

/-- The new values of `a` and `b` after `swap`. -/
def swap (a b : Limbs 16) (bit : UInt8) : Limbs 16 × Limbs 16 :=
  (Vector.ofFn fun i => a.q i ^^^ swapBits a b bit i,
    Vector.ofFn fun i => b.q i ^^^ swapBits a b bit i)

/-- One turn of the loop in `pack` that subtracts the prime. -/
def borrowStep (elements m : Limbs 16) (i : ℕ) : Limbs 16 :=
  let dim : Int64 := if i = 15 then 0x7fff else 0xffff
  let m := m.put i (elements.q i - dim - (m.q (i - 1) >>> 16 &&& 1))
  m.put (i - 1) (m.q (i - 1) &&& 0xffff)

/-- The difference of an element and the prime, with a negative last limb if the
element is below it. -/
def borrow (elements : Limbs 16) : Limbs 16 :=
  (List.range' 1 15).foldl (borrowStep elements)
    ((Limbs.zero 16).put 0 (elements.q 0 - 0xffed))

/-- One turn of the outer loop in `pack`. -/
def reduceOnce (elements : Limbs 16) : Limbs 16 :=
  let m := borrow elements
  let carryBit : UInt8 := (m.q 15 >>> 16 &&& 1).toUInt64.toUInt8
  (swap elements m (1 - carryBit)).1

def pack (src : Limbs 16) : Vector UInt8 32 :=
  let elements := carryReduce (carryReduce (carryReduce src))
  let elements := reduceOnce (reduceOnce elements)
  Vector.ofFn fun k =>
    let q := elements.q (k.val / 2)
    if k.val % 2 = 0 then (q >>> 0 &&& 0xff).toUInt64.toUInt8
    else (q >>> 8 &&& 0xff).toUInt64.toUInt8

def unpack (src : Vector UInt8 32) : Limbs 16 :=
  let byte (k : ℕ) : Int64 := (src[k]?.getD 0).toUInt64.toInt64
  let dst : Limbs 16 := Vector.ofFn fun i => byte (2 * i.val) + byte (2 * i.val + 1) <<< 8
  dst.put 15 (dst.q 15 &&& 0x7fff)

/-- The four elements `inputs` of the ladder. -/
structure Inputs where
  a : Limbs 16
  b : Limbs 16
  c : Limbs 16
  d : Limbs 16

def Inputs.swap (s : Inputs) (bit : UInt8) : Inputs :=
  let ab := X25519.swap s.a s.b bit
  let cd := X25519.swap s.c s.d bit
  ⟨ab.1, ab.2, cd.1, cd.2⟩

def c1db41 : Limbs 16 := ((Limbs.zero 16).put 0 0xdb41).put 1 0x0001

/-- The arithmetic of one turn, on the basepoint `x`. -/
def Inputs.ladder (x : Limbs 16) (s : Inputs) : Inputs :=
  let ⟨a, b, c, d⟩ := s
  let e := add a c
  let a := subtractInplace a c
  let c := add b d
  let b := subtractInplace b d
  let d := square e
  let f := square a
  let a := multiply c a
  let c := multiply b e
  let e := add a c
  let a := subtractInplace a c
  let b := square a
  let c := subtract d f
  let a := multiply c c1db41
  let a := addInplace a d
  let c := multiply c a
  let a := multiply d f
  let d := multiply b x
  let b := square e
  ⟨a, b, c, d⟩

def keyBit (privateKey : Vector UInt8 32) (i : ℕ) : UInt8 :=
  ((privateKey[i / 8]?.getD 0) >>> UInt8.ofNat (i % 8)) &&& 1

def turn (x : Limbs 16) (inputs : Inputs) (bit : UInt8) : Inputs :=
  ((inputs.swap bit).ladder x).swap bit

def x25519 (secret basepoint : Vector UInt8 32) : Vector UInt8 32 :=
  let x := unpack basepoint
  let one := (Limbs.zero 16).put 0 1
  let inputs := (List.range 255).reverse.foldl (fun inputs i => turn x inputs (keyBit secret i))
    ⟨one, x, Limbs.zero 16, one⟩
  pack (multiply inputs.a (inverse inputs.c))

end Parcel.X25519
