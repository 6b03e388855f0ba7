import Mathlib

/-!
# The X25519 function

The Montgomery ladder of RFC 7748, section 5, with the swaps deferred to the next
turn as the RFC has them, and the encodings around it. The scalar is taken as it
is, without clamping.
-/

namespace Rfc7748

section

structure Ladder (R : Type*) where
  x₂ : R
  z₂ : R
  x₃ : R
  z₃ : R

variable {R : Type*}

def Ladder.cswap (swap : Bool) (s : Ladder R) : Ladder R :=
  if swap then ⟨s.x₃, s.z₃, s.x₂, s.z₂⟩ else s

variable [CommRing R]

def Ladder.step (a24 x₁ : R) (s : Ladder R) : Ladder R :=
  let A := s.x₂ + s.z₂
  let AA := A ^ 2
  let B := s.x₂ - s.z₂
  let BB := B ^ 2
  let E := AA - BB
  let C := s.x₃ + s.z₃
  let D := s.x₃ - s.z₃
  let DA := D * A
  let CB := C * B
  { x₃ := (DA + CB) ^ 2
    z₃ := x₁ * (DA - CB) ^ 2
    x₂ := AA * BB
    z₂ := E * (AA + a24 * E) }

/-- The turns for the bits below `t`, the highest first, with the swap that the
last turn has left to do. -/
def ladderLoop (a24 x₁ : R) (k : ℕ → Bool) : ℕ → Ladder R × Bool → Ladder R × Bool
  | 0, s => s
  | t + 1, s => ladderLoop a24 x₁ k t ((s.1.cswap (s.2 ^^ k t)).step a24 x₁, k t)

def ladder (a24 x₁ : R) (k : ℕ → Bool) (bits : ℕ) : Ladder R :=
  let r := ladderLoop a24 x₁ k bits (⟨1, 0, x₁, 1⟩, false)
  r.1.cswap r.2

end

def p : ℕ := 2 ^ 255 - 19

instance : NeZero p := ⟨by rw [p]; norm_num⟩

def ladderResult (k : ℕ) (u : ZMod p) : ZMod p :=
  let s := ladder 121665 u k.testBit 255
  s.x₂ * s.z₂ ^ (p - 2)

theorem ladderResult_of_zero {k : ℕ} {u : ZMod p} (h : (ladder 121665 u k.testBit 255).z₂ = 0) :
    ladderResult k u = 0 := by
  have hexponent : p - 2 ≠ 0 := by
    rw [p]
    norm_num
  unfold ladderResult
  dsimp only
  rw [h, zero_pow hexponent, mul_zero]

def decodeLittleEndian (b : List UInt8) : ℕ := b.foldr (fun b n => b.toNat + 256 * n) 0

/-- The u-coordinate of a point, without the unused bit, modulo the prime. -/
def decodeUCoordinate (u : Vector UInt8 32) : ZMod p :=
  ((decodeLittleEndian u.toList % 2 ^ 255 : ℕ) : ZMod p)

/-- The canonical encoding, least significant byte first. -/
def encodeUCoordinate (u : ZMod p) : Vector UInt8 32 :=
  Vector.ofFn fun i => UInt8.ofNat (u.val >>> (8 * i.val))

def x25519 (k u : Vector UInt8 32) : Vector UInt8 32 :=
  encodeUCoordinate (ladderResult (decodeLittleEndian k.toList) (decodeUCoordinate u))

section

variable {R : Type*}

theorem cswap_cswap (a b : Bool) (s : Ladder R) : (s.cswap a).cswap b = s.cswap (a ^^ b) := by
  cases a <;> cases b <;> rfl

variable [CommRing R]

/-- The turns when each swaps back what it has swapped. -/
def eagerLoop (a24 x₁ : R) (k : ℕ → Bool) : ℕ → Ladder R → Ladder R
  | 0, s => s
  | t + 1, s => eagerLoop a24 x₁ k t (((s.cswap (k t)).step a24 x₁).cswap (k t))

theorem ladderLoop_eq_eager (a24 x₁ : R) (k : ℕ → Bool) (t : ℕ) (s : Ladder R × Bool) :
    (ladderLoop a24 x₁ k t s).1.cswap (ladderLoop a24 x₁ k t s).2 =
      eagerLoop a24 x₁ k t (s.1.cswap s.2) := by
  induction t generalizing s with
  | zero => rfl
  | succ t ih => rw [ladderLoop, ih, eagerLoop, cswap_cswap]

theorem ladder_eq_eager (a24 x₁ : R) (k : ℕ → Bool) (bits : ℕ) :
    ladder a24 x₁ k bits = eagerLoop a24 x₁ k bits ⟨1, 0, x₁, 1⟩ :=
  ladderLoop_eq_eager a24 x₁ k bits (⟨1, 0, x₁, 1⟩, false)

end

end Rfc7748
