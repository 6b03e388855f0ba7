import Parcel.ByteStrings

/-!
# Length fields

The little-endian codec of `wire-util.c` and the `size_t` arithmetic around it.
A `size_t` is a natural number below `2 ^ 64`; additions and subtractions wrap.
-/

namespace Parcel

/-- Wrapping `size_t` addition. -/
def sizeAdd (a b : ℕ) : ℕ := (a + b) % 2 ^ 64

/-- Wrapping `size_t` subtraction. -/
def sizeSub (a b : ℕ) : ℕ := (a + 2 ^ 64 - b) % 2 ^ 64

theorem sizeAdd_eq {a b : ℕ} (h : a + b < 2 ^ 64) : sizeAdd a b = a + b := Nat.mod_eq_of_lt h

theorem sizeSub_eq {a b : ℕ} (hb : b ≤ a) (ha : a < 2 ^ 64) : sizeSub a b = a - b := by
  rw [sizeSub, show a + 2 ^ 64 - b = a - b + 2 ^ 64 by omega, Nat.add_mod_right]
  exact Nat.mod_eq_of_lt (by omega)

/-- The shifted bytes or'ed together, least significant first, as the
`wire_packN` functions do. -/
def packLE : List UInt8 → ℕ
  | [] => 0
  | b :: bs => b.toNat ||| (packLE bs <<< 8)

/-- The `wire_unpackN` functions: byte `k` is `(uint8_t)(src >> 8 * k)`. -/
def unpackLE (n src : ℕ) : Vector UInt8 n := Vector.ofFn fun k => UInt8.ofNat (src >>> (8 * k.val))

def wirePack64 (src : Vector UInt8 8) : ℕ := packLE src.toList
def wirePack16 (src : Vector UInt8 2) : ℕ := packLE src.toList
def wireUnpack64 (src : ℕ) : Vector UInt8 8 := unpackLE 8 src
def wireUnpack16 (src : ℕ) : Vector UInt8 2 := unpackLE 2 src

theorem packLE_cons (b : UInt8) (bs : List UInt8) :
    packLE (b :: bs) = b.toNat + 256 * packLE bs := by
  have h := Nat.shiftLeft_add_eq_or_of_lt (i := 8) b.toNat_lt (packLE bs)
  rw [packLE, Nat.lor_comm, ← h, Nat.shiftLeft_eq]
  ring

theorem packLE_lt (bs : List UInt8) : packLE bs < 256 ^ bs.length := by
  induction bs with
  | nil => simp [packLE]
  | cons b bs ih =>
    have hb := b.toNat_lt
    rw [packLE_cons, List.length_cons, pow_succ]
    omega

theorem unpackLE_succ (n src : ℕ) :
    (unpackLE (n + 1) src).toList = UInt8.ofNat src :: (unpackLE n (src / 256)).toList := by
  simp only [unpackLE, Vector.toList_ofFn, List.ofFn_succ, Fin.val_zero, Nat.mul_zero,
    Nat.shiftRight_zero, Fin.val_succ]
  congr 2
  funext k
  rw [Nat.mul_add, Nat.add_comm (8 * k.val), Nat.shiftRight_add, Nat.shiftRight_eq_div_pow src]

theorem packLE_unpackLE (n src : ℕ) : packLE (unpackLE n src).toList = src % 256 ^ n := by
  induction n generalizing src with
  | zero => rw [pow_zero, Nat.mod_one]; rfl
  | succ n ih =>
    rw [unpackLE_succ, packLE_cons, ih, pow_succ, Nat.mul_comm (256 ^ n), Nat.mod_mul]
    simp

theorem wirePack64_unpack64 {n : ℕ} (h : n < 2 ^ 64) : wirePack64 (wireUnpack64 n) = n := by
  rw [wirePack64, wireUnpack64, packLE_unpackLE]
  exact Nat.mod_eq_of_lt (by simpa using h)

theorem wirePack64_lt (src : Vector UInt8 8) : wirePack64 src < 2 ^ 64 := by
  simpa [wirePack64] using packLE_lt src.toList

end Parcel
