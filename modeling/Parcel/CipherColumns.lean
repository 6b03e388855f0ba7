import Parcel.CipherReference
import Parcel.WireRoundTrip

/-!
# The cipher on columns

The forward cipher on four columns, with the round keys made on the way and the
substitution table in one number. It is what `aes_xcrypt` computes, for every key and every
block, and takes few steps to evaluate, so that the MACs of concrete wires can be compared.
-/

namespace Parcel.Aes

open Fips197 (State Word ofBlock toBlock)

attribute [local instance] Fips197.neZero_four

/-- The literals of the bytes of a block. -/
local instance neZero_blockLen : NeZero 16 := ⟨by decide⟩

structure Column where
  s0 : UInt8
  s1 : UInt8
  s2 : UInt8
  s3 : UInt8

structure Columns where
  c0 : Column
  c1 : Column
  c2 : Column
  c3 : Column

/-- The table `sbox`, with the byte of `x` from bit `8 * x` on. -/
def sboxNumber : ℕ := Nat.ofDigits 256 (sbox.map fun b => b.toNat)

def substitute (x : UInt8) : UInt8 := UInt8.ofNat (sboxNumber >>> (8 * x.toNat))

namespace Column

def xor (a b : Column) : Column :=
  ⟨a.s0 ^^^ b.s0, a.s1 ^^^ b.s1, a.s2 ^^^ b.s2, a.s3 ^^^ b.s3⟩

def mix (c : Column) : Column :=
  let m := mixColumn c.s0 c.s1 c.s2 c.s3
  ⟨m.get 0, m.get 1, m.get 2, m.get 3⟩

def word (c : Column) : Word := ![c.s0, c.s1, c.s2, c.s3]

end Column

namespace Columns

def xor (p q : Columns) : Columns :=
  ⟨p.c0.xor q.c0, p.c1.xor q.c1, p.c2.xor q.c2, p.c3.xor q.c3⟩

def mix (q : Columns) : Columns := ⟨q.c0.mix, q.c1.mix, q.c2.mix, q.c3.mix⟩

def shift (q : Columns) : Columns :=
  ⟨⟨substitute q.c0.s0, substitute q.c1.s1, substitute q.c2.s2, substitute q.c3.s3⟩,
    ⟨substitute q.c1.s0, substitute q.c2.s1, substitute q.c3.s2, substitute q.c0.s3⟩,
    ⟨substitute q.c2.s0, substitute q.c3.s1, substitute q.c0.s2, substitute q.c1.s3⟩,
    ⟨substitute q.c3.s0, substitute q.c0.s1, substitute q.c1.s2, substitute q.c2.s3⟩⟩

/-- Round key `i` from the one before it. -/
def next (i : ℕ) (key : Columns) : Columns :=
  let c0 := key.c0.xor ⟨substitute key.c3.s1 ^^^ roundConstants.getD i 0, substitute key.c3.s2,
    substitute key.c3.s3, substitute key.c3.s0⟩
  let c1 := key.c1.xor c0
  let c2 := key.c2.xor c1
  ⟨c0, c1, c2, key.c3.xor c2⟩

/-- The rounds from round `i` on, with the round key before it; the last one does not mix. -/
def encrypt : ℕ → ℕ → Columns → Columns → Columns
  | 0, i, key, q => q.shift.xor (key.next i)
  | n + 1, i, key, q => encrypt n (i + 1) (key.next i) (q.shift.mix.xor (key.next i))

def ofBytes (b : Block) : Columns :=
  ⟨⟨b.get 0, b.get 1, b.get 2, b.get 3⟩, ⟨b.get 4, b.get 5, b.get 6, b.get 7⟩,
    ⟨b.get 8, b.get 9, b.get 10, b.get 11⟩, ⟨b.get 12, b.get 13, b.get 14, b.get 15⟩⟩

def bytes (q : Columns) : Block :=
  #v[q.c0.s0, q.c0.s1, q.c0.s2, q.c0.s3, q.c1.s0, q.c1.s1, q.c1.s2, q.c1.s3,
    q.c2.s0, q.c2.s1, q.c2.s2, q.c2.s3, q.c3.s0, q.c3.s1, q.c3.s2, q.c3.s3]

def state (q : Columns) : State := fun r c => ![q.c0.word, q.c1.word, q.c2.word, q.c3.word] c r

end Columns

def encryptColumns (key block : Block) : Block :=
  let key := Columns.ofBytes key
  (Columns.encrypt (aesRounds - 1) 1 key ((Columns.ofBytes block).xor key)).bytes

theorem substitute_eq_sboxLookup : ∀ x, substitute x = sboxLookup x false := by
  decide +kernel

theorem substitute_eq (x : UInt8) : substitute x = Fips197.sBox x := by
  rw [substitute_eq_sboxLookup, sboxLookup_eq_sBox]

namespace Columns

variable (q : Columns)

theorem state_ofBytes (b : Block) : (ofBytes b).state = ofBlock b := by
  funext r c
  fin_cases r <;> fin_cases c <;> rfl

theorem ofBlock_bytes : ofBlock q.bytes = q.state := by
  funext r c
  fin_cases r <;> fin_cases c <;> rfl

theorem state_shift : q.shift.state = Fips197.shiftRows (Fips197.subBytes q.state) := by
  funext r c
  rw [Fips197.shiftRows, Fips197.subBytes, ← substitute_eq]
  fin_cases r <;> fin_cases c <;> rfl

theorem state_mix : q.mix.state = Fips197.mixColumns q.state := by
  funext r c
  rw [Fips197.mixColumns, ← mixColumn_eq_wordMul]
  fin_cases r <;> fin_cases c <;> rfl

def scheduled (key : Block) (j : ℕ) : Column :=
  let w := Fips197.keyExpansion key j
  ⟨w 0, w 1, w 2, w 3⟩

theorem scheduled_other (key : Block) (j : ℕ) (hj : (j + 4) % 4 ≠ 0) :
    scheduled key (j + 4) = (scheduled key j).xor (scheduled key (j + 3)) := by
  have h (r : Fin 4) := Fips197.keyExpansion_other key (j + 4) (Nat.le_add_left 4 j) hj r
  rw [scheduled, h, h, h, h]
  rfl

theorem scheduled_first (key : Block) (i : ℕ) (hi : i < aesRounds) :
    scheduled key (4 * i + 4) = (scheduled key (4 * i)).xor
      ⟨substitute (scheduled key (4 * i + 3)).s1 ^^^ roundConstants.getD (i + 1) 0,
        substitute (scheduled key (4 * i + 3)).s2, substitute (scheduled key (4 * i + 3)).s3,
        substitute (scheduled key (4 * i + 3)).s0⟩ := by
  have hi' : i < 10 := hi
  have h (r : Fin 4) := Fips197.keyExpansion_first key (4 * i + 4) (by omega) (by omega) r
  have hround : (4 * i + 4) / 4 = i + 1 := by omega
  have hrcon : roundConstants.getD (i + 1) 0 = Fips197.rcon (i + 1) 0 :=
    roundConstants_eq (i + 1) (by omega) (Nat.succ_pos i)
  -- The constant word is zero after its first byte.
  have hzero (x : UInt8) : x ^^^ Fips197.rcon (i + 1) 1 = x ∧ x ^^^ Fips197.rcon (i + 1) 2 = x ∧
      x ^^^ Fips197.rcon (i + 1) 3 = x := ⟨UInt8.xor_zero, UInt8.xor_zero, UInt8.xor_zero⟩
  rw [scheduled, h, h, h, h, hround, (hzero _).1, (hzero _).2.1, (hzero _).2.2, hrcon]
  simp only [substitute_eq]
  rfl

/-- Round key `i` of the schedule. -/
def schedule (key : Block) (i : ℕ) : Columns :=
  ⟨scheduled key (4 * i), scheduled key (4 * i + 1), scheduled key (4 * i + 2),
    scheduled key (4 * i + 3)⟩

theorem state_xor_schedule (key : Block) (i : ℕ) :
    (q.xor (schedule key i)).state = Fips197.addRoundKey q.state (Fips197.keyExpansion key) i := by
  funext r c
  rw [Fips197.addRoundKey]
  fin_cases r <;> fin_cases c <;> rfl

theorem schedule_zero (key : Block) : schedule key 0 = ofBytes key := by
  have h (j : ℕ) (hj : j < 4) (r : Fin 4) := Fips197.keyExpansion_key key j hj r
  simp only [schedule, scheduled, h 0 (by norm_num), h 1 (by norm_num), h 2 (by norm_num),
    h 3 (by norm_num)]
  obtain ⟨⟨l⟩, hl⟩ := key
  match l, hl with
  | [_, _, _, _, _, _, _, _, _, _, _, _, _, _, _, _], _ => rfl

theorem next_schedule (key : Block) {i : ℕ} (hi : i < aesRounds) :
    (schedule key i).next (i + 1) = schedule key (i + 1) := by
  have h0 := scheduled_first key i hi
  have h1 : scheduled key (4 * i + 4 + 1) = (scheduled key (4 * i + 1)).xor
      (scheduled key (4 * i + 4)) := scheduled_other key (4 * i + 1) (by omega)
  have h2 : scheduled key (4 * i + 4 + 2) = (scheduled key (4 * i + 2)).xor
      (scheduled key (4 * i + 4 + 1)) := scheduled_other key (4 * i + 2) (by omega)
  have h3 : scheduled key (4 * i + 4 + 3) = (scheduled key (4 * i + 3)).xor
      (scheduled key (4 * i + 4 + 2)) := scheduled_other key (4 * i + 3) (by omega)
  rw [schedule, schedule, Nat.mul_add, h3, h2, h1, h0]
  rfl

theorem state_encrypt (key : Block) (n i : ℕ) (hn : i + n < aesRounds) :
    (encrypt n (i + 1) (schedule key i) q).state =
      Fips197.addRoundKey (Fips197.shiftRows (Fips197.subBytes
        ((List.range' (i + 1) n).foldl (Fips197.round (Fips197.keyExpansion key)) q.state)))
        (Fips197.keyExpansion key) (i + 1 + n) := by
  induction n generalizing i q with
  | zero =>
    rw [encrypt, next_schedule key (i := i) hn, state_xor_schedule, state_shift]
    rfl
  | succ n ih =>
    have hround : Fips197.round (Fips197.keyExpansion key) q.state (i + 1) =
        (q.shift.mix.xor (schedule key (i + 1))).state := by
      rw [state_xor_schedule, state_mix, state_shift, Fips197.round]
    rw [encrypt, next_schedule key (by omega), ih _ (i + 1) (by omega), List.range'_succ,
      List.foldl_cons, hround, Nat.add_right_comm (i + 1) 1 n]
    rfl

end Columns

theorem aesXcrypt_eq_columns (key block : Block) :
    aesXcrypt block (aesKeyExpansion key) false = encryptColumns key block := by
  have hstart : Fips197.addRoundKey (ofBlock block) (Fips197.keyExpansion key) 0 =
      ((Columns.ofBytes block).xor (Columns.ofBytes key)).state := by
    rw [← Columns.schedule_zero key, Columns.state_xor_schedule, Columns.state_ofBytes]
  have hrounds := Columns.state_encrypt ((Columns.ofBytes block).xor (Columns.ofBytes key)) key
    (aesRounds - 1) 0 (by decide)
  rw [← toBlock_ofBlock (aesXcrypt block (aesKeyExpansion key) false), ofBlock_aesXcrypt, hstart]
  rw [Columns.schedule_zero, ← Columns.ofBlock_bytes] at hrounds
  rw [encryptColumns, ← toBlock_ofBlock (Columns.bytes _), hrounds]
  rfl

end Parcel.Aes

namespace Parcel
open ByteStrings Aes

def cmacColumns (key : Block) (msg : List UInt8) : Block :=
  let L := aesGenerateSubkey (encryptColumns key (Vector.replicate 16 0))
  encryptColumns key (xor128 (Vector.replicate 16 0)
    (Vector.ofFn fun i => if i.val < 16 then L.get i ^^^ msg.getD i 0 else L.get i))

theorem aes128Cmac_eq_columns (key : Block) (msg : List UInt8) :
    aes128Cmac (aes128InitCmac key) msg blockLen = cmacColumns key msg := by
  rw [aes128Cmac, if_neg (by decide), cmacLoop, if_neg (by decide), if_pos (by decide),
    if_neg (by decide)]
  simp only [aes128InitCmac, aesXcrypt_eq_columns]
  rfl

/-- The header of a wire that `encrypt_wire` has encrypted. -/
def sealedHeader (w : Wire) (key : Key) : List UInt8 :=
  (encryptColumns key.cipher (xor128 (readVec 16 w.header.bytes) w.iv)).toList

theorem encryptWire_header (w : Wire) (key : Key) :
    (encryptWire w key).header.bytes = sealedHeader w key := by
  have hblock : (encryptedHeader w key).2 = sealedHeader w key := by
    have hrest : w.header.bytes.drop 16 = [] := List.drop_of_length_le (Header.bytes_length _).le
    simp only [encryptedHeader, encryptBlocks, aesXcrypt_eq_columns, hrest, List.append_nil]
    rfl
  have hlength : (encryptedHeader w key).2.length = 16 := encryptedHeader_length w key
  change (Header.ofBytes (encryptedHeader w key).2).bytes = _
  rw [Header.bytes_ofBytes hlength.ge, List.take_of_length_le hlength.le, hblock]

theorem not_verifies_of_columns {w : Wire} {key other : Key}
    (h : cmacColumns key.mac (sealedHeader w key) ≠ cmacColumns other.mac (sealedHeader w key)) :
    wireVerifyInnerMac (aes128InitCmac other.mac) (encryptWire w key) = false := by
  have hinner : (encryptWire w key).macInner =
      aes128Cmac (aes128InitCmac key.mac) (encryptWire w key).header.bytes blockLen :=
    of_decide_eq_true (encryptWire_verifies w key)
  apply decide_eq_false
  rw [hinner, encryptWire_header, aes128Cmac_eq_columns, aes128Cmac_eq_columns]
  exact h

end Parcel
