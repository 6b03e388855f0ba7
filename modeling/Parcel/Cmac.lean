import Parcel.Aes128Modes

/-!
# AES-CMAC

The definition of RFC 4493 over a block cipher, and `aes128_cmac` against it. The
loop folds the last block into the subkey buffer, which stands for the last block
of the RFC.
-/

namespace Parcel.Aes
open ByteStrings

namespace Rfc4493

/-- A block as a number, its first byte the most significant. -/
def toBits (b : Block) : BitVec 128 :=
  BitVec.ofFnLE fun k : Fin 128 => b[15 - k.val / 8].toBitVec.getLsbD (k.val % 8)

def ofBits (x : BitVec 128) : Block :=
  Vector.ofFn fun i => ⟨x.extractLsb' (8 * (15 - i.val)) 8⟩

/-- Doubling in GF(2^128) modulo x^128 + x^7 + x^2 + x + 1. -/
def dbl (b : Block) : Block :=
  let x := toBits b
  ofBits (if x.msb then (x <<< 1) ^^^ 0x87#128 else x <<< 1)

/-- The function `padding`: a one bit, and zeros up to a block. -/
def padding (m : List UInt8) : Block := readVec 16 (m ++ [0x80])

def cmac (E : Block → Block) (m : List UInt8) : Block :=
  let zero : Block := Vector.replicate 16 0
  let k1 := dbl (E zero)
  let k2 := dbl k1
  let n := max 1 ((m.length + 15) / 16)
  let last := m.drop (16 * (n - 1))
  let mLast := if last.length = 16 then xor128 (readVec 16 last) k1 else xor128 (padding last) k2
  let x := (toBlocks (n - 1) m).foldl (fun x b => E (xor128 x b)) zero
  E (xor128 mLast x)

end Rfc4493

theorem toBits_getLsbD (b : Block) {i j : ℕ} (hi : i < 16) (hj : j < 8) :
    (Rfc4493.toBits b).getLsbD (8 * (15 - i) + j) = b[i].toBitVec.getLsbD j := by
  have hbyte : 15 - (8 * (15 - i) + j) / 8 = i := by omega
  have hbit : (8 * (15 - i) + j) % 8 = j := by omega
  rw [Rfc4493.toBits, BitVec.getLsbD_ofFnLE, dif_pos (by omega)]
  simp only [hbyte, hbit]

theorem ofBits_getLsbD (x : BitVec 128) {i j : ℕ} (hi : i < 16) (hj : j < 8) :
    (Rfc4493.ofBits x)[i].toBitVec.getLsbD j = x.getLsbD (8 * (15 - i) + j) := by
  simp only [Rfc4493.ofBits, Vector.getElem_ofFn, BitVec.getLsbD_extractLsb', hj, decide_true,
    Bool.true_and]

theorem shifted_bit (x y : UInt8) {j : ℕ} (hj : j < 8) :
    ((x <<< 1) ||| (y >>> 7)).toBitVec.getLsbD j =
      if j = 0 then y.toBitVec.getLsbD 7 else x.toBitVec.getLsbD (j - 1) := by
  have hx : (x <<< 1).toBitVec = x.toBitVec <<< 1 := rfl
  have hy : (y >>> 7).toBitVec = y.toBitVec >>> 7 := rfl
  rw [UInt8.toBitVec_or, hx, hy, BitVec.getLsbD_or, BitVec.getLsbD_shiftLeft,
    BitVec.getLsbD_ushiftRight]
  by_cases hzero : j = 0
  · simp [hzero]
  · have hhigh : y.toBitVec.getLsbD (7 + j) = false := BitVec.getLsbD_of_ge _ _ (by omega)
    simp [hzero, hhigh, hj, show ¬j < 1 by omega]

/-- The loop of `aes_generate_subkey` shifts the block as a number. -/
def shiftBlock (b : Block) : Block := Vector.ofFn fun i =>
  if h : i.val < 15 then (b.get i <<< 1) ||| (b.get ⟨i.val + 1, Nat.succ_lt_succ h⟩ >>> 7)
  else b.get i <<< 1

theorem shiftBlock_eq (b : Block) : shiftBlock b = Rfc4493.ofBits (Rfc4493.toBits b <<< 1) := by
  apply Vector.ext
  intro i hi
  apply UInt8.toBitVec_inj.mp
  apply BitVec.eq_of_getLsbD_eq
  intro j hj
  have hget (k : Fin 16) : b.get k = b[k.val] := rfl
  rw [ofBits_getLsbD _ hi hj, BitVec.getLsbD_shiftLeft, shiftBlock, Vector.getElem_ofFn]
  simp only [hget]
  by_cases hzero : j = 0
  · by_cases hlast : i < 15
    · have hprev : 8 * (15 - i) + j - 1 = 8 * (15 - (i + 1)) + 7 := by omega
      rw [dif_pos hlast, shifted_bit _ _ hj, if_pos hzero, hprev,
        toBits_getLsbD b (show i + 1 < 16 by omega) (show 7 < 8 by omega)]
      simp [show 8 * (15 - i) + j < 128 by omega, show ¬8 * (15 - i) + j < 1 by omega]
    · rw [dif_neg hlast]
      simp [hzero, show 15 - i = 0 by omega]
  · have hprev : 8 * (15 - i) + j - 1 = 8 * (15 - i) + (j - 1) := by omega
    rw [hprev, toBits_getLsbD b hi (show j - 1 < 8 by omega)]
    have hrange : (decide (8 * (15 - i) + j < 128) && !decide (8 * (15 - i) + j < 1)) = true := by
      simp [show 8 * (15 - i) + j < 128 by omega, show ¬8 * (15 - i) + j < 1 by omega]
    rw [hrange, Bool.true_and]
    by_cases hlast : i < 15
    · rw [dif_pos hlast, shifted_bit _ _ hj, if_neg hzero]
    · have hshift : (b[i] <<< 1).toBitVec = b[i].toBitVec <<< 1 := rfl
      rw [dif_neg hlast]
      change (b[i] <<< 1).toBitVec.getLsbD j = _
      rw [hshift, BitVec.getLsbD_shiftLeft]
      simp [hj, show ¬j < 1 by omega]

theorem reduceBlock_eq (x : BitVec 128) (h : 15 < 16) :
    (Rfc4493.ofBits x).set 15 ((Rfc4493.ofBits x)[15] ^^^ 0x87) h =
      Rfc4493.ofBits (x ^^^ 0x87#128) := by
  apply Vector.ext
  intro i hi
  apply UInt8.toBitVec_inj.mp
  apply BitVec.eq_of_getLsbD_eq
  intro j hj
  rw [ofBits_getLsbD _ hi hj, BitVec.getLsbD_xor, Vector.getElem_set]
  by_cases hlast : 15 = i
  · subst hlast
    rw [if_pos rfl, UInt8.toBitVec_xor, BitVec.getLsbD_xor, ofBits_getLsbD _ hi hj]
    have hconst : (0x87 : UInt8).toBitVec.getLsbD j = (0x87#128).getLsbD (8 * (15 - 15) + j) := by
      revert j
      decide
    rw [hconst]
  · have hconst : (0x87#128).getLsbD (8 * (15 - i) + j) = false := by
      have hsmall : 0x87 < 2 ^ (8 * (15 - i) + j) :=
        lt_of_lt_of_le (show 0x87 < 2 ^ 8 by decide)
          (Nat.pow_le_pow_right (by decide) (show 8 ≤ 8 * (15 - i) + j by omega))
      rw [BitVec.getLsbD_ofNat, Nat.testBit_lt_two_pow hsmall, Bool.and_false]
    rw [if_neg hlast, ofBits_getLsbD _ hi hj, hconst, Bool.xor_false]

theorem topBit_iff (x : UInt8) : x &&& 0x80 ≠ 0 ↔ x.toBitVec.getLsbD 7 = true := by
  revert x
  decide +kernel

theorem aesGenerateSubkey_eq (b : Block) : aesGenerateSubkey b = Rfc4493.dbl b := by
  have hmsb : (Rfc4493.toBits b).msb = b[0].toBitVec.getLsbD 7 := by
    rw [BitVec.msb_eq_getLsbD_last]
    exact toBits_getLsbD b (show 0 < 16 by omega) (show 7 < 8 by omega)
  have hsubkey : aesGenerateSubkey b = if b[0] &&& 0x80 ≠ 0 then
      (shiftBlock b).set 15 ((shiftBlock b)[15] ^^^ 0x87) else shiftBlock b := rfl
  rw [hsubkey, shiftBlock_eq, reduceBlock_eq, Rfc4493.dbl]
  by_cases htop : b[0].toBitVec.getLsbD 7 = true
  · rw [if_pos ((topBit_iff _).mpr htop), hmsb, if_pos htop]
  · rw [if_neg (fun h => htop ((topBit_iff _).mp h)), hmsb, if_neg htop]

/-- The inner loop of `aes128_cmac` on the last block of up to sixteen bytes. -/
def foldLast (L : Block) (msg : List UInt8) (length : ℕ) : Block := Vector.ofFn fun i =>
  if i.val < length then L.get i ^^^ msg.getD i 0 else L.get i

/-- The subkey buffer before the last block is folded in. -/
def lastSubkey (L : Block) (length : ℕ) : Block :=
  if length < 16 then xorAt (aesGenerateSubkey L) length aesKeyBits else L

theorem cmacLoop_last (rk : RoundKey) (L block : Block) (msg : List UInt8) {length : ℕ}
    (hpos : length ≠ 0) (hlast : length ≤ 16) :
    cmacLoop rk L block msg length =
      aesXcrypt (xor128 block (foldLast (lastSubkey L length) msg length)) rk false := by
  rw [cmacLoop, if_neg hpos, if_pos hlast]
  rfl

theorem cmacLoop_step (rk : RoundKey) (L block : Block) (msg : List UInt8) {length : ℕ}
    (h : 16 < length) :
    cmacLoop rk L block msg length = cmacLoop rk L
      (aesXcrypt (xor128 block (readVec 16 msg)) rk false) (msg.drop 16) (length - 16) := by
  rw [cmacLoop, if_neg (by omega), if_neg (by omega)]

def lastBlock (k1 : Block) (last : List UInt8) : Block :=
  if last.length = 16 then xor128 (readVec 16 last) k1
  else xor128 (Rfc4493.padding last) (Rfc4493.dbl k1)

theorem xorAt_getElem (b : Block) (n : ℕ) (x : UInt8) {i : ℕ} (hi : i < 16) :
    (xorAt b n x)[i] = if n = i then b[i] ^^^ x else b[i] := by
  rw [xorAt, Vector.getElem_setIfInBounds]
  by_cases heq : n = i
  · subst heq
    rw [if_pos rfl, if_pos rfl]
    simp [List.getD_eq_getElem?_getD, hi]
  · rw [if_neg heq, if_neg heq]

theorem foldLast_getElem (L : Block) (msg : List UInt8) (n : ℕ) {i : ℕ} (hi : i < 16) :
    (foldLast L msg n)[i] = if i < n then L[i] ^^^ msg.getD i 0 else L[i] := by
  rw [foldLast, Vector.getElem_ofFn]
  rfl

theorem xor128_getElem (a b : Block) {i : ℕ} (hi : i < 16) :
    (xor128 a b)[i] = a[i] ^^^ b[i] := by
  rw [xor128, Vector.getElem_zipWith]

theorem xor128_comm (a b : Block) : xor128 a b = xor128 b a := by
  apply Vector.ext
  intro i hi
  rw [xor128_getElem _ _ hi, xor128_getElem _ _ hi, UInt8.xor_comm]

theorem foldLast_eq (k1 : Block) (last rest : List UInt8) (h : last.length ≤ 16) :
    foldLast (lastSubkey k1 last.length) (last ++ rest) last.length = lastBlock k1 last := by
  apply Vector.ext
  intro i hi
  have hget (hlt : i < last.length) : (last ++ rest).getD i 0 = last.getD i 0 :=
    List.getD_append _ _ _ _ hlt
  rw [foldLast_getElem _ _ _ hi]
  by_cases hfull : last.length = 16
  · have hsubkey : lastSubkey k1 last.length = k1 := if_neg (by omega)
    rw [hsubkey, lastBlock, if_pos hfull, if_pos (by omega), hget (by omega), xor128_getElem _ _ hi,
      getElem_readVec, UInt8.xor_comm]
    rfl
  · have hsubkey : lastSubkey k1 last.length =
        xorAt (Rfc4493.dbl k1) last.length aesKeyBits := by
      rw [lastSubkey, if_pos (by omega), aesGenerateSubkey_eq]
    rw [hsubkey, lastBlock, if_neg hfull, xor128_getElem _ _ hi, Rfc4493.padding, getElem_readVec,
      xorAt_getElem _ _ _ hi]
    -- before the end of the message, at the padding bit, and after it
    by_cases hlt : i < last.length
    · rw [if_pos hlt, if_neg (by omega), hget hlt, List.getD_append _ _ _ _ hlt, UInt8.xor_comm]
      rfl
    · rw [if_neg hlt, List.getD_append_right _ _ _ _ (by omega)]
      by_cases heq : last.length = i
      · rw [if_pos heq, heq, Nat.sub_self, UInt8.xor_comm]
        rfl
      · rw [if_neg heq, List.getD_eq_default _ _ (by simp; omega)]
        exact (UInt8.zero_xor).symm

theorem cmacLoop_eq (rk : RoundKey) (k1 block : Block) (n : ℕ) (msg rest : List UInt8)
    (hlow : 16 * n < msg.length) (hhigh : msg.length ≤ 16 * (n + 1)) :
    cmacLoop rk k1 block (msg ++ rest) msg.length =
      aesXcrypt (xor128 (lastBlock k1 (msg.drop (16 * n)))
        ((toBlocks n msg).foldl (fun x b => aesXcrypt (xor128 x b) rk false) block)) rk false := by
  induction n generalizing block msg with
  | zero =>
    rw [cmacLoop_last _ _ _ _ (by omega) (by omega), foldLast_eq _ _ _ (by omega), toBlocks,
      List.foldl_nil, Nat.mul_zero, List.drop_zero, xor128_comm]
  | succ n ih =>
    have hdrop : (msg ++ rest).drop 16 = msg.drop 16 ++ rest :=
      List.drop_append_of_le_length (by omega)
    have hlen : msg.length - 16 = (msg.drop 16).length := List.length_drop.symm
    have hread : readVec 16 (msg ++ rest) = readVec 16 msg := by
      rw [← readVec_append_drop (show 16 ≤ msg.length by omega), List.append_assoc, readVec_append,
        readVec_append]
    rw [cmacLoop_step _ _ _ _ (by omega), hdrop, hlen, ih _ _ (by omega) (by omega), hread,
      toBlocks, List.foldl_cons, List.drop_drop]
    congr 4
    omega

/-- The function `aes128_cmac` on a message with whatever follows it in memory. -/
theorem aes128Cmac_eq (ctx : Aes128) (msg rest : List UInt8) :
    aes128Cmac ctx (msg ++ rest) msg.length =
      Rfc4493.cmac (aesXcrypt · ctx.roundKey false) msg := by
  have hspec (n : ℕ) (hn : max 1 ((msg.length + 15) / 16) - 1 = n) :
      Rfc4493.cmac (aesXcrypt · ctx.roundKey false) msg =
        aesXcrypt (xor128 (lastBlock
            (Rfc4493.dbl (aesXcrypt (Vector.replicate 16 0) ctx.roundKey false))
            (msg.drop (16 * n)))
          ((toBlocks n msg).foldl (fun x b => aesXcrypt (xor128 x b) ctx.roundKey false)
            (Vector.replicate 16 0))) ctx.roundKey false := by
    rw [Rfc4493.cmac, hn]
    rfl
  rw [aes128Cmac]
  by_cases hzero : msg.length = 0
  · obtain rfl := List.eq_nil_of_length_eq_zero hzero
    have hfold (L : Block) : foldLast L [] 0 = L := by
      apply Vector.ext
      intro i hi
      rw [foldLast_getElem _ _ _ hi, if_neg (Nat.not_lt_zero i)]
    have hlast := foldLast_eq (Rfc4493.dbl (aesXcrypt (Vector.replicate 16 0) ctx.roundKey false))
      [] [] (Nat.zero_le 16)
    rw [List.append_nil, List.length_nil, hfold, lastSubkey, if_pos (by decide)] at hlast
    rw [if_pos hzero, hspec 0 rfl, aesGenerateSubkey_eq (aesXcrypt _ _ _)]
    dsimp only
    rw [hlast, xor128_comm]
    rfl
  · obtain ⟨n, hlow, hhigh⟩ : ∃ n, 16 * n < msg.length ∧ msg.length ≤ 16 * (n + 1) :=
      ⟨(msg.length - 1) / 16, by omega, by omega⟩
    rw [if_neg hzero, cmacLoop_eq _ _ _ n _ _ hlow hhigh, aesGenerateSubkey_eq, hspec n (by omega)]

/-- The loop when only the given bytes of the message may be read: a read past
their end has no value. -/
def cmacLoopWithin (rk : RoundKey) (L block : Block) (msg : List UInt8) (length : ℕ) :
    Option Block :=
  if length = 0 then some block
  else if length ≤ 16 then
    if length ≤ msg.length then
      some (aesXcrypt (xor128 block (foldLast (lastSubkey L length) msg length)) rk false)
    else none
  else if 16 ≤ msg.length then
    cmacLoopWithin rk L (aesXcrypt (xor128 block (readVec 16 msg)) rk false) (msg.drop 16)
      (length - 16)
  else none
termination_by length

/-- The function `aes128_cmac` with the same restriction; no message byte is read
for the length zero. -/
def aes128CmacWithin (ctx : Aes128) (msg : List UInt8) (length : ℕ) : Option Block :=
  if length = 0 then some (aes128Cmac ctx [] 0)
  else
    let zero : Block := Vector.replicate 16 0
    cmacLoopWithin ctx.roundKey (aesGenerateSubkey (aesXcrypt zero ctx.roundKey false)) zero msg
      length

theorem cmacLoopWithin_eq (rk : RoundKey) (L block : Block) (msg : List UInt8) {length : ℕ}
    (h : length ≤ msg.length) :
    cmacLoopWithin rk L block msg length = some (cmacLoop rk L block msg length) := by
  induction length using Nat.strong_induction_on generalizing block msg with
  | _ length ih =>
    rw [cmacLoopWithin]
    by_cases hzero : length = 0
    · rw [if_pos hzero, cmacLoop, if_pos hzero]
    rw [if_neg hzero]
    by_cases hlast : length ≤ 16
    · rw [if_pos hlast, if_pos h, cmacLoop_last _ _ _ _ hzero hlast]
    · rw [if_neg hlast, if_pos (by omega), cmacLoop_step _ _ _ _ (by omega)]
      exact ih _ (by omega) _ _ (by rw [List.length_drop]; omega)

/-- The function `aes128_cmac` is AES-CMAC of the message, whatever follows it in
memory, and it reads no byte past its end. -/
theorem cmac_is_rfc4493 (key : Block) (msg rest : List UInt8) :
    aes128Cmac (aes128InitCmac key) (msg ++ rest) msg.length =
        Rfc4493.cmac (aesXcrypt · (aesKeyExpansion key) false) msg ∧
      aes128CmacWithin (aes128InitCmac key) msg msg.length =
        some (Rfc4493.cmac (aesXcrypt · (aesKeyExpansion key) false) msg) := by
  have hcmac := aes128Cmac_eq (aes128InitCmac key) msg rest
  have halone := aes128Cmac_eq (aes128InitCmac key) msg []
  rw [List.append_nil] at halone
  refine ⟨hcmac, ?_⟩
  rw [aes128CmacWithin]
  by_cases hzero : msg.length = 0
  · obtain rfl := List.eq_nil_of_length_eq_zero hzero
    rw [if_pos hzero]
    exact congrArg some halone
  · rw [if_neg hzero, cmacLoopWithin_eq _ _ _ _ le_rfl]
    rw [aes128Cmac, if_neg hzero] at halone
    exact congrArg some halone

end Parcel.Aes
