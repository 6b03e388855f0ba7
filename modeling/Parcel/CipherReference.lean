import Parcel.CipherInverse
import Parcel.Fips197

/-!
# The cipher is the one of FIPS 197

`ctx->s[i][j]` is the standard's column `i` and row `j`. Under that reading
each round function of the code is the standard's, the substitution table is
the inverse with the affine map, and the bytes that `aes_key_expansion` writes
are the words of the standard's recurrence.
-/

namespace Parcel.Aes

open Fips197 (State Word ofBlock toBlock)

theorem ofBlock_eq (b : Block) (r c : Fin 4) : ofBlock b r c = b[cell c r] := by
  have h : (⟨r.val + 4 * c.val, by omega⟩ : Fin 16) = cell c r := by
    apply Fin.ext
    change r.val + 4 * c.val = 4 * c.val + r.val
    omega
  rw [ofBlock, h]
  rfl

theorem toBlock_ofBlock (b : Block) : toBlock (ofBlock b) = b := by
  ext k hk
  have h : (⟨k % 4 + 4 * (k / 4), by omega⟩ : Fin 16) = ⟨k, hk⟩ := by
    apply Fin.ext
    change k % 4 + 4 * (k / 4) = k
    omega
  rw [toBlock, Vector.getElem_ofFn, ofBlock, h]
  rfl

theorem sboxLookup_eq_sBox : ∀ x : UInt8, sboxLookup x false = Fips197.sBox x := by
  decide +kernel

theorem ofBlock_aesSubstituteBytes (b : Block) :
    ofBlock (aesSubstituteBytes b false) = Fips197.subBytes (ofBlock b) := by
  funext r c
  rw [Fips197.subBytes, ofBlock_eq, ofBlock_eq, ← sboxLookup_eq_sBox, aesSubstituteBytes]
  simp only [Fin.getElem_fin, Vector.getElem_map]

theorem ofBlock_aesShiftRows (b : Block) :
    ofBlock (aesShiftRows b false) = Fips197.shiftRows (ofBlock b) := by
  funext r c
  rw [Fips197.shiftRows, ofBlock_eq, ofBlock_eq, aesShiftRows_forward]
  fin_cases r <;> fin_cases c <;> rfl

theorem gfMul_mixPoly : ∀ x : UInt8, Fips197.gfMul 0x01 x = x ∧ Fips197.gfMul 0x02 x = xtime x ∧
    Fips197.gfMul 0x03 x = xtime x ^^^ x := by
  decide +kernel

theorem mixColumn_eq_wordMul (s : Word) (j : Fin 4) :
    (mixColumn (s 0) (s 1) (s 2) (s 3)).get j = Fips197.wordMul Fips197.mixPoly s j := by
  have h := gfMul_mixPoly
  rw [mixColumn_eq]
  fin_cases j
  · change _ = Fips197.gfMul 0x02 (s 0) ^^^ Fips197.gfMul 0x03 (s 1) ^^^
      Fips197.gfMul 0x01 (s 2) ^^^ Fips197.gfMul 0x01 (s 3)
    simp only [h]
    rfl
  · change _ = Fips197.gfMul 0x01 (s 0) ^^^ Fips197.gfMul 0x02 (s 1) ^^^
      Fips197.gfMul 0x03 (s 2) ^^^ Fips197.gfMul 0x01 (s 3)
    simp only [h]
    rfl
  · change _ = Fips197.gfMul 0x01 (s 0) ^^^ Fips197.gfMul 0x01 (s 1) ^^^
      Fips197.gfMul 0x02 (s 2) ^^^ Fips197.gfMul 0x03 (s 3)
    simp only [h]
    rfl
  · change _ = Fips197.gfMul 0x03 (s 0) ^^^ Fips197.gfMul 0x01 (s 1) ^^^
      Fips197.gfMul 0x01 (s 2) ^^^ Fips197.gfMul 0x02 (s 3)
    simp only [h]
    rfl

theorem ofBlock_aesMixColumns (b : Block) :
    ofBlock (aesMixColumns b false) = Fips197.mixColumns (ofBlock b) := by
  funext r c
  rw [ofBlock_eq, aesMixColumns_cell, Fips197.mixColumns, ← mixColumn_eq_wordMul]
  simp only [ofBlock_eq]
  rfl

attribute [local instance] Fips197.neZero_four

def wordBytes (w : Word) : List UInt8 := [w 0, w 1, w 2, w 3]

theorem wordBytes_getD (w : Word) (j : Fin 4) : (wordBytes w).getD j 0 = w j := by
  fin_cases j <;> rfl

/-- The first `n` words of the schedule, four bytes each. -/
def scheduleBytes (key : Block) (n : ℕ) : List UInt8 :=
  (List.range n).flatMap fun i => wordBytes (Fips197.keyExpansion key i)

theorem scheduleBytes_succ (key : Block) (n : ℕ) :
    scheduleBytes key (n + 1) = scheduleBytes key n ++ wordBytes (Fips197.keyExpansion key n) := by
  rw [scheduleBytes, List.range_succ, List.flatMap_append, List.flatMap_singleton, ← scheduleBytes]

theorem scheduleBytes_length (key : Block) (n : ℕ) : (scheduleBytes key n).length = 4 * n := by
  induction n with
  | zero => rfl
  | succ n ih =>
    rw [scheduleBytes_succ, List.length_append, ih]
    rfl

theorem scheduleBytes_getD (key : Block) (n i : ℕ) (j : Fin 4) (hi : i < n) :
    (scheduleBytes key n).getD (4 * i + j) 0 = Fips197.keyExpansion key i j := by
  induction n with
  | zero => omega
  | succ n ih =>
    rw [scheduleBytes_succ]
    rcases Nat.lt_succ_iff_lt_or_eq.mp hi with h | h
    · rw [List.getD_append _ _ _ _ (by rw [scheduleBytes_length]; omega), ih h]
    · subst h
      have hsub : 4 * i + j.val - 4 * i = j.val := by omega
      rw [List.getD_append_right _ _ _ _ (by rw [scheduleBytes_length]; omega),
        scheduleBytes_length, hsub, wordBytes_getD]

theorem roundConstants_eq : ∀ j < 11, 0 < j →
    roundConstants.getD j 0 = Fips197.gfPow 0x02 (j - 1) := by
  decide +kernel

theorem scheduleBytes_key (key : Block) : scheduleBytes key 4 = key.toList := by
  have hlen : (scheduleBytes key 4).length = key.toList.length := by
    rw [scheduleBytes_length, Vector.length_toList]
  apply List.ext_getElem hlen
  intro k h1 h2
  have hk : k < 16 := by simpa using h2
  have h := scheduleBytes_getD key 4 (k / 4) ⟨k % 4, by omega⟩ (by omega)
  rw [Fips197.keyExpansion_key _ _ (by omega)] at h
  have hdm : 4 * (k / 4) + k % 4 = k := by omega
  simp only [hdm] at h
  rwa [List.getD_eq_getElem _ _ h1, List.getD_eq_getElem _ _ h2] at h

theorem expandWord_first (roundKey : List UInt8) (i : ℕ) (h : i % 4 = 0) :
    let at_ := fun k => roundKey.getD k 0
    expandWord roundKey i = roundKey ++
      [at_ (4 * (i - 4) + 0) ^^^
          (sboxLookup (at_ (4 * (i - 1) + 1)) false ^^^ roundConstants.getD (i / 4) 0),
        at_ (4 * (i - 4) + 1) ^^^ sboxLookup (at_ (4 * (i - 1) + 2)) false,
        at_ (4 * (i - 4) + 2) ^^^ sboxLookup (at_ (4 * (i - 1) + 3)) false,
        at_ (4 * (i - 4) + 3) ^^^ sboxLookup (at_ (4 * (i - 1) + 0)) false] := by
  simp only [expandWord, if_pos h]
  rfl

theorem expandWord_other (roundKey : List UInt8) (i : ℕ) (h : i % 4 ≠ 0) :
    let at_ := fun k => roundKey.getD k 0
    expandWord roundKey i = roundKey ++
      [at_ (4 * (i - 4) + 0) ^^^ at_ (4 * (i - 1) + 0),
        at_ (4 * (i - 4) + 1) ^^^ at_ (4 * (i - 1) + 1),
        at_ (4 * (i - 4) + 2) ^^^ at_ (4 * (i - 1) + 2),
        at_ (4 * (i - 4) + 3) ^^^ at_ (4 * (i - 1) + 3)] := by
  simp only [expandWord, if_neg h]
  rfl

theorem expandWord_scheduleBytes (key : Block) (i : ℕ) (h4 : 4 ≤ i) (h44 : i < 44) :
    expandWord (scheduleBytes key i) i = scheduleBytes key (i + 1) := by
  have hat (k : ℕ) (hk : k < i) : (scheduleBytes key i).getD (4 * k + 0) 0 =
        Fips197.keyExpansion key k 0 ∧
      (scheduleBytes key i).getD (4 * k + 1) 0 = Fips197.keyExpansion key k 1 ∧
      (scheduleBytes key i).getD (4 * k + 2) 0 = Fips197.keyExpansion key k 2 ∧
      (scheduleBytes key i).getD (4 * k + 3) 0 = Fips197.keyExpansion key k 3 :=
    ⟨scheduleBytes_getD key i k 0 hk, scheduleBytes_getD key i k 1 hk,
      scheduleBytes_getD key i k 2 hk, scheduleBytes_getD key i k 3 hk⟩
  obtain ⟨hp0, hp1, hp2, hp3⟩ := hat (i - 1) (by omega)
  obtain ⟨hb0, hb1, hb2, hb3⟩ := hat (i - 4) (by omega)
  rw [scheduleBytes_succ, wordBytes]
  by_cases hi : i % 4 = 0
  · have hrcon := roundConstants_eq (i / 4) (by omega) (by omega)
    have hnext := Fips197.keyExpansion_first key i h4 hi
    rw [expandWord_first _ _ hi]
    beta_reduce
    rw [hp0, hp1, hp2, hp3, hb0, hb1, hb2, hb3, hrcon, hnext, hnext, hnext, hnext]
    simp only [sboxLookup_eq_sBox]
    -- the constant word is zero after its first byte
    rw [show Fips197.rcon (i / 4) 1 = 0 from rfl, show Fips197.rcon (i / 4) 2 = 0 from rfl,
      show Fips197.rcon (i / 4) 3 = 0 from rfl, UInt8.xor_zero, UInt8.xor_zero, UInt8.xor_zero]
    rfl
  · have hnext := Fips197.keyExpansion_other key i h4 hi
    rw [expandWord_other _ _ hi]
    beta_reduce
    rw [hp0, hp1, hp2, hp3, hb0, hb1, hb2, hb3, hnext, hnext, hnext, hnext]

theorem expandWords_scheduleBytes (key : Block) (n : ℕ) (hn : n ≤ 40) :
    (List.range' 4 n).foldl expandWord key.toList = scheduleBytes key (4 + n) := by
  induction n with
  | zero => exact (scheduleBytes_key key).symm
  | succ n ih =>
    rw [List.range'_1_concat, List.foldl_append, ih (by omega), List.foldl_cons, List.foldl_nil,
      expandWord_scheduleBytes key (4 + n) (by omega) (by omega)]
    rfl

theorem toList_ofFn_getD {n : ℕ} (bytes : List UInt8) (h : bytes.length = n) :
    (Vector.ofFn fun k : Fin n => bytes.getD k 0).toList = bytes := by
  apply List.ext_getElem
  · rw [Vector.length_toList, h]
  · intro k h1 h2
    rw [Vector.getElem_toList, Vector.getElem_ofFn, List.getD_eq_getElem _ _ h2]

theorem aesKeyExpansion_toList (key : Block) :
    (aesKeyExpansion key).toList = scheduleBytes key (4 + 40) := by
  unfold aesKeyExpansion
  rw [expandWords_scheduleBytes key 40 le_rfl]
  exact toList_ofFn_getD _ (scheduleBytes_length key _)

theorem ofBlock_aesAddRoundKey (b key : Block) (round : ℕ) (hround : round ≤ aesRounds) :
    ofBlock (aesAddRoundKey b round (aesKeyExpansion key)) =
      Fips197.addRoundKey (ofBlock b) (Fips197.keyExpansion key) round := by
  funext r c
  have hr : round ≤ 10 := hround
  have hword := scheduleBytes_getD key (4 + 40) (4 * round + c) r (by omega)
  have hindex : 16 * round + (cell c r).val = 4 * (4 * round + c.val) + r.val := by
    change 16 * round + (4 * c.val + r.val) = _
    omega
  rw [Fips197.addRoundKey, ofBlock_eq, ofBlock_eq, aesAddRoundKey]
  simp only [Fin.getElem_fin, Vector.getElem_ofFn]
  rw [aesKeyExpansion_toList, hindex, hword]

theorem ofBlock_encryptRound (b key : Block) (i : ℕ) (hi : i ≤ aesRounds) :
    ofBlock (encryptRound (aesKeyExpansion key) b i) =
      Fips197.round (Fips197.keyExpansion key) (ofBlock b) i := by
  rw [encryptRound, ofBlock_aesAddRoundKey _ _ _ hi, ofBlock_aesMixColumns, ofBlock_aesShiftRows,
    ofBlock_aesSubstituteBytes, Fips197.round]

theorem ofBlock_encryptRounds (key : Block) (rounds : List ℕ) (h : ∀ i ∈ rounds, i ≤ aesRounds)
    (b : Block) : ofBlock (rounds.foldl (encryptRound (aesKeyExpansion key)) b) =
      rounds.foldl (Fips197.round (Fips197.keyExpansion key)) (ofBlock b) := by
  induction rounds generalizing b with
  | nil => rfl
  | cons i rounds ih =>
    rw [List.foldl_cons, List.foldl_cons, ih (fun k hk => h k (List.mem_cons_of_mem _ hk)),
      ofBlock_encryptRound b key i (h i List.mem_cons_self)]

theorem ofBlock_aesXcrypt (key block : Block) :
    ofBlock (aesXcrypt block (aesKeyExpansion key) false) =
      Fips197.addRoundKey (Fips197.shiftRows (Fips197.subBytes
        ((List.range' 1 (aesRounds - 1)).foldl (Fips197.round (Fips197.keyExpansion key))
          (Fips197.addRoundKey (ofBlock block) (Fips197.keyExpansion key) 0))))
        (Fips197.keyExpansion key) aesRounds := by
  have hrounds : ∀ i ∈ List.range' 1 (aesRounds - 1), i ≤ aesRounds := by decide
  simp only [aesXcrypt, Bool.false_eq_true, ↓reduceIte]
  rw [ofBlock_aesAddRoundKey _ _ _ le_rfl, ofBlock_aesShiftRows, ofBlock_aesSubstituteBytes,
    ofBlock_encryptRounds key _ hrounds, ofBlock_aesAddRoundKey _ _ _ (by decide)]

/-- For every key and every block the code's cipher is the standard's. -/
theorem aes_is_fips197 (key block : Block) :
    aesXcrypt block (aesKeyExpansion key) false = Fips197.cipher key block := by
  rw [← toBlock_ofBlock (aesXcrypt block (aesKeyExpansion key) false), ofBlock_aesXcrypt]
  rfl

end Parcel.Aes
