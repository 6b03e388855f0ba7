import Parcel.Aes128

/-!
# The inverse cipher undoes the cipher

Each round function with `invert` set undoes the forward one: the reverse table
for every byte, the index arrays of `aes_shift_rows`, the `gfmul` rows against
the doubling trick of the forward column mix. The loops of `aes_xcrypt` then
cancel turn by turn, for every round key.
-/

namespace Parcel.Aes

theorem sboxLookup_inverse : ∀ x : UInt8, sboxLookup (sboxLookup x false) true = x := by
  decide +kernel

theorem aesSubstituteBytes_inverse (s : Block) :
    aesSubstituteBytes (aesSubstituteBytes s false) true = s := by
  simp [aesSubstituteBytes, Function.comp_def, sboxLookup_inverse]

theorem xor128_cancel (a b : Block) : xor128 (xor128 a b) b = a := by
  ext k hk
  simp [xor128]

theorem aesAddRoundKey_cancel (s : Block) (round : ℕ) (rk : RoundKey) :
    aesAddRoundKey (aesAddRoundKey s round rk) round rk = s := by
  ext k hk
  simp [aesAddRoundKey]

theorem aesShiftRows_forward (s : Block) : aesShiftRows s false =
    #v[s.get 0, s.get 5, s.get 10, s.get 15, s.get 4, s.get 9, s.get 14, s.get 3,
      s.get 8, s.get 13, s.get 2, s.get 7, s.get 12, s.get 1, s.get 6, s.get 11] := by
  obtain ⟨⟨l⟩, h⟩ := s
  match l, h with
  | [_, _, _, _, _, _, _, _, _, _, _, _, _, _, _, _], _ => rfl

theorem aesShiftRows_backward (s : Block) : aesShiftRows s true =
    #v[s.get 0, s.get 13, s.get 10, s.get 7, s.get 4, s.get 1, s.get 14, s.get 11,
      s.get 8, s.get 5, s.get 2, s.get 15, s.get 12, s.get 9, s.get 6, s.get 3] := by
  obtain ⟨⟨l⟩, h⟩ := s
  match l, h with
  | [_, _, _, _, _, _, _, _, _, _, _, _, _, _, _, _], _ => rfl

theorem aesShiftRows_inverse (s : Block) : aesShiftRows (aesShiftRows s false) true = s := by
  rw [aesShiftRows_backward, aesShiftRows_forward]
  ext k hk
  interval_cases k <;> rfl

/-! ## Column mix

The inverse rows are additive in the exclusive or, so the product of the two
mixes is a sum of four terms in one byte each, which are checked over all
bytes. -/

def topBit (c : UInt8) : UInt8 := (c >>> 7) &&& 1

theorem topBit_cases : ∀ x : UInt8, topBit x = 0 ∨ topBit x = 1 := by decide +kernel

theorem topBit_xor (x y : UInt8) : topBit (x ^^^ y) = topBit x ^^^ topBit y := by
  apply UInt8.toBitVec_inj.mp
  simp only [topBit, UInt8.toBitVec_and, UInt8.toBitVec_xor, UInt8.toBitVec_shiftRight]
  ext i hi
  simp [Bool.and_xor_distrib_right]

theorem xtime_eq (c : UInt8) : xtime c = (c <<< 1) ^^^ (topBit c * 0x1b) := rfl

theorem xtime_xor (x y : UInt8) : xtime (x ^^^ y) = xtime x ^^^ xtime y := by
  have hb : topBit (x ^^^ y) * 0x1b = (topBit x * 0x1b) ^^^ (topBit y * 0x1b) := by
    rw [topBit_xor]
    rcases topBit_cases x with hx | hx <;> rcases topBit_cases y with hy | hy <;>
      rw [hx, hy] <;> rfl
  rw [xtime_eq, hb, UInt8.shiftLeft_xor, xtime_eq, xtime_eq]
  ac_rfl

theorem gfmul_eq_xtime : ∀ x : UInt8,
    gfmul x 0x9 = xtime (xtime (xtime x)) ^^^ x ∧
    gfmul x 0xb = xtime (xtime (xtime x)) ^^^ xtime x ^^^ x ∧
    gfmul x 0xd = xtime (xtime (xtime x)) ^^^ xtime (xtime x) ^^^ x ∧
    gfmul x 0xe = xtime (xtime (xtime x)) ^^^ xtime (xtime x) ^^^ xtime x := by
  decide +kernel

def XorLinear (f : UInt8 → UInt8) : Prop := ∀ x y, f (x ^^^ y) = f x ^^^ f y

theorem gfmul_xorLinear : XorLinear (gfmul · 0x9) ∧ XorLinear (gfmul · 0xb) ∧
    XorLinear (gfmul · 0xd) ∧ XorLinear (gfmul · 0xe) := by
  refine ⟨?_, ?_, ?_, ?_⟩ <;>
    · intro x y
      simp only [gfmul_eq_xtime, xtime_xor]
      ac_rfl

theorem xor_cancel (a x y : UInt8) : a ^^^ (x ^^^ (a ^^^ y)) = x ^^^ y := by
  calc a ^^^ (x ^^^ (a ^^^ y)) = (a ^^^ a) ^^^ (x ^^^ y) := by ac_rfl
    _ = x ^^^ y := by simp

theorem mixColumn_eq (a b c d : UInt8) : mixColumn a b c d =
    #v[xtime a ^^^ (xtime b ^^^ b) ^^^ c ^^^ d, a ^^^ xtime b ^^^ (xtime c ^^^ c) ^^^ d,
      a ^^^ b ^^^ xtime c ^^^ (xtime d ^^^ d), (xtime a ^^^ a) ^^^ b ^^^ c ^^^ xtime d] := by
  have h0 : a ^^^ b ^^^ c ^^^ d = a ^^^ (b ^^^ c ^^^ d) := by ac_rfl
  have h1 : a ^^^ b ^^^ c ^^^ d = b ^^^ (a ^^^ c ^^^ d) := by ac_rfl
  have h2 : a ^^^ b ^^^ c ^^^ d = c ^^^ (a ^^^ b ^^^ d) := by ac_rfl
  have h3 : a ^^^ b ^^^ c ^^^ d = d ^^^ (a ^^^ b ^^^ c) := by ac_rfl
  have e0 : a ^^^ (xtime (a ^^^ b) ^^^ (a ^^^ b ^^^ c ^^^ d)) =
      xtime a ^^^ (xtime b ^^^ b) ^^^ c ^^^ d := by rw [h0, xor_cancel, xtime_xor]; ac_rfl
  have e1 : b ^^^ (xtime (b ^^^ c) ^^^ (a ^^^ b ^^^ c ^^^ d)) =
      a ^^^ xtime b ^^^ (xtime c ^^^ c) ^^^ d := by rw [h1, xor_cancel, xtime_xor]; ac_rfl
  have e2 : c ^^^ (xtime (c ^^^ d) ^^^ (a ^^^ b ^^^ c ^^^ d)) =
      a ^^^ b ^^^ xtime c ^^^ (xtime d ^^^ d) := by rw [h2, xor_cancel, xtime_xor]; ac_rfl
  have e3 : d ^^^ (xtime (d ^^^ a) ^^^ (a ^^^ b ^^^ c ^^^ d)) =
      (xtime a ^^^ a) ^^^ b ^^^ c ^^^ xtime d := by rw [h3, xor_cancel, xtime_xor]; ac_rfl
  rw [mixColumn, e0, e1, e2, e3]

/-- A mixed column under four additive maps, collected by the byte the terms
come from. -/
theorem mixColumn_collect {f0 f1 f2 f3 : UInt8 → UInt8} (h0 : XorLinear f0) (h1 : XorLinear f1)
    (h2 : XorLinear f2) (h3 : XorLinear f3) (a b c d : UInt8) :
    f0 ((mixColumn a b c d).get 0) ^^^ f1 ((mixColumn a b c d).get 1) ^^^
        f2 ((mixColumn a b c d).get 2) ^^^ f3 ((mixColumn a b c d).get 3) =
      (f0 (xtime a) ^^^ f1 a ^^^ f2 a ^^^ f3 (xtime a ^^^ a)) ^^^
      (f0 (xtime b ^^^ b) ^^^ f1 (xtime b) ^^^ f2 b ^^^ f3 b) ^^^
      (f0 c ^^^ f1 (xtime c ^^^ c) ^^^ f2 (xtime c) ^^^ f3 c) ^^^
      (f0 d ^^^ f1 d ^^^ f2 (xtime d ^^^ d) ^^^ f3 (xtime d)) := by
  have e0 : (mixColumn a b c d).get 0 = xtime a ^^^ (xtime b ^^^ b) ^^^ c ^^^ d := by
    rw [mixColumn_eq]; rfl
  have e1 : (mixColumn a b c d).get 1 = a ^^^ xtime b ^^^ (xtime c ^^^ c) ^^^ d := by
    rw [mixColumn_eq]; rfl
  have e2 : (mixColumn a b c d).get 2 = a ^^^ b ^^^ xtime c ^^^ (xtime d ^^^ d) := by
    rw [mixColumn_eq]; rfl
  have e3 : (mixColumn a b c d).get 3 = (xtime a ^^^ a) ^^^ b ^^^ c ^^^ xtime d := by
    rw [mixColumn_eq]; rfl
  rw [e0, e1, e2, e3]
  unfold XorLinear at h0 h1 h2 h3
  rw [h0 _ d, h0 _ c, h0 (xtime a), h1 _ d, h1 _ (xtime c ^^^ c), h1 a,
    h2 _ (xtime d ^^^ d), h2 _ (xtime c), h2 a, h3 _ (xtime d), h3 _ c, h3 _ b]
  ac_rfl

/-- The product of the two coefficient matrices, row by row: the diagonal term
is the byte itself and the others vanish. -/
theorem column_products : ∀ x : UInt8,
    gfmul (xtime x) 0xe ^^^ gfmul x 0xb ^^^ gfmul x 0xd ^^^ gfmul (xtime x ^^^ x) 0x9 = x ∧
    gfmul (xtime x ^^^ x) 0xe ^^^ gfmul (xtime x) 0xb ^^^ gfmul x 0xd ^^^ gfmul x 0x9 = 0 ∧
    gfmul x 0xe ^^^ gfmul (xtime x ^^^ x) 0xb ^^^ gfmul (xtime x) 0xd ^^^ gfmul x 0x9 = 0 ∧
    gfmul x 0xe ^^^ gfmul x 0xb ^^^ gfmul (xtime x ^^^ x) 0xd ^^^ gfmul (xtime x) 0x9 = 0 := by
  decide +kernel

theorem invMixColumn_mixColumn (a b c d : UInt8) :
    invMixColumn ((mixColumn a b c d).get 0) ((mixColumn a b c d).get 1)
      ((mixColumn a b c d).get 2) ((mixColumn a b c d).get 3) = #v[a, b, c, d] := by
  obtain ⟨l9, lb, ld, le⟩ := gfmul_xorLinear
  have p := column_products
  -- every row is the first one rotated, so four products serve all sixteen terms
  have rot (w x y z : UInt8) : w ^^^ x ^^^ y ^^^ z = x ^^^ y ^^^ z ^^^ w := by ac_rfl
  apply Vector.ext
  intro k hk
  interval_cases k
  · refine (mixColumn_collect le lb ld l9 a b c d).trans ?_
    simp only [p, UInt8.xor_zero]
    rfl
  · refine (mixColumn_collect l9 le lb ld a b c d).trans ?_
    simp only [rot (gfmul _ 0x9), p, UInt8.xor_zero, UInt8.zero_xor]
    rfl
  · refine (mixColumn_collect ld l9 le lb a b c d).trans ?_
    simp only [rot (gfmul _ 0xd), rot (gfmul _ 0x9), p, UInt8.xor_zero, UInt8.zero_xor]
    rfl
  · refine (mixColumn_collect lb ld l9 le a b c d).trans ?_
    simp only [rot (gfmul _ 0xb), rot (gfmul _ 0xd), rot (gfmul _ 0x9), p, UInt8.xor_zero,
      UInt8.zero_xor]
    rfl

theorem aesMixColumns_cell (s : Block) (invert : Bool) (i j : Fin 4) :
    (aesMixColumns s invert)[cell i j] = (mixedColumn s invert i).get j := by
  have hdiv : (⟨(cell i j).val / 4, by omega⟩ : Fin 4) = i := by
    apply Fin.ext
    change (4 * i.val + j.val) / 4 = i.val
    omega
  have hmod : (⟨(cell i j).val % 4, by omega⟩ : Fin 4) = j := by
    apply Fin.ext
    change (4 * i.val + j.val) % 4 = j.val
    omega
  simp only [aesMixColumns, Fin.getElem_fin, Vector.getElem_ofFn, hdiv, hmod]

theorem mixedColumn_inverse (s : Block) (i : Fin 4) :
    mixedColumn (aesMixColumns s false) true i =
      #v[s.get (cell i 0), s.get (cell i 1), s.get (cell i 2), s.get (cell i 3)] := by
  unfold mixedColumn
  simp only [aesMixColumns_cell]
  exact invMixColumn_mixColumn _ _ _ _

theorem aesMixColumns_inverse (s : Block) : aesMixColumns (aesMixColumns s false) true = s := by
  have hcell (i j : Fin 4) : (aesMixColumns (aesMixColumns s false) true)[cell i j] =
      s[cell i j] := by
    rw [aesMixColumns_cell, mixedColumn_inverse]
    match j with
    | 0 => rfl
    | 1 => rfl
    | 2 => rfl
    | 3 => rfl
  apply Vector.ext
  intro k hk
  have h := hcell ⟨k / 4, by omega⟩ ⟨k % 4, by omega⟩
  simpa only [cell, Fin.getElem_fin, Nat.div_add_mod] using h

/-- What both last turns share with the others: the forward substitution and shift. -/
def subShift (state : Block) : Block := aesShiftRows (aesSubstituteBytes state false) false

def invSubShift (state : Block) : Block := aesSubstituteBytes (aesShiftRows state true) true

theorem invSubShift_subShift (s : Block) : invSubShift (subShift s) = s := by
  rw [invSubShift, subShift, aesShiftRows_inverse, aesSubstituteBytes_inverse]

/-- One turn of the inverse loop takes back the forward turn with the same round
key, with the substitution and shift of the next turn still applied. -/
theorem decryptRound_encryptRound (rk : RoundKey) (s : Block) (i : ℕ) :
    decryptRound rk (subShift (encryptRound rk s (aesRounds - 1 - i))) i = subShift s := by
  unfold decryptRound encryptRound
  change aesMixColumns (aesAddRoundKey (invSubShift (subShift _)) _ _) true = _
  rw [invSubShift_subShift, aesAddRoundKey_cancel, aesMixColumns_inverse]
  rfl

theorem decryptRounds_encryptRounds (rk : RoundKey) (s : Block) (n : ℕ) (hn : n ≤ aesRounds - 1) :
    (List.range n).foldl (decryptRound rk)
      (subShift ((List.range' (aesRounds - n) n).foldl (encryptRound rk) s)) = subShift s := by
  induction n generalizing s with
  | zero => rfl
  | succ n ih =>
    have hstart : aesRounds - (n + 1) + 1 = aesRounds - n := by omega
    have hround : aesRounds - (n + 1) = aesRounds - 1 - n := by omega
    simp only [List.range_succ, List.foldl_append, List.range'_succ, hstart, List.foldl_cons,
      List.foldl_nil]
    rw [ih _ (by omega), hround]
    exact decryptRound_encryptRound rk s n

theorem aesXcrypt_inverse (s : Block) (rk : RoundKey) :
    aesXcrypt (aesXcrypt s rk false) rk true = s := by
  have rounds := decryptRounds_encryptRounds rk (aesAddRoundKey s 0 rk) (aesRounds - 1) le_rfl
  simp only [aesXcrypt, Bool.false_eq_true, ↓reduceIte, aesAddRoundKey_cancel]
  change aesAddRoundKey (invSubShift ((List.range (aesRounds - 1)).foldl (decryptRound rk)
    (subShift ((List.range' (aesRounds - (aesRounds - 1)) (aesRounds - 1)).foldl
      (encryptRound rk) (aesAddRoundKey s 0 rk))))) 0 rk = s
  rw [rounds, invSubShift_subShift, aesAddRoundKey_cancel]

end Parcel.Aes
