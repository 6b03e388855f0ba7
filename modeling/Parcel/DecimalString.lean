import Parcel.Console

/-!
# Decimal strings

The two loops of `xutoa`, with every byte that they write. The second one advances the
pointer and the index of the NUL at once, so that the NULs stand at the odd offsets, up to
twice the number of digits.
-/

namespace Parcel

/-- The digits of the first loop, last one first, in an array with some room left. -/
def asciiDigits : ℕ → ℕ → List UInt8 → Option (List UInt8)
  | _, 0, ascii => some ascii
  | 0, _ + 1, _ => none
  | room + 1, value + 1, ascii =>
    asciiDigits room ((value + 1) / 10) (UInt8.ofNat (48 + (value + 1) % 10) :: ascii)

/-- The second loop: its writes, by their offset from the start of the string, and the last
`value`. -/
def writeDigits : List UInt8 → ℕ → ℕ → List (ℕ × UInt8) × ℕ
  | [], _, value => ([], value)
  | digit :: ascii, str, value =>
    let rest := writeDigits ascii (str + 1) (value + 1)
    ((str, digit) :: (str + 1 + value, 0) :: rest.1, rest.2)

/-- The writes of `xutoa` and its result; `none` if the digits overflow their array. -/
def xutoaWrites (value : ℕ) : Option (List (ℕ × UInt8) × ℕ) := do
  let ascii ← asciiDigits 11 value []
  some (writeDigits ascii 0 0)

/-- The memory from `str` on, after the writes. -/
def store (mem : ℕ → UInt8) (writes : List (ℕ × UInt8)) : ℕ → UInt8 :=
  writes.foldl (fun mem w => Function.update mem w.1 w.2) mem

/-- The number in decimal digits, without leading zeros. -/
def decimal (value : ℕ) : List UInt8 :=
  if value = 0 then [48] else (Nat.digits 10 value).reverse.map fun d => UInt8.ofNat (48 + d)

/-- A terminated decimal string of `n` digits, in whatever memory it is written to, and
nothing behind its NUL. It fits the buffer of `move_cursor_pos`. -/
structure ProperDecimal (value : ℕ) (writes : List (ℕ × UInt8)) (n : ℕ) : Prop where
  count : n = (decimal value).length
  digits : ∀ mem, ∀ i, ∀ hi : i < (decimal value).length, store mem writes i = (decimal value)[i]
  terminated : ∀ mem, store mem writes n = 0
  within : ∀ w ∈ writes, w.1 ≤ n
  fits : ∀ w ∈ writes, w.1 < 11

theorem asciiDigits_eq {room value : ℕ} (h : value < 10 ^ room) (ascii : List UInt8) :
    asciiDigits room value ascii =
      some ((Nat.digits 10 value).reverse.map (fun d => UInt8.ofNat (48 + d)) ++ ascii) := by
  induction room generalizing value ascii with
  | zero =>
    obtain rfl : value = 0 := Nat.lt_one_iff.mp h
    rfl
  | succ room ih =>
    cases value with
    | zero => rfl
    | succ value =>
      have hdiv : (value + 1) / 10 < 10 ^ room := by
        rw [pow_succ] at h
        omega
      rw [asciiDigits, ih hdiv, Nat.digits_def' (by norm_num) (Nat.succ_pos value),
        List.reverse_cons, List.map_append, List.append_assoc]
      rfl

theorem xutoaWrites_eq {value : ℕ} (h : value < 2 ^ 32) :
    xutoaWrites value = some (writeDigits (xutoa value) 0 0) := by
  rw [xutoaWrites, asciiDigits_eq (h.trans (by norm_num)), List.append_nil, xutoa,
    Nat.mod_eq_of_lt h]
  rfl

theorem xutoa_length_le_iff {value : ℕ} (h : value < 2 ^ 32) (k : ℕ) :
    (xutoa value).length ≤ k ↔ value < 10 ^ k := by
  rw [xutoa, Nat.mod_eq_of_lt h, List.length_map, List.length_reverse,
    Nat.digits_length_le_iff (by norm_num)]

theorem decimal_eq_xutoa {value : ℕ} (hpos : 0 < value) (h : value < 2 ^ 32) :
    decimal value = xutoa value := by
  rw [decimal, if_neg hpos.ne', xutoa, Nat.mod_eq_of_lt h]

theorem writeDigits_result (ascii : List UInt8) (str value : ℕ) :
    (writeDigits ascii str value).2 = value + ascii.length := by
  induction ascii generalizing str value with
  | nil => rfl
  | cons digit ascii ih =>
    rw [writeDigits, ih, List.length_cons]
    omega

theorem mem_writeDigits {ascii : List UInt8} {str value : ℕ} {w : ℕ × UInt8} :
    w ∈ (writeDigits ascii str value).1 ↔ ∃ j, ∃ hj : j < ascii.length,
      w = (str + j, ascii[j]) ∨ w = (str + 1 + value + 2 * j, 0) := by
  induction ascii generalizing str value with
  | nil => exact iff_of_false List.not_mem_nil fun ⟨_, hj, _⟩ => Nat.not_lt_zero _ hj
  | cons digit ascii ih =>
    rw [writeDigits, List.mem_cons, List.mem_cons, ih]
    constructor
    · rintro (rfl | rfl | ⟨j, hj, hw⟩)
      · exact ⟨0, Nat.succ_pos _, Or.inl rfl⟩
      · exact ⟨0, Nat.succ_pos _, Or.inr rfl⟩
      · refine ⟨j + 1, Nat.succ_lt_succ hj, hw.imp (fun h => ?_) fun h => ?_⟩
        · rw [h, Nat.add_right_comm]
          rfl
        · rw [h, show str + 1 + 1 + (value + 1) + 2 * j = str + 1 + value + 2 * (j + 1) by omega]
    · rintro ⟨j, hj, hw⟩
      cases j with
      | zero => exact hw.imp id Or.inl
      | succ j =>
        refine Or.inr (Or.inr ⟨j, Nat.lt_of_succ_lt_succ hj, hw.imp (fun h => ?_) fun h => ?_⟩)
        · rw [h, Nat.add_right_comm str 1 j]
          rfl
        · rw [h, show str + 1 + 1 + (value + 1) + 2 * j = str + 1 + value + 2 * (j + 1) by omega]

/-- The digits are in place, then the NULs at the odd offsets; every other byte is as before. -/
theorem store_writeDigits (ascii : List UInt8) (mem : ℕ → UInt8) (j i : ℕ) :
    store mem (writeDigits ascii j j).1 i =
      if h : j ≤ i ∧ i - j < ascii.length then ascii[i - j]
      else if 2 * j ≤ i ∧ i < 2 * (j + ascii.length) ∧ i % 2 = 1 then 0
      else mem i := by
  -- digit `j` goes to place `j`, with a zero at place `2 * j + 1`
  induction ascii generalizing mem j with
  | nil =>
    rw [dif_neg fun h => Nat.not_lt_zero _ h.2, if_neg (by simp only [List.length_nil]; omega)]
    rfl
  | cons digit ascii ih =>
    change store (Function.update (Function.update mem j digit) (j + 1 + j) 0)
      (writeDigits ascii (j + 1) (j + 1)).1 i = _
    rw [ih]
    by_cases hdigits : j + 1 ≤ i ∧ i - (j + 1) < ascii.length
    · have hi : i - j = i - (j + 1) + 1 := by omega
      have hlt : i - j < (digit :: ascii).length := by
        rw [List.length_cons]
        omega
      rw [dif_pos hdigits, dif_pos ⟨by omega, hlt⟩]
      simp only [hi, List.getElem_cons_succ]
    · rw [dif_neg hdigits]
      by_cases hfirst : i = j
      · subst hfirst
        rw [dif_pos ⟨le_rfl, by rw [Nat.sub_self]; exact Nat.succ_pos _⟩, if_neg (by omega),
          Function.update_of_ne (by omega), Function.update_self]
        simp only [Nat.sub_self, List.getElem_cons_zero]
      · rw [dif_neg (by rw [List.length_cons]; omega), List.length_cons]
        by_cases hnul : i = j + 1 + j
        · subst hnul
          rw [if_neg (by omega), if_pos (by omega), Function.update_self]
        · rw [Function.update_of_ne hnul, Function.update_of_ne hfirst]
          exact if_congr (by omega) rfl rfl

variable {value : ℕ}

theorem ProperDecimal.length_le (h : ProperDecimal value (writeDigits (xutoa value) 0 0).1
    (writeDigits (xutoa value) 0 0).2) : (xutoa value).length ≤ 1 := by
  rw [writeDigits_result, Nat.zero_add] at h
  by_contra hlong
  have hlast : (2 * (xutoa value).length - 1, 0) ∈ (writeDigits (xutoa value) 0 0).1 := by
    refine mem_writeDigits.mpr ⟨(xutoa value).length - 1, by omega, Or.inr ?_⟩
    rw [show 0 + 1 + 0 + 2 * ((xutoa value).length - 1) = 2 * (xutoa value).length - 1 by omega]
  have hle : 2 * (xutoa value).length - 1 ≤ (xutoa value).length := h.within _ hlast
  omega

theorem properDecimal_of_one (h : value < 2 ^ 32) (hone : (xutoa value).length = 1) :
    ProperDecimal value (writeDigits (xutoa value) 0 0).1 (writeDigits (xutoa value) 0 0).2 := by
  have hpos : 0 < value := by
    apply Nat.pos_of_ne_zero
    intro hzero
    rw [hzero] at hone
    exact absurd hone (by decide)
  have hin (w : ℕ × UInt8) (hw : w ∈ (writeDigits (xutoa value) 0 0).1) : w.1 ≤ 1 := by
    obtain ⟨j, hj, rfl | rfl⟩ := mem_writeDigits.mp hw
    · change 0 + j ≤ 1
      omega
    · change 0 + 1 + 0 + 2 * j ≤ 1
      omega
  rw [writeDigits_result, Nat.zero_add, hone]
  refine ⟨?_, fun mem i hi => ?_, fun mem => ?_, hin, fun w hw => (hin w hw).trans_lt (by norm_num)⟩
  · rw [decimal_eq_xutoa hpos h, hone]
  · simp only [decimal_eq_xutoa hpos h] at hi ⊢
    rw [store_writeDigits, dif_pos ⟨Nat.zero_le i, hi⟩]
    rfl
  · rw [store_writeDigits, dif_neg (by omega), if_pos (by omega)]

/-- Only the numbers of one digit are written as a decimal string. -/
theorem xutoa_proper_iff (value : ℕ) (h : value < 2 ^ 32) :
    (∃ writes n, xutoaWrites value = some (writes, n) ∧ ProperDecimal value writes n) ↔
      1 ≤ value ∧ value ≤ 9 := by
  have hzero := xutoa_length_le_iff h 0
  have hone := xutoa_length_le_iff h 1
  rw [xutoaWrites_eq h]
  constructor
  · rintro ⟨writes, n, heq, hproper⟩
    obtain ⟨rfl, rfl⟩ := Prod.mk.inj (Option.some.inj heq)
    -- At most one digit, and zero has none.
    have hle := hone.mp hproper.length_le
    refine ⟨?_, by omega⟩
    apply Nat.pos_of_ne_zero
    rintro rfl
    exact absurd hproper.count (by decide)
  · intro hdigit
    have hlength : (xutoa value).length = 1 := by omega
    exact ⟨_, _, rfl, properDecimal_of_one h hlength⟩

theorem xutoa_proper_seven :
    ∃ writes n, xutoaWrites 7 = some (writes, n) ∧ ProperDecimal 7 writes n :=
  (xutoa_proper_iff 7 (by norm_num)).mpr ⟨by norm_num, by norm_num⟩

/-- The NUL behind the two digits of ten stands one byte too far. -/
theorem xutoa_ten_not_proper :
    xutoaWrites 10 = some ([(0, 49), (1, 0), (1, 48), (3, 0)], 2) ∧
      ¬∃ writes n, xutoaWrites 10 = some (writes, n) ∧ ProperDecimal 10 writes n := by
  have hwrites : xutoaWrites 10 = some ([(0, 49), (1, 0), (1, 48), (3, 0)], 2) := by decide
  refine ⟨hwrites, ?_⟩
  rintro ⟨writes, n, heq, hproper⟩
  obtain ⟨rfl, rfl⟩ := Prod.mk.inj (Option.some.inj (hwrites.symm.trans heq))
  exact absurd (hproper.within (3, 0) (by decide)) (by decide)

theorem xutoa_fits_iff (h : value < 2 ^ 32) :
    (∀ w ∈ (writeDigits (xutoa value) 0 0).1, w.1 < 11) ↔ value < 100000 := by
  have hlength := xutoa_length_le_iff h 5
  constructor
  · intro hfits
    by_contra hlarge
    have hlong : 5 < (xutoa value).length := by omega
    exact absurd (hfits (11, 0) (mem_writeDigits.mpr ⟨5, hlong, Or.inr rfl⟩)) (lt_irrefl 11)
  · intro hsmall w hw
    obtain ⟨j, hj, rfl | rfl⟩ := mem_writeDigits.mp hw
    · change 0 + j < 11
      omega
    · change 0 + 1 + 0 + 2 * j < 11
      omega

/-- The sequences of the console have their digits exactly where `xutoa` stays in its buffer. -/
theorem moveCursorPos_ok_iff (dir : UInt8) (h : value < 2 ^ 32) :
    (∃ seq, moveCursorPos dir value = .ok seq) ↔
      ∀ w ∈ (writeDigits (xutoa value) 0 0).1, w.1 < 11 := by
  have hlength := xutoa_length_le_iff h 5
  rw [xutoa_fits_iff h, moveCursorPos]
  by_cases hfits : 2 * (xutoa value).length ≤ 11
  · rw [if_pos hfits]
    exact iff_of_true ⟨_, rfl⟩ (by omega)
  · rw [if_neg hfits]
    refine iff_of_false ?_ (by omega)
    rintro ⟨seq, hseq⟩
    cases hseq

end Parcel
