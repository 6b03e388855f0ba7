import Parcel.BoundedReads
import Parcel.WireUtil

/-!
# Hexadecimal output

The rows of `xhexdump`, which are written over one array again and again, and the keys that
`/encinfo` prints.
-/

/-! ## Stores to an array -/

namespace Stores

variable {α : Type} {row : List α} {writes first second : List (ℕ × α)} {p : ℕ} {v : α}

def setAll (row : List α) (writes : List (ℕ × α)) : List α :=
  writes.foldl (fun row w => row.set w.1 w.2) row

def written (writes : List (ℕ × α)) (p : ℕ) : Option α :=
  (writes.reverse.find? fun w => w.1 = p).map Prod.snd

theorem setAll_append (row : List α) (first second : List (ℕ × α)) :
    setAll row (first ++ second) = setAll (setAll row first) second := by
  rw [setAll, List.foldl_append, ← setAll, ← setAll]

theorem written_append (first second : List (ℕ × α)) (p : ℕ) :
    written (first ++ second) p = (written second p).or (written first p) := by
  rw [written, List.reverse_append, List.find?_append, written, written, Option.map_or]

theorem getElem?_setAll (row : List α) (writes : List (ℕ × α)) (p : ℕ) :
    (setAll row writes)[p]? = row[p]?.map fun old => (written writes p).getD old := by
  induction writes using List.reverseRecOn with
  | nil => simp [setAll, written]
  | append_singleton writes w ih =>
    rw [setAll_append, written_append, setAll, List.foldl_cons, List.foldl_nil]
    by_cases hp : w.1 = p
    · subst hp
      rw [List.getElem?_set_self', ih]
      cases row[w.1]? <;> simp [written]
    · rw [List.getElem?_set_ne hp, ih]
      simp [written, hp]

theorem written_eq_some (hmem : (p, v) ∈ writes) (hall : ∀ w ∈ writes, w.1 = p → w.2 = v) :
    written writes p = some v := by
  rw [written]
  cases hfind : writes.reverse.find? fun w => w.1 = p with
  | none =>
    have hne := List.find?_eq_none.mp hfind (p, v) (List.mem_reverse.mpr hmem)
    simp at hne
  | some w =>
    have hw := List.mem_reverse.mp (List.mem_of_find?_eq_some hfind)
    have hp : w.1 = p := by simpa using List.find?_some hfind
    rw [Option.map_some, hall w hw hp]

theorem written_eq_none (h : ∀ w ∈ writes, w.1 ≠ p) : written writes p = none := by
  rw [written, List.find?_eq_none.mpr, Option.map_none]
  intro w hw
  simpa using h w (List.mem_reverse.mp hw)

theorem mem_setAll (h : v ∈ setAll row writes) : v ∈ row ∨ ∃ w ∈ writes, w.2 = v := by
  induction writes generalizing row with
  | nil => exact Or.inl h
  | cons w writes ih =>
    rw [setAll, List.foldl_cons, ← setAll] at h
    rcases ih h with hrow | ⟨u, hu, heq⟩
    · rcases List.mem_or_eq_of_mem_set hrow with hold | hnew
      · exact Or.inl hold
      · exact Or.inr ⟨w, List.mem_cons_self, hnew.symm⟩
    · exact Or.inr ⟨u, List.mem_cons_of_mem w hu, heq⟩

theorem setAll_setAll (h : ∀ w ∈ first, ∃ v ∈ second, v.1 = w.1) :
    setAll (setAll row first) second = setAll row second := by
  apply List.ext_getElem?
  intro p
  rw [getElem?_setAll, getElem?_setAll, getElem?_setAll]
  cases hsecond : written second p with
  | some v => simp [Function.comp_def]
  | none =>
    have hfirst : written first p = none := by
      apply written_eq_none
      intro w hw hp
      obtain ⟨v, hv, hplace⟩ := h w hw
      rw [written, Option.map_eq_none_iff, List.find?_eq_none] at hsecond
      have hne := hsecond v (List.mem_reverse.mpr hv)
      rw [hplace, hp] at hne
      simp at hne
    simp [hfirst]

end Stores

namespace Parcel
open Stores BoundedReads

theorem filterMap_range_getElem? {α : Type} (l : List α) (n : ℕ) (h : l.length ≤ n) :
    ((List.range n).filterMap fun i => l[i]?) = l := by
  induction l generalizing n with
  | nil => simp
  | cons a l ih =>
    obtain ⟨n, rfl⟩ : ∃ m, n = m + 1 := Nat.exists_eq_add_one.mpr (Nat.zero_lt_of_lt h)
    rw [List.range_succ_eq_map, List.filterMap_cons, List.filterMap_map]
    simpa [Function.comp_def] using ih n (Nat.le_of_succ_le_succ h)

theorem flatMap_range_chunks {α : Type} (l : List α) (m n : ℕ) :
    ((List.range n).flatMap fun k => (l.drop (m * k)).take m) = l.take (m * n) := by
  induction n with
  | zero => simp
  | succ n ih =>
    rw [List.range_succ, List.flatMap_append, ih, List.flatMap_singleton, Nat.mul_succ,
      List.take_add]

def hexDigits : List UInt8 :=
  [0x30, 0x31, 0x32, 0x33, 0x34, 0x35, 0x36, 0x37, 0x38, 0x39, 0x61, 0x62, 0x63, 0x64, 0x65, 0x66]

def hexDigit (n : ℕ) : UInt8 := hexDigits.getD n 0

def highDigit (b : UInt8) : UInt8 := hexDigit (b.toNat >>> 4)
def lowDigit (b : UInt8) : UInt8 := hexDigit (b.toNat &&& 15)

def digitValue (c : UInt8) : Option ℕ := hexDigits.idxOf? c

theorem digitValue_hexDigit {n : ℕ} (hn : n < 16) : digitValue (hexDigit n) = some n := by
  interval_cases n <;> rfl

def readPair (high low : UInt8) : Option UInt8 := do
  let h ← digitValue high
  let l ← digitValue low
  return UInt8.ofNat (16 * h + l)

theorem readPair_digits (b : UInt8) : readPair (highDigit b) (lowDigit b) = some b := by
  have hlt := b.toNat_lt
  have hhigh : b.toNat >>> 4 = b.toNat / 16 := Nat.shiftRight_eq_div_pow b.toNat 4
  have hlow : b.toNat &&& 15 = b.toNat % 16 := Nat.and_two_pow_sub_one_eq_mod b.toNat 4
  rw [readPair, highDigit, lowDigit, hhigh, hlow, digitValue_hexDigit (by omega),
    digitValue_hexDigit (Nat.mod_lt _ (by decide))]
  have hsum : 16 * (b.toNat / 16) + b.toNat % 16 = b.toNat := Nat.div_add_mod _ _
  show some (UInt8.ofNat (16 * (b.toNat / 16) + b.toNat % 16)) = some b
  rw [hsum, UInt8.ofNat_toNat]

/-- The array `row` of `xhexdump` before the first row. -/
def blankRow : List UInt8 :=
  List.replicate 8 0x2d ++ [0x20, 0x20] ++
    ([0x2d, 0x2d] ++ (List.replicate 7 [0x20, 0x2d, 0x2d]).flatten) ++ [0x20, 0x20] ++
    ([0x2d, 0x2d] ++ (List.replicate 7 [0x20, 0x2d, 0x2d]).flatten) ++ [0x20, 0x20, 0x7c] ++
    List.replicate 16 0x2d ++ [0x7c]

def places : List ℕ :=
  [10, 61, 13, 62, 16, 63, 19, 64,
    22, 65, 25, 66, 28, 67, 31, 68,
    35, 69, 38, 70, 41, 71, 44, 72,
    47, 73, 50, 74, 53, 75, 56, 76]

def hexPlace (i : ℕ) : ℕ := places.getD (2 * i) 0
def asciiPlace (i : ℕ) : ℕ := places.getD (2 * i + 1) 0

def asciiChar (b : UInt8) : UInt8 := if 0x20 ≤ b ∧ b ≤ 0x7e then b else 0x2e

def offsetStores (offset : ℕ) : List (ℕ × UInt8) :=
  (List.range 8).map fun i => (i, hexDigit ((offset >>> (28 - 4 * i)) &&& 0xf))

def byteStores (line : List UInt8) : List (ℕ × UInt8) :=
  (List.range 16).flatMap fun i =>
    [(hexPlace i, highDigit (line.getD i 0)), (hexPlace i + 1, lowDigit (line.getD i 0)),
      (asciiPlace i, asciiChar (line.getD i 0))]

def clearStores (lineLen : ℕ) : List (ℕ × UInt8) :=
  (List.range' lineLen (16 - lineLen)).flatMap fun i =>
    [(hexPlace i, 0x20), (hexPlace i + 1, 0x20), (asciiPlace i, 0x20)]

def rowStores (offset : ℕ) (line : List UInt8) (lineLen : ℕ) : List (ℕ × UInt8) :=
  offsetStores offset ++ byteStores line ++ clearStores lineLen

/-- What `printf` writes of a row, which ends at the first zero. -/
def printRow (row : List UInt8) : List UInt8 :=
  [0x1b, 0x5b, 0x33, 0x33, 0x6d] ++ row.takeWhile (· ≠ 0) ++ [0x1b, 0x5b, 0x30, 0x6d, 0x0a]

/-- The loop of `xhexdump`: what it prints from an offset on, with the array of the row before. -/
def hexdumpLoop (mem : List UInt8) : ℕ → ℕ → List UInt8 → Option (List UInt8)
  | 0, _, _ => none
  | fuel + 1, offset, row =>
    let lineLen := if 16 < sizeSub mem.length offset then 16 else sizeSub mem.length offset
    if lineLen = 0 then some []
    else
      let line := (mem.drop offset).take lineLen ++ List.replicate (16 - lineLen) 0
      let row := setAll row (rowStores offset line lineLen)
      if lineLen ≠ 16 then some (printRow row)
      else (hexdumpLoop mem fuel (offset + 16) row).map (printRow row ++ ·)

/-- The output of `xhexdump`. -/
def xhexdump (mem : List UInt8) : Option (List UInt8) :=
  hexdumpLoop mem (mem.length / 16 + 1) 0 blankRow

def readRow (row : List UInt8) : List UInt8 :=
  (List.range 16).filterMap fun i =>
    readPair (row.getD (hexPlace i) 0) (row.getD (hexPlace i + 1) 0)

def readOffset (row : List UInt8) : Option ℕ :=
  (row.take 8).foldlM (fun n c => (digitValue c).map (16 * n + ·)) 0

/-- The row of at most 16 bytes at an offset, on an array that was not written before. -/
def hexRow (offset : ℕ) (bytes : List UInt8) : List UInt8 :=
  setAll blankRow (rowStores offset (bytes ++ List.replicate (16 - bytes.length) 0) bytes.length)

/-! ## One row -/

theorem blankRow_length : blankRow.length = 78 := rfl

theorem eight_le_places : ∀ i < 16, 8 ≤ hexPlace i ∧ 8 ≤ asciiPlace i := by
  decide

theorem places_distinct : ∀ i < 16, ∀ j < 16,
    (hexPlace i = hexPlace j → i = j) ∧ (hexPlace i + 1 = hexPlace j + 1 → i = j) ∧
      hexPlace i ≠ hexPlace j + 1 ∧ hexPlace i ≠ asciiPlace j ∧ hexPlace i + 1 ≠ asciiPlace j ∧
        hexPlace i + 1 < 78 := by
  decide

section

variable {offset n i : ℕ} {line bytes : List UInt8} {p : ℕ} {w : ℕ × UInt8}

theorem mem_byteStores : w ∈ byteStores line ↔ ∃ i < 16,
    w = (hexPlace i, highDigit (line.getD i 0)) ∨ w = (hexPlace i + 1, lowDigit (line.getD i 0)) ∨
      w = (asciiPlace i, asciiChar (line.getD i 0)) := by
  simp [byteStores]

theorem mem_clearStores (hn : n ≤ 16) : w ∈ clearStores n ↔ ∃ i, n ≤ i ∧ i < 16 ∧
    (w = (hexPlace i, 0x20) ∨ w = (hexPlace i + 1, 0x20) ∨ w = (asciiPlace i, 0x20)) := by
  have hrange (i : ℕ) : i ∈ List.range' n (16 - n) ↔ n ≤ i ∧ i < 16 := by
    rw [List.mem_range'_1]
    omega
  simp [clearStores, hrange, and_assoc]

theorem clearStores_value (hn : n ≤ 16) (hw : w ∈ clearStores n) : w.2 = 0x20 := by
  obtain ⟨j, -, -, rfl | rfl | rfl⟩ := (mem_clearStores hn).mp hw
  · rfl
  · rfl
  · rfl

theorem rowStores_high (hn : n ≤ 16) (hi : i < 16) :
    written (rowStores offset line n) (hexPlace i) =
      some (if n ≤ i then 0x20 else highDigit (line.getD i 0)) := by
  rw [rowStores, written_append]
  by_cases hclear : n ≤ i
  · have hwritten : written (clearStores n) (hexPlace i) = some 0x20 :=
      written_eq_some ((mem_clearStores hn).mpr ⟨i, hclear, hi, Or.inl rfl⟩)
        fun w hw _ => clearStores_value hn hw
    rw [hwritten, if_pos hclear, Option.some_or]
  · have hnone : written (clearStores n) (hexPlace i) = none := by
      apply written_eq_none
      intro w hw hplace
      obtain ⟨j, hj, hlt, rfl | rfl | rfl⟩ := (mem_clearStores hn).mp hw
      · exact hclear ((places_distinct j hlt i hi).1 hplace ▸ hj)
      · exact (places_distinct i hi j hlt).2.2.1 hplace.symm
      · exact (places_distinct i hi j hlt).2.2.2.1 hplace.symm
    have hwritten : written (byteStores line) (hexPlace i) = some (highDigit (line.getD i 0)) := by
      apply written_eq_some (mem_byteStores.mpr ⟨i, hi, Or.inl rfl⟩)
      intro w hw hplace
      obtain ⟨j, hlt, rfl | rfl | rfl⟩ := mem_byteStores.mp hw
      · rw [(places_distinct j hlt i hi).1 hplace]
      · exact absurd hplace.symm (places_distinct i hi j hlt).2.2.1
      · exact absurd hplace.symm (places_distinct i hi j hlt).2.2.2.1
    rw [hnone, Option.none_or, written_append, hwritten, Option.some_or, if_neg hclear]

theorem rowStores_low (hn : n ≤ 16) (hi : i < 16) :
    written (rowStores offset line n) (hexPlace i + 1) =
      some (if n ≤ i then 0x20 else lowDigit (line.getD i 0)) := by
  rw [rowStores, written_append]
  by_cases hclear : n ≤ i
  · have hwritten : written (clearStores n) (hexPlace i + 1) = some 0x20 :=
      written_eq_some ((mem_clearStores hn).mpr ⟨i, hclear, hi, Or.inr (Or.inl rfl)⟩)
        fun w hw _ => clearStores_value hn hw
    rw [hwritten, if_pos hclear, Option.some_or]
  · have hnone : written (clearStores n) (hexPlace i + 1) = none := by
      apply written_eq_none
      intro w hw hplace
      obtain ⟨j, hj, hlt, rfl | rfl | rfl⟩ := (mem_clearStores hn).mp hw
      · exact (places_distinct j hlt i hi).2.2.1 hplace
      · exact hclear ((places_distinct j hlt i hi).2.1 hplace ▸ hj)
      · exact (places_distinct i hi j hlt).2.2.2.2.1 hplace.symm
    have hwritten : written (byteStores line) (hexPlace i + 1) =
        some (lowDigit (line.getD i 0)) := by
      apply written_eq_some (mem_byteStores.mpr ⟨i, hi, Or.inr (Or.inl rfl)⟩)
      intro w hw hplace
      obtain ⟨j, hlt, rfl | rfl | rfl⟩ := mem_byteStores.mp hw
      · exact absurd hplace (places_distinct j hlt i hi).2.2.1
      · rw [(places_distinct j hlt i hi).2.1 hplace]
      · exact absurd hplace.symm (places_distinct i hi j hlt).2.2.2.2.1
    rw [hnone, Option.none_or, written_append, hwritten, Option.some_or, if_neg hclear]

theorem readRow_setAll {row : List UInt8} (hrow : row.length = 78) (hlen : bytes.length ≤ 16)
    (rest : List UInt8) :
    readRow (setAll row (rowStores offset (bytes ++ rest) bytes.length)) = bytes := by
  have hbytes : ∀ i ∈ List.range 16,
      readPair ((setAll row (rowStores offset (bytes ++ rest) bytes.length)).getD (hexPlace i) 0)
        ((setAll row (rowStores offset (bytes ++ rest) bytes.length)).getD (hexPlace i + 1) 0) =
          bytes[i]? := by
    intro i hi
    have hlt : i < 16 := List.mem_range.mp hi
    have hplace := (places_distinct i hlt i hlt).2.2.2.2.2
    have hhigh : hexPlace i < row.length := by omega
    have hlow : hexPlace i + 1 < row.length := by omega
    rw [List.getD_eq_getElem?_getD, List.getD_eq_getElem?_getD, getElem?_setAll, getElem?_setAll,
      rowStores_high hlen hlt, rowStores_low hlen hlt, List.getElem?_eq_getElem hhigh,
      List.getElem?_eq_getElem hlow]
    simp only [Option.map_some, Option.getD_some]
    by_cases hend : bytes.length ≤ i
    · rw [if_pos hend, if_pos hend, List.getElem?_eq_none hend]
      rfl
    · rw [if_neg hend, if_neg hend, readPair_digits, List.getD_eq_getElem?_getD,
        List.getElem?_append_left (not_le.mp hend), List.getElem?_eq_getElem (not_le.mp hend),
        Option.getD_some]
  rw [readRow, List.filterMap_congr hbytes, filterMap_range_getElem? bytes 16 hlen]

theorem setAll_rowStores {m : ℕ} {more : List UInt8} {row : List UInt8} {before : ℕ}
    (hm : m ≤ 16) :
    setAll (setAll row (rowStores before more m)) (rowStores offset line n) =
      setAll row (rowStores offset line n) := by
  apply setAll_setAll
  intro w hw
  have hbyte (v : ℕ × UInt8) (hv : v ∈ byteStores line) : v ∈ rowStores offset line n :=
    List.mem_append_left _ (List.mem_append_right _ hv)
  rw [rowStores, List.mem_append, List.mem_append] at hw
  rcases hw with (hoffset | hbytes) | hclear
  · rw [offsetStores, List.mem_map] at hoffset
    obtain ⟨i, hi, rfl⟩ := hoffset
    refine ⟨(i, hexDigit ((offset >>> (28 - 4 * i)) &&& 0xf)), ?_, rfl⟩
    exact List.mem_append_left _ (List.mem_append_left _ (List.mem_map.mpr ⟨i, hi, rfl⟩))
  · obtain ⟨i, hi, rfl | rfl | rfl⟩ := mem_byteStores.mp hbytes
    · exact ⟨_, hbyte _ (mem_byteStores.mpr ⟨i, hi, Or.inl rfl⟩), rfl⟩
    · exact ⟨_, hbyte _ (mem_byteStores.mpr ⟨i, hi, Or.inr (Or.inl rfl)⟩), rfl⟩
    · exact ⟨_, hbyte _ (mem_byteStores.mpr ⟨i, hi, Or.inr (Or.inr rfl)⟩), rfl⟩
  -- a place that is cleared is one that the bytes of any row go to
  · obtain ⟨i, -, hi, rfl | rfl | rfl⟩ := (mem_clearStores hm).mp hclear
    · exact ⟨_, hbyte _ (mem_byteStores.mpr ⟨i, hi, Or.inl rfl⟩), rfl⟩
    · exact ⟨_, hbyte _ (mem_byteStores.mpr ⟨i, hi, Or.inr (Or.inl rfl)⟩), rfl⟩
    · exact ⟨_, hbyte _ (mem_byteStores.mpr ⟨i, hi, Or.inr (Or.inr rfl)⟩), rfl⟩

theorem readOffset_setAll {row : List UInt8} (hrow : row.length = 78) (hn : n ≤ 16) :
    readOffset (setAll row (rowStores offset line n)) = some (offset % 2 ^ 32) := by
  -- the offset digits are in the first eight columns, where the other stores do not reach
  have hdigit : ∀ i < 8, written (rowStores offset line n) i =
      some (hexDigit ((offset >>> (28 - 4 * i)) &&& 0xf)) := by
    intro i hi
    have hclear : written (clearStores n) i = none := by
      apply written_eq_none
      intro w hw hplace
      obtain ⟨j, -, hj, rfl | rfl | rfl⟩ := (mem_clearStores hn).mp hw
      all_goals have hj := eight_le_places j hj
      all_goals simp only at hplace
      all_goals omega
    have hbytes : written (byteStores line) i = none := by
      apply written_eq_none
      intro w hw hplace
      obtain ⟨j, hj, rfl | rfl | rfl⟩ := mem_byteStores.mp hw
      all_goals have hj := eight_le_places j hj
      all_goals simp only at hplace
      all_goals omega
    have hoffset : written (offsetStores offset) i =
        some (hexDigit ((offset >>> (28 - 4 * i)) &&& 0xf)) := by
      apply written_eq_some
      · exact List.mem_map.mpr ⟨i, List.mem_range.mpr hi, rfl⟩
      · intro w hw hplace
        obtain ⟨j, -, rfl⟩ := List.mem_map.mp hw
        rw [show j = i from hplace]
    rw [rowStores, written_append, written_append, hclear, hbytes, hoffset, Option.none_or,
      Option.none_or]
  have hfront : (setAll row (rowStores offset line n)).take 8 =
      (List.range 8).map fun i => hexDigit ((offset >>> (28 - 4 * i)) &&& 0xf) := by
    apply List.ext_getElem?
    intro i
    rw [List.getElem?_take]
    by_cases hi : i < 8
    · rw [if_pos hi, getElem?_setAll, hdigit i hi, List.getElem?_eq_getElem (by omega)]
      simp [hi]
    · rw [if_neg hi, List.getElem?_eq_none (by simp; omega)]
  have hnibble (k : ℕ) : digitValue (hexDigit ((offset >>> k) &&& 0xf)) =
      some (offset / 2 ^ k % 16) := by
    rw [Nat.shiftRight_eq_div_pow, Nat.and_two_pow_sub_one_eq_mod _ 4]
    exact digitValue_hexDigit (Nat.mod_lt _ (by decide))
  rw [readOffset, hfront]
  simp only [List.range, List.range.loop, List.map_cons, List.map_nil, List.foldlM_cons,
    List.foldlM_nil, hnibble, Option.map_some, Option.bind_eq_bind, Option.bind_some,
    Option.pure_def, Option.some.injEq]
  omega

theorem hexDigit_ne_zero : ∀ n < 16, hexDigit n ≠ 0 := by
  decide

theorem highDigit_ne_zero (b : UInt8) : highDigit b ≠ 0 := by
  apply hexDigit_ne_zero
  have hlt := b.toNat_lt
  rw [Nat.shiftRight_eq_div_pow]
  omega

theorem lowDigit_ne_zero (b : UInt8) : lowDigit b ≠ 0 := by
  apply hexDigit_ne_zero
  rw [Nat.and_two_pow_sub_one_eq_mod _ 4]
  exact Nat.mod_lt _ (by decide)

theorem asciiChar_ne_zero (b : UInt8) : asciiChar b ≠ 0 := by
  rw [asciiChar]
  split
  · rintro rfl
    simp_all
  · decide

theorem rowStores_ne_zero (hn : n ≤ 16) (hw : w ∈ rowStores offset line n) : w.2 ≠ 0 := by
  rw [rowStores, List.mem_append, List.mem_append] at hw
  rcases hw with (hoffset | hbytes) | hclear
  · obtain ⟨i, -, rfl⟩ := List.mem_map.mp hoffset
    apply hexDigit_ne_zero
    rw [Nat.and_two_pow_sub_one_eq_mod _ 4]
    exact Nat.mod_lt _ (by decide)
  · obtain ⟨i, -, rfl | rfl | rfl⟩ := mem_byteStores.mp hbytes
    · exact highDigit_ne_zero _
    · exact lowDigit_ne_zero _
    · exact asciiChar_ne_zero _
  · rw [clearStores_value hn hclear]
    decide

theorem printRow_hexRow (hlen : bytes.length ≤ 16) : printRow (hexRow offset bytes) =
    [0x1b, 0x5b, 0x33, 0x33, 0x6d] ++ hexRow offset bytes ++ [0x1b, 0x5b, 0x30, 0x6d, 0x0a] := by
  have hne : ∀ b ∈ hexRow offset bytes, (b ≠ 0) := by
    intro b hb
    rcases mem_setAll hb with hblank | ⟨w, hw, rfl⟩
    · have hall : blankRow.all (· ≠ 0) = true := by decide +kernel
      simpa using List.all_eq_true.mp hall b hblank
    · exact rowStores_ne_zero hlen hw
  rw [printRow, List.takeWhile_eq_self_iff.mpr]
  simpa using hne

end

/-! ## All rows -/

section

variable {mem : List UInt8} {offset : ℕ} {row : List UInt8}

/-- An array on which the next row is written as on the first. -/
def Blank (row : List UInt8) : Prop :=
  ∀ offset line n, setAll row (rowStores offset line n) = setAll blankRow (rowStores offset line n)

def chunkAt (mem : List UInt8) (offset : ℕ) : List UInt8 := (mem.drop offset).take 16

theorem chunkAt_length (mem : List UInt8) (offset : ℕ) :
    (chunkAt mem offset).length = min 16 (mem.length - offset) := by
  rw [chunkAt, List.length_take, List.length_drop]

theorem hexdumpLoop_eq (hmem : mem.length < 2 ^ 64) {fuel : ℕ} (hoffset : offset ≤ mem.length)
    (hrow : Blank row) (hfuel : mem.length - offset < 16 * fuel) :
    hexdumpLoop mem fuel offset row = some ((List.range ((mem.length - offset + 15) / 16)).flatMap
      fun k => printRow (hexRow (offset + 16 * k) (chunkAt mem (offset + 16 * k)))) := by
  induction fuel generalizing offset row with
  | zero => omega
  | succ fuel ih =>
    have hlen : (if 16 < mem.length - offset then 16 else mem.length - offset) =
        (chunkAt mem offset).length := by
      rw [chunkAt_length]
      split <;> omega
    have htake : (mem.drop offset).take (chunkAt mem offset).length = chunkAt mem offset := by
      rw [chunkAt, List.length_take, ← List.take_take, List.take_length]
    have hfresh : setAll blankRow (rowStores offset
        (chunkAt mem offset ++ List.replicate (16 - (chunkAt mem offset).length) 0)
          (chunkAt mem offset).length) = hexRow offset (chunkAt mem offset) := rfl
    rw [hexdumpLoop]
    simp only [sizeSub_eq hoffset hmem, hlen, htake, hrow offset, hfresh]
    have hchunk := chunkAt_length mem offset
    by_cases hend : (chunkAt mem offset).length = 0
    · rw [if_pos hend, show (mem.length - offset + 15) / 16 = 0 by omega]
      rfl
    rw [if_neg hend]
    by_cases hlast : (chunkAt mem offset).length ≠ 16
    -- the row that is not full is the last
    · rw [if_pos hlast, show (mem.length - offset + 15) / 16 = 1 by omega]
      simp
    rw [if_neg hlast]
    have hblank : Blank (hexRow offset (chunkAt mem offset)) := by
      intro next more m
      rw [hexRow, setAll_rowStores (by omega)]
    rw [ih (by omega) hblank (by omega), Option.map_some,
      show (mem.length - offset + 15) / 16 = (mem.length - (offset + 16) + 15) / 16 + 1 by omega,
      List.range_succ_eq_map, List.flatMap_cons, List.flatMap_map]
    simp only [Nat.mul_zero, Nat.add_zero, Nat.mul_succ, Nat.add_assoc, Nat.add_comm 16]

end

/-- The rows of `xhexdump`. -/
def dumpRows (mem : List UInt8) : List (List UInt8) :=
  (List.range ((mem.length + 15) / 16)).map fun k => hexRow (16 * k) (chunkAt mem (16 * k))

/-- The rows of a dump can be read back, each from its own offset, and no row shows anything of
another although all are written over one array. -/
theorem hexdump_round_trip (mem : List UInt8) (hlen : mem.length < 2 ^ 64) :
    (∃ rows : List (List UInt8), rows.length = (mem.length + 15) / 16 ∧
      xhexdump mem = some (rows.flatMap fun row =>
        [0x1b, 0x5b, 0x33, 0x33, 0x6d] ++ row ++ [0x1b, 0x5b, 0x30, 0x6d, 0x0a]) ∧
      rows.flatMap readRow = mem ∧
      ∀ k row, rows[k]? = some row → readOffset row = some (16 * k % 2 ^ 32) ∧
        row = hexRow (16 * k) (chunkAt mem (16 * k))) := by
  have hchunk (k : ℕ) : (chunkAt mem k).length ≤ 16 := by
    rw [chunkAt_length]
    omega
  refine ⟨dumpRows mem, by simp [dumpRows], ?_, ?_, ?_⟩
  · rw [xhexdump, hexdumpLoop_eq hlen (Nat.zero_le _) (fun _ _ _ => rfl) (by omega), dumpRows,
      List.flatMap_map]
    simp only [Nat.zero_add, Nat.sub_zero, printRow_hexRow (hchunk _)]
  · have hread (k : ℕ) : readRow (hexRow (16 * k) (chunkAt mem (16 * k))) =
        (mem.drop (16 * k)).take 16 :=
      readRow_setAll blankRow_length (hchunk _) _
    rw [dumpRows, List.flatMap_map]
    simp only [hread, flatMap_range_chunks]
    exact List.take_of_length_le (by omega)
  · intro k row hk
    rw [dumpRows, List.getElem?_map, Option.map_eq_some_iff] at hk
    obtain ⟨i, hi, rfl⟩ := hk
    obtain ⟨-, rfl⟩ := List.getElem?_eq_some_iff.mp hi
    simp only [List.getElem_range]
    exact ⟨readOffset_setAll blankRow_length (hchunk _), trivial⟩

/-- Eighteen bytes, in a whole row and a short one. -/
theorem hexdump_round_trip_two :
    ∃ rows : List (List UInt8), rows.length = 2 ∧
      xhexdump (List.replicate 16 0x41 ++ [0x4f, 0x4b]) = some (rows.flatMap fun row =>
        [0x1b, 0x5b, 0x33, 0x33, 0x6d] ++ row ++ [0x1b, 0x5b, 0x30, 0x6d, 0x0a]) ∧
      rows.flatMap readRow = List.replicate 16 0x41 ++ [0x4f, 0x4b] ∧
      ∃ row, rows[1]? = some row ∧ readOffset row = some 16 ∧ row = hexRow 16 [0x4f, 0x4b] := by
  obtain ⟨rows, hlength, hprinted, hread, hrows⟩ :=
    hexdump_round_trip (List.replicate 16 0x41 ++ [0x4f, 0x4b]) (by decide)
  have htwo : rows.length = 2 := hlength.trans (by decide)
  obtain ⟨hoffset, hrow⟩ := hrows 1 rows[1] (List.getElem?_eq_getElem (by omega))
  exact ⟨rows, htwo, hprinted, hread, rows[1], List.getElem?_eq_getElem (by omega),
    hoffset.trans (by decide), hrow.trans (congrArg (hexRow 16) (by decide))⟩

/-! ## Words of four bytes -/

/-- The four reads of a round of `xmemprint`. -/
def wordAt (data : List UInt8) (i : ℕ) : Option (List UInt8) :=
  (List.range 4).mapM fun j => byteAt data (j + i)

/-- The nine characters of a word, of which the last is `end`. -/
def wordText (word : List UInt8) (sep : UInt8) : List UInt8 :=
  word.flatMap (fun b => [highDigit b, lowDigit b]) ++ [sep]

/-- The loop of `xmemprint`, over a block that is read up to its end at most. -/
def memprintLoop (data : List UInt8) (len : ℕ) : ℕ → ℕ → Option (List UInt8)
  | 0, _ => none
  | fuel + 1, i =>
    if i < len then do
      let word ← wordAt data i
      let hex := wordText word (if len ≤ (i + 4) % 2 ^ 64 then 0x0a else 0x2d)
      let rest ← memprintLoop data len fuel ((i + 4) % 2 ^ 64)
      return hex.takeWhile (· ≠ 0) ++ rest
    else some []

def xmemprint (data : List UInt8) (len : ℕ) : Option (List UInt8) :=
  memprintLoop data len (len / 4 + 2) 0

def readWords : List UInt8 → List UInt8
  | a :: a' :: b :: b' :: c :: c' :: d :: d' :: _ :: rest =>
    [readPair a a', readPair b b', readPair c c', readPair d d'].reduceOption ++ readWords rest
  | _ => []

section

variable {data word : List UInt8} {i len : ℕ} {sep : UInt8}

theorem readsWhen_wordAt (data : List UInt8) (i : ℕ) :
    ReadsWhen (wordAt data i) (i + 4 ≤ data.length) ((data.drop i).take 4) := by
  constructor
  · intro h
    have hword : (data.drop i).take 4 = [data[i], data[i + 1], data[i + 2], data[i + 3]] := by
      rw [List.drop_eq_getElem_cons (by omega), List.drop_eq_getElem_cons (by omega),
        List.drop_eq_getElem_cons (by omega), List.drop_eq_getElem_cons (by omega)]
      rfl
    rw [wordAt, hword]
    simp [List.range, List.range.loop, byteAt, Nat.add_comm _ i,
      List.getElem?_eq_getElem (show i < data.length by omega),
      List.getElem?_eq_getElem (show i + 1 < data.length by omega),
      List.getElem?_eq_getElem (show i + 2 < data.length by omega),
      List.getElem?_eq_getElem (show i + 3 < data.length by omega)]
  · intro h
    have hthree : data[3 + i]? = none := List.getElem?_eq_none (by omega)
    rw [wordAt]
    simp only [List.range, List.range.loop, List.mapM_cons, List.mapM_nil, byteAt, hthree]
    cases data[0 + i]? <;> cases data[1 + i]? <;> cases data[2 + i]? <;> rfl

theorem wordText_ne_zero (hsep : sep ≠ 0) : ∀ b ∈ wordText word sep, b ≠ 0 := by
  intro b hb
  rw [wordText, List.mem_append, List.mem_flatMap, List.mem_singleton] at hb
  rcases hb with ⟨c, -, hc⟩ | rfl
  · rcases List.mem_pair.mp hc with rfl | rfl
    · exact highDigit_ne_zero c
    · exact lowDigit_ne_zero c
  · exact hsep

theorem readWords_wordText (hword : word.length = 4) (sep : UInt8) (rest : List UInt8) :
    readWords (wordText word sep ++ rest) = word ++ readWords rest := by
  obtain ⟨a, b, c, d, rfl⟩ := List.length_eq_four.mp hword
  simp [wordText, readWords, readPair_digits, List.reduceOption]

theorem readsWhen_memprintLoop {fuel : ℕ} (hlen : len + 4 ≤ 2 ^ 64) (hi : i ≤ data.length)
    (hround : i < len + 4) (hfuel : len + 4 ≤ i + 4 * fuel) :
    ReadsWhen (memprintLoop data len fuel i) (i + 4 * ((len - i + 3) / 4) ≤ data.length)
      ((List.range ((len - i + 3) / 4)).flatMap fun k =>
        wordText ((data.drop (i + 4 * k)).take 4)
          (if len ≤ i + 4 * k + 4 then 0x0a else 0x2d)) := by
  induction fuel generalizing i with
  | zero => omega
  | succ fuel ih =>
    rw [memprintLoop]
    by_cases hend : len ≤ i
    · rw [if_neg (not_lt.mpr hend), show (len - i + 3) / 4 = 0 by omega]
      exact (ReadsWhen.pure []).congr (by simpa using hi) fun _ => rfl
    rw [if_pos (not_le.mp hend), Nat.mod_eq_of_lt (by omega)]
    dsimp only
    have hcount : (len - i + 3) / 4 = (len - (i + 4) + 3) / 4 + 1 := by omega
    -- the text of this word does not depend on the words behind it
    have hrest (text : List UInt8) (hword : i + 4 ≤ data.length) :
        ReadsWhen (memprintLoop data len fuel (i + 4) >>= fun rest => pure (text ++ rest))
          (i + 4 + 4 * ((len - (i + 4) + 3) / 4) ≤ data.length ∧ True) (text ++ _) :=
      (ih hword (by omega) (by omega)).bind fun _ => ReadsWhen.pure (text ++ _)
    refine ((readsWhen_wordAt data i).bind (hrest _)).congr ?_ ?_
    · rw [hcount, and_true]
      omega
    · intro _
      rw [hcount, List.range_succ_eq_map, List.flatMap_cons, List.flatMap_map,
        List.takeWhile_eq_self_iff.mpr]
      · simp only [Nat.mul_zero, Nat.add_zero, Nat.mul_succ, Nat.add_assoc, Nat.add_comm 4]
      · simpa using wordText_ne_zero (by split <;> decide)

theorem readWords_flatMap {α : Type} (words : List α) (f : α → List UInt8) (sep : α → UInt8)
    (hwords : ∀ w ∈ words, (f w).length = 4) :
    readWords (words.flatMap fun w => wordText (f w) (sep w)) = words.flatMap f := by
  induction words with
  | nil => rfl
  | cons w words ih =>
    rw [List.flatMap_cons, List.flatMap_cons, readWords_wordText (hwords w List.mem_cons_self),
      ih fun v hv => hwords v (List.mem_cons_of_mem w hv)]

end

/-- The output of `xmemprint` is read from whole words, and they can be read back from it. -/
theorem memprint_round_trip (data : List UInt8) (len : ℕ) (hlen : len + 4 ≤ 2 ^ 64) :
    ((xmemprint data len).isSome ↔ 4 * ((len + 3) / 4) ≤ data.length) ∧
      ∀ text, xmemprint data len = some text →
        readWords text = data.take (4 * ((len + 3) / 4)) := by
  have hreads := readsWhen_memprintLoop hlen (Nat.zero_le data.length) (Nat.succ_pos _)
    (show len + 4 ≤ 0 + 4 * (len / 4 + 2) by omega)
  simp only [Nat.zero_add, Nat.sub_zero] at hreads
  rw [← xmemprint] at hreads
  refine ⟨hreads.isSome_iff, ?_⟩
  intro text htext
  have hinside := hreads.isSome_iff.mp (htext ▸ rfl)
  rw [Option.some.inj (htext.symm.trans (hreads.1 hinside)), readWords_flatMap,
    flatMap_range_chunks]
  intro k hk
  rw [List.mem_range] at hk
  rw [List.length_take, List.length_drop]
  omega

theorem memprint_round_trip_four :
    ((xmemprint [0xde, 0xad, 0xbe, 0xef] 4).isSome ↔ 4 ≤ 4) ∧
      ∀ text, xmemprint [0xde, 0xad, 0xbe, 0xef] 4 = some text →
        readWords text = [0xde, 0xad, 0xbe, 0xef] :=
  memprint_round_trip [0xde, 0xad, 0xbe, 0xef] 4 (by decide)

end Parcel
