import Parcel.Utf8

/-!
# The width tables

The binary search of `utf8.c` on sorted tables of ranges. The bounds are sizes, and the
upper one is decremented without a test: it stays in the table since the first range starts
at or before the codepoint.
-/

namespace Parcel
open BoundedReads

/-- Ranges of 32-bit numbers in increasing order, none of which meet. -/
structure SortedTable (table : List CodepointRange) : Prop where
  nonempty : table ≠ []
  ordered : ∀ r ∈ table, r.start ≤ r.last
  disjoint : table.IsChain fun r s => r.last < s.start
  words : ∀ r ∈ table, r.last < 2 ^ 32

def InTable (c : ℕ) (table : List CodepointRange) : Prop := ∃ r ∈ table, r.start ≤ c ∧ c ≤ r.last

instance (c : ℕ) (table : List CodepointRange) : Decidable (InTable c table) :=
  inferInstanceAs (Decidable (∃ r ∈ table, r.start ≤ c ∧ c ≤ r.last))

section

variable {table : List CodepointRange}

theorem SortedTable.length_pos (h : SortedTable table) : 0 < table.length :=
  List.length_pos_of_ne_nil h.nonempty

theorem SortedTable.start_le_last (h : SortedTable table) {i : ℕ} (hi : i < table.length) :
    table[i].start ≤ table[i].last :=
  h.ordered _ (List.getElem_mem hi)

theorem SortedTable.last_lt_start (h : SortedTable table) {i j : ℕ} (hij : i < j)
    (hj : j < table.length) : table[i].last < table[j].start := by
  induction j with
  | zero => exact absurd hij (Nat.not_lt_zero i)
  | succ j ih =>
    have hnext : table[j].last < table[j + 1].start := h.disjoint.getElem j hj
    rcases Nat.lt_succ_iff_lt_or_eq.mp hij with hlt | rfl
    · have hrange := h.start_le_last (i := j) (by omega)
      exact (ih hlt (by omega)).trans_le (hrange.trans hnext.le)
    · exact hnext

/-- Every range has numbers of its own, so that the table has no more ranges than there are
numbers. -/
theorem SortedTable.length_le (h : SortedTable table) : table.length ≤ 2 ^ 32 := by
  have hindex (i : ℕ) (hi : i < table.length) : i ≤ table[i].last := by
    induction i with
    | zero => exact Nat.zero_le _
    | succ i ih =>
      have hlt : table[i].last < table[i + 1].start := h.last_lt_start (Nat.lt_add_one i) hi
      have hrange : table[i + 1].start ≤ table[i + 1].last := h.start_le_last hi
      have hle := ih (by omega)
      omega
  have hpos := h.length_pos
  have hlast := h.words _ (List.getElem_mem (show table.length - 1 < table.length by omega))
  have hle := hindex (table.length - 1) (by omega)
  omega

theorem inTable_iff {c : ℕ} : InTable c table ↔
    ∃ i, ∃ hi : i < table.length, table[i].start ≤ c ∧ c ≤ table[i].last := by
  constructor
  · rintro ⟨r, hr, hc⟩
    obtain ⟨i, hi, rfl⟩ := List.mem_iff_getElem.mp hr
    exact ⟨i, hi, hc⟩
  · rintro ⟨i, hi, hc⟩
    exact ⟨table[i], List.getElem_mem hi, hc⟩

/-- What holds of `bounds` at the head of the loop: the upper one is in the table, and the
ranges outside of them lie below the number, or above it. -/
structure SearchBounds (c : ℕ) (table : List CodepointRange) (upper lower : ℕ) : Prop where
  upper_lt : upper < table.length
  lower_le : lower ≤ upper + 1
  below : ∀ i, ∀ hi : i < table.length, i < lower → table[i].last < c
  above : ∀ i, ∀ hi : i < table.length, upper < i → c < table[i].start

variable {c upper lower : ℕ}

theorem SearchBounds.raise (h : SortedTable table) (hb : SearchBounds c table upper lower)
    {avg : ℕ} (hupper : avg ≤ upper) (havg : avg < table.length) (hc : table[avg].last < c) :
    SearchBounds c table upper (avg + 1) := by
  refine ⟨hb.upper_lt, Nat.succ_le_succ hupper, fun i hi hlt => ?_, hb.above⟩
  rcases Nat.lt_succ_iff_lt_or_eq.mp hlt with hlt | rfl
  · have hbefore := h.last_lt_start hlt havg
    have hrange := h.start_le_last havg
    omega
  · exact hc

/-- The range in the middle starts above the number, so that it is not the first one. -/
theorem SearchBounds.reduce (h : SortedTable table) (hb : SearchBounds c table upper lower)
    (hfirst : ∀ h : 0 < table.length, table[0].start ≤ c) {avg : ℕ} (hlower : lower ≤ avg)
    (havg : avg < table.length) (hc : c < table[avg].start) :
    0 < avg ∧ SearchBounds c table (avg - 1) lower := by
  have hpos : 0 < avg := by
    apply Nat.pos_of_ne_zero
    intro hzero
    subst hzero
    exact absurd (hfirst havg) hc.not_ge
  refine ⟨hpos, by omega, by omega, hb.below, fun i hi hlt => ?_⟩
  by_cases hi' : i = avg
  · subst hi'
    exact hc
  · have hafter := h.last_lt_start (show avg < i by omega) hi
    have hrange := h.start_le_last havg
    omega

theorem SearchBounds.not_inTable (hb : SearchBounds c table upper lower) (hempty : upper < lower) :
    ¬InTable c table := by
  rw [inTable_iff]
  rintro ⟨i, hi, hstart, hlast⟩
  by_cases hlt : i < lower
  · exact absurd (hb.below i hi hlt) hlast.not_gt
  · exact absurd (hb.above i hi (by omega)) hstart.not_gt

theorem searchLoop_eq (h : SortedTable table) (hfirst : ∀ h : 0 < table.length, table[0].start ≤ c)
    {fuel : ℕ} (hb : SearchBounds c table upper lower) (hfuel : upper + 1 < fuel + lower) :
    searchLoop c table fuel upper lower = some (decide (InTable c table)) := by
  induction fuel generalizing upper lower with
  | zero =>
    have hle := hb.lower_le
    omega
  | succ fuel ih =>
    rw [searchLoop]
    by_cases hle : lower ≤ upper
    · have hupper : (lower + upper) / 2 ≤ upper := by omega
      have hlower : lower ≤ (lower + upper) / 2 := by omega
      have havg : (lower + upper) / 2 < table.length := hupper.trans_lt hb.upper_lt
      generalize (lower + upper) / 2 = avg at hupper hlower havg
      rw [if_pos hle]
      change table[avg]?.bind _ = _
      rw [List.getElem?_eq_getElem havg]
      change (if table[avg].last < c then searchLoop c table fuel upper (avg + 1)
        else if c < table[avg].start then
          (subWithin avg 1).bind fun b => searchLoop c table fuel b lower
        else some true) = _
      -- the ranges on one side of the middle are out: the invariant moves one bound
      by_cases hlast : table[avg].last < c
      · rw [if_pos hlast]
        exact ih (hb.raise h hupper havg hlast) (by omega)
      · rw [if_neg hlast]
        by_cases hstart : c < table[avg].start
        · have hreduce := hb.reduce h hfirst hlower havg hstart
          -- the bound is a `size_t`, and does not go below zero
          rw [if_pos hstart, subWithin, if_pos (Nat.succ_le_of_lt hreduce.1)]
          exact ih hreduce.2 (by omega)
        · have hin : InTable c table := inTable_iff.mpr
            ⟨avg, havg, not_lt.mp hstart, not_lt.mp hlast⟩
          rw [if_neg hstart, decide_eq_true hin]
    · rw [if_neg hle, decide_eq_false (hb.not_inTable (not_le.mp hle))]

theorem SearchBounds.whole (h : SortedTable table) : SearchBounds c table (table.length - 1) 0 where
  upper_lt := Nat.sub_lt h.length_pos Nat.one_pos
  lower_le := Nat.zero_le _
  below i _ hlt := absurd hlt (Nat.not_lt_zero i)
  above i hi hlt := by omega

theorem not_inTable_of_outside (h : SortedTable table) (hpos : 0 < table.length)
    (hfinal : table.length - 1 < table.length)
    (hout : c < table[0].start ∨ table[table.length - 1].last < c) : ¬InTable c table := by
  rw [inTable_iff]
  rintro ⟨i, hi, hstart, hlast⟩
  rcases hout with hout | hout
  · rcases Nat.eq_zero_or_pos i with rfl | hlater
    · exact absurd hstart hout.not_ge
    · have hbefore := h.last_lt_start hlater hi
      have hrange := h.start_le_last hpos
      omega
  · by_cases hlater : i = table.length - 1
    · subst hlater
      exact absurd hlast hout.not_ge
    · have hafter := h.last_lt_start (show i < table.length - 1 by omega) hfinal
      have hrange := h.start_le_last hfinal
      omega

theorem searchTable_eq (h : SortedTable table) (c : ℕ) :
    searchTable c table = some (decide (InTable c table)) := by
  have hpos := h.length_pos
  have hfinal : table.length - 1 < table.length := Nat.sub_lt hpos Nat.one_pos
  rw [searchTable, List.getElem?_eq_getElem hpos, List.getElem?_eq_getElem hfinal]
  change (if c < table[0].start ∨ table[table.length - 1].last < c then some false
    else searchLoop c table (table.length + 1) (table.length - 1) 0) = _
  by_cases hout : c < table[0].start ∨ table[table.length - 1].last < c
  · rw [if_pos hout, decide_eq_false (not_inTable_of_outside h hpos hfinal hout)]
  · rw [if_neg hout]
    apply searchLoop_eq h (fun _ => not_lt.mp fun hlt => hout (Or.inl hlt)) (SearchBounds.whole h)
    omega

end

theorem ucdWide_sorted : SortedTable ucdWide where
  nonempty := List.cons_ne_nil _ _
  ordered := by decide +kernel
  disjoint := by decide +kernel
  words := by decide +kernel

theorem ucdAmbiguous_sorted : SortedTable ucdAmbiguous where
  nonempty := List.cons_ne_nil _ _
  ordered := by decide +kernel
  disjoint := by decide +kernel
  words := by decide +kernel

/-- On a sorted table the search ends with the answer, without leaving the table and without
a wrap of its upper bound; the sum of two bounds is a size. Both tables of the console are
sorted. -/
theorem search_table_exact (table : List CodepointRange) (h : SortedTable table) (c : ℕ) :
    searchTable c table = some (decide (InTable c table)) ∧ 2 * table.length < 2 ^ 64 ∧
      SortedTable ucdWide ∧ SortedTable ucdAmbiguous := by
  have hlength := h.length_le
  exact ⟨searchTable_eq h c, by omega, ucdWide_sorted, ucdAmbiguous_sorted⟩

/-- A codepoint in the middle of the wide ranges. -/
theorem search_table_exact_wide : searchTable 0x4e00 ucdWide = some true := by
  rw [(search_table_exact ucdWide ucdWide_sorted 0x4e00).1]
  decide +kernel

end Parcel
