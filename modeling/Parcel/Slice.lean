import Parcel.BoundedReads
import Parcel.WireUtil

/-!
# Slices

The two append functions of `slice.c` behind one entry point. A slice holds the bytes that
were appended: a static one refuses what does not fit its block, a dynamic one doubles its
capacity until it does.
-/

namespace Parcel
open BoundedReads

/-- The type `slice_t`; `data` is the block behind the pointer. -/
structure Slice where
  data : List UInt8
  cap : ℕ
  len : ℕ
  dynamic : Bool
  deriving DecidableEq

def staticSlice (mem : List UInt8) : Slice := ⟨mem, mem.length, 0, false⟩

def dynamicSlice : Slice := ⟨[], 0, 0, true⟩

/-- What the allocator gives for a size: the contents of a new block, or nothing. -/
abbrev SliceHeap := (n : ℕ) → Option (Vector UInt8 n)

/-- The function `xrealloc`; the bytes behind the old ones are those of the new block. -/
def xreallocBytes (heap : SliceHeap) (mem : List UInt8) (len : ℕ) : Option (List UInt8) :=
  (heap len).map fun block => mem.take len ++ block.toList.drop mem.length

/-- How a call ends. A failed allocation ends the process. -/
inductive SliceOutcome (α : Type)
  | returned (s : Slice) (result : α)
  | exited

/-- The copy behind the bytes of the slice; `none` where it leaves the block. -/
def appendBytes (s : Slice) (bytes : List UInt8) : Option (SliceOutcome Bool) := do
  let data ← writeAt s.data s.len bytes
  some (.returned { s with data := data, len := sizeAdd s.len bytes.length } true)

def sliceAppendStatic (s : Slice) (bytes : List UInt8) : Option (SliceOutcome Bool) :=
  if s.cap < sizeAdd s.len bytes.length then some (.returned s false) else appendBytes s bytes

/-- The loop that doubles the capacity; `none` if it does not end. -/
def growCap : ℕ → ℕ → ℕ → Option ℕ
  | 0, _, _ => none
  | fuel + 1, need, cap =>
    if cap < need then growCap fuel need (cap * 2 % 2 ^ 64) else some cap

def sliceAppendDynamic (heap : SliceHeap) (s : Slice) (bytes : List UInt8) :
    Option (SliceOutcome Bool) :=
  if s.cap < sizeAdd s.len bytes.length then do
    -- After 64 turns the capacity is zero, and stays so.
    let cap ← growCap 65 (sizeAdd s.len bytes.length)
      (if s.cap = 0 then 16 else 2 * s.cap % 2 ^ 64)
    match xreallocBytes heap s.data cap with
    | none => some .exited
    | some data => appendBytes { s with cap := cap, data := data } bytes
  else appendBytes s bytes

def sliceAppend (heap : SliceHeap) (s : Slice) (bytes : List UInt8) : Option (SliceOutcome Bool) :=
  if s.dynamic then sliceAppendDynamic heap s bytes else sliceAppendStatic s bytes

/-- Calls one after the other, with what each returned. -/
def sliceAppends (heap : SliceHeap) : Slice → List (List UInt8) → Option (SliceOutcome (List Bool))
  | s, [] => some (.returned s [])
  | s, bytes :: calls => do
    match ← sliceAppend heap s bytes with
    | .exited => some .exited
    | .returned s appended =>
      match ← sliceAppends heap s calls with
      | .exited => some .exited
      | .returned s results => some (.returned s (appended :: results))

def succeeded (calls : List (List UInt8)) (results : List Bool) : List (List UInt8) :=
  ((calls.zip results).filter (·.2)).map (·.1)

theorem growCap_spec {need : ℕ} (hneed : need < 2 ^ 63) {fuel cap : ℕ} (hcap : cap < 2 ^ 64)
    (hfuel : need ≤ cap * 2 ^ fuel) :
    ∃ c, growCap (fuel + 1) need cap = some c ∧ need ≤ c ∧ cap ≤ c ∧ c < 2 ^ 64 := by
  induction fuel generalizing cap with
  | zero =>
    have hle : need ≤ cap := by rwa [pow_zero, mul_one] at hfuel
    exact ⟨cap, if_neg hle.not_gt, hle, le_rfl, hcap⟩
  | succ fuel ih =>
    rw [growCap]
    by_cases hlt : cap < need
    · have hdouble : cap * 2 % 2 ^ 64 = cap * 2 := Nat.mod_eq_of_lt (by omega)
      have hfuel' : need ≤ cap * 2 * 2 ^ fuel := by rwa [mul_assoc, ← pow_succ']
      obtain ⟨c, hc, hle, hge, hbound⟩ := ih (by omega) hfuel'
      rw [if_pos hlt, hdouble]
      exact ⟨c, hc, hle, by omega, hbound⟩
    · rw [if_neg hlt]
      exact ⟨cap, rfl, not_lt.mp hlt, le_rfl, hcap⟩

theorem growCap_eq_none_iff {need fuel cap : ℕ} (hcap : cap < 2 ^ 64) :
    growCap fuel need cap = none ↔ ∀ k < fuel, cap * 2 ^ k % 2 ^ 64 < need := by
  induction fuel generalizing cap with
  | zero => exact iff_of_true rfl fun k hk => absurd hk (Nat.not_lt_zero k)
  | succ fuel ih =>
    have hhead : cap * 2 ^ 0 % 2 ^ 64 = cap := by rw [pow_zero, mul_one, Nat.mod_eq_of_lt hcap]
    have htail (k : ℕ) : cap * 2 % 2 ^ 64 * 2 ^ k % 2 ^ 64 = cap * 2 ^ (k + 1) % 2 ^ 64 := by
      rw [Nat.mod_mul_mod, mul_assoc, ← pow_succ']
    -- Doubling may wrap, but the remainders are those of the powers.
    rw [growCap, Nat.forall_lt_succ_left, hhead]
    by_cases hlt : cap < need
    · rw [if_pos hlt, ih (Nat.mod_lt _ (by norm_num)), and_iff_right hlt]
      simp only [htail]
    · rw [if_neg hlt]
      exact iff_of_false (Option.some_ne_none cap) fun h => hlt h.1

/-- A loop that has not ended after 64 turns never does. -/
theorem growCap_diverges {need cap : ℕ} (hcap : cap < 2 ^ 64) (h : growCap 65 need cap = none)
    (fuel : ℕ) : growCap fuel need cap = none := by
  rw [growCap_eq_none_iff hcap] at h ⊢
  intro k _
  by_cases hk : k < 65
  · exact h k hk
  · -- From there on the capacity has wrapped to zero.
    have hzero (j : ℕ) (hj : 64 ≤ j) : cap * 2 ^ j % 2 ^ 64 = 0 :=
      Nat.mod_eq_zero_of_dvd ((pow_dvd_pow 2 hj).mul_left cap)
    rw [hzero k (by omega), ← hzero 64 le_rfl]
    exact h 64 (by omega)

/-- The block has the capacity that is noted, and begins with the text. -/
structure Slice.Holds (s : Slice) (text : List UInt8) : Prop where
  block : s.data.length = s.cap
  fits : s.len ≤ s.cap
  text : s.data.take s.len = text

namespace Slice

variable {s : Slice} {text : List UInt8}

theorem Holds.length_eq (h : s.Holds text) : text.length = s.len := by
  rw [← h.text, List.length_take_of_le]
  rw [h.block]
  exact h.fits

theorem staticSlice_holds (mem : List UInt8) : (staticSlice mem).Holds [] :=
  ⟨rfl, Nat.zero_le _, rfl⟩

theorem dynamicSlice_holds : dynamicSlice.Holds [] := ⟨rfl, le_rfl, rfl⟩

theorem Holds.xrealloc (h : s.Holds text) {heap : SliceHeap} {cap : ℕ} (hcap : s.cap ≤ cap)
    {data : List UInt8} (hdata : xreallocBytes heap s.data cap = some data) :
    ({ s with cap := cap, data := data } : Slice).Holds text := by
  obtain ⟨block, -, rfl⟩ := Option.map_eq_some_iff.mp hdata
  have hle : s.data.length ≤ cap := h.block.trans_le hcap
  rw [List.take_of_length_le hle]
  refine ⟨?_, h.fits.trans hcap, ?_⟩
  · change (s.data ++ block.toList.drop s.data.length).length = cap
    rw [List.length_append, List.length_drop, Vector.length_toList, Nat.add_sub_cancel' hle]
  · change (s.data ++ block.toList.drop s.data.length).take s.len = text
    rw [List.take_append_of_le_length (h.fits.trans_eq h.block.symm)]
    exact h.text

theorem Holds.appendBytes (h : s.Holds text) {bytes : List UInt8}
    (hroom : s.len + bytes.length ≤ s.cap) (hcap : s.cap < 2 ^ 64) :
    ∃ s', appendBytes s bytes = some (.returned s' true) ∧ s'.Holds (text ++ bytes) ∧
      s'.cap = s.cap ∧ s'.dynamic = s.dynamic := by
  obtain ⟨data, hdata, hlength, htake, hdrop⟩ :=
    exists_writeAt s.data bytes s.len (by rwa [h.block])
  have hlen : sizeAdd s.len bytes.length = s.len + bytes.length := sizeAdd_eq (by omega)
  refine ⟨{ s with data := data, len := s.len + bytes.length }, ?_, ⟨?_, hroom, ?_⟩, rfl, rfl⟩
  · rw [Parcel.appendBytes, hdata, hlen]
    rfl
  · exact hlength.trans h.block
  · change data.take (s.len + bytes.length) = text ++ bytes
    rw [List.take_add, htake, h.text, hdrop, List.take_left]

end Slice

theorem sliceAppendStatic_spec {s : Slice} {text : List UInt8} (h : s.Holds text)
    (hcap : s.cap < 2 ^ 63) {bytes : List UInt8} (hbytes : bytes.length < 2 ^ 63) :
    (s.len + bytes.length ≤ s.cap →
      ∃ s', sliceAppendStatic s bytes = some (.returned s' true) ∧ s'.Holds (text ++ bytes) ∧
        s'.cap = s.cap ∧ s'.dynamic = s.dynamic) ∧
    (s.cap < s.len + bytes.length →
      sliceAppendStatic s bytes = some (.returned s false)) := by
  have hfits := h.fits
  have hsum : sizeAdd s.len bytes.length = s.len + bytes.length := sizeAdd_eq (by omega)
  rw [sliceAppendStatic, hsum]
  constructor
  · intro hroom
    rw [if_neg hroom.not_gt]
    exact h.appendBytes hroom (by omega)
  · intro hfull
    exact if_pos hfull

theorem sliceAppendDynamic_spec (heap : SliceHeap) {s : Slice} {text : List UInt8}
    (h : s.Holds text) (hcap : s.cap < 2 ^ 64) {bytes : List UInt8}
    (hbytes : (text ++ bytes).length < 2 ^ 63) :
    (sliceAppendDynamic heap s bytes = some .exited ∧ ∃ n, heap n = none) ∨
    ∃ s', sliceAppendDynamic heap s bytes = some (.returned s' true) ∧ s'.Holds (text ++ bytes) ∧
      s'.cap < 2 ^ 64 ∧ s'.dynamic = s.dynamic := by
  rw [List.length_append, h.length_eq] at hbytes
  have hsum : sizeAdd s.len bytes.length = s.len + bytes.length := sizeAdd_eq (by omega)
  rw [sliceAppendDynamic, hsum]
  by_cases hfull : s.cap < s.len + bytes.length
  · -- The loop starts from 16, or from a doubled capacity: no byte of the text is lost.
    have hfirst : ∃ first, (if s.cap = 0 then 16 else 2 * s.cap % 2 ^ 64) = first ∧ 0 < first ∧
        s.cap ≤ first ∧ first < 2 ^ 64 := by
      by_cases hzero : s.cap = 0
      · rw [if_pos hzero]
        exact ⟨16, rfl, by omega, by omega, by omega⟩
      · rw [if_neg hzero]
        exact ⟨_, rfl, by omega, by omega, by omega⟩
    obtain ⟨first, heq, hpos, hge, hlt⟩ := hfirst
    have hfuel : s.len + bytes.length ≤ first * 2 ^ 64 := by omega
    obtain ⟨cap, hgrow, hneed, hle, hbound⟩ := growCap_spec (by omega) hlt hfuel
    simp only [if_pos hfull, heq, hgrow, Option.bind_eq_bind, Option.bind_some]
    cases hdata : xreallocBytes heap s.data cap with
    | none => exact Or.inl ⟨rfl, cap, Option.map_eq_none_iff.mp hdata⟩
    | some data =>
      obtain ⟨s', happend, hholds, hcap', hdyn⟩ :=
        (h.xrealloc (hge.trans hle) hdata).appendBytes hneed hbound
      exact Or.inr ⟨s', happend, hholds, hcap'.trans_lt hbound, hdyn⟩
  · obtain ⟨s', happend, hholds, hcap', hdyn⟩ := h.appendBytes (not_lt.mp hfull) hcap
    rw [if_neg hfull]
    exact Or.inr ⟨s', happend, hholds, hcap'.trans_lt hcap, hdyn⟩

/-- The bytes of a dynamic slice are those of all calls, unless the process has ended. -/
theorem sliceAppends_dynamic (heap : SliceHeap) (calls : List (List UInt8)) {s : Slice}
    {text : List UInt8} (hdyn : s.dynamic = true) (h : s.Holds text) (hcap : s.cap < 2 ^ 64)
    (hbytes : (text ++ calls.flatten).length < 2 ^ 63) :
    (sliceAppends heap s calls = some .exited ∧ ∃ n, heap n = none) ∨
    ∃ s', sliceAppends heap s calls = some (.returned s' (calls.map fun _ => true)) ∧
      s'.Holds (text ++ calls.flatten) := by
  induction calls generalizing s text with
  | nil =>
    rw [List.flatten_nil, List.append_nil]
    exact Or.inr ⟨s, rfl, h⟩
  | cons bytes calls ih =>
    rw [List.flatten_cons, ← List.append_assoc] at hbytes ⊢
    have hcall : (text ++ bytes).length < 2 ^ 63 := by
      rw [List.length_append] at hbytes
      omega
    rw [sliceAppends, sliceAppend, if_pos hdyn]
    rcases sliceAppendDynamic_spec heap h hcap hcall with
      ⟨hexit, hnone⟩ | ⟨s', happend, hholds, hcap', hdyn'⟩
    · rw [hexit]
      exact Or.inl ⟨rfl, hnone⟩
    · rw [happend]
      rcases ih (hdyn'.trans hdyn) hholds hcap' hbytes with ⟨hexit, hnone⟩ | ⟨s'', hrun, hend⟩
      · simp only [hexit, Option.bind_eq_bind, Option.bind_some]
        exact Or.inl ⟨trivial, hnone⟩
      · simp only [hrun, Option.bind_eq_bind, Option.bind_some]
        exact Or.inr ⟨s'', rfl, hend⟩

theorem sliceAppends_static (heap : SliceHeap) (calls : List (List UInt8)) {s : Slice}
    {text : List UInt8} (hdyn : s.dynamic = false) (h : s.Holds text) (hcap : s.cap < 2 ^ 63)
    (hcalls : ∀ bytes ∈ calls, bytes.length < 2 ^ 63) :
    ∃ s' results, sliceAppends heap s calls = some (.returned s' results) ∧
      s'.Holds (text ++ (succeeded calls results).flatten) ∧ s'.cap = s.cap ∧
      s'.dynamic = false := by
  induction calls generalizing s text with
  | nil => exact ⟨s, [], rfl, by rwa [succeeded, List.zip_nil_left, List.filter_nil, List.map_nil,
      List.flatten_nil, List.append_nil], rfl, hdyn⟩
  | cons bytes calls ih =>
    have hspec := sliceAppendStatic_spec h hcap (hcalls bytes List.mem_cons_self)
    have htail : ∀ bytes ∈ calls, bytes.length < 2 ^ 63 := fun b hb =>
      hcalls b (List.mem_cons_of_mem bytes hb)
    rw [sliceAppends, sliceAppend, hdyn, if_neg Bool.false_ne_true]
    by_cases hroom : s.len + bytes.length ≤ s.cap
    · obtain ⟨s', happend, hholds, hcap', hdyn'⟩ := hspec.1 hroom
      obtain ⟨s'', results, hrun, hend, hcap'', hdyn''⟩ :=
        ih (hdyn'.trans hdyn) hholds (hcap'.trans_lt hcap) htail
      simp only [happend, hrun, Option.bind_eq_bind, Option.bind_some]
      refine ⟨s'', true :: results, rfl, ?_, hcap''.trans hcap', hdyn''⟩
      rwa [List.append_assoc, ← List.flatten_cons] at hend
    · -- The call fails, and the next one finds the same slice.
      have hfull := hspec.2 (not_le.mp hroom)
      obtain ⟨s'', results, hrun, hend, hcap'', hdyn''⟩ := ih hdyn h hcap htail
      simp only [hfull, hrun, Option.bind_eq_bind, Option.bind_some]
      exact ⟨s'', false :: results, rfl, hend, hcap'', hdyn''⟩

/-- The first part is about dynamic slices, which end the process where the allocator has
nothing left. The second one is about static slices, and about one more call on them. -/
theorem slices_append_only (heap : SliceHeap) (calls : List (List UInt8)) :
    (calls.flatten.length < 2 ^ 63 →
      (sliceAppends heap dynamicSlice calls = some .exited ∧ ∃ n, heap n = none) ∨
      ∃ s, sliceAppends heap dynamicSlice calls = some (.returned s (calls.map fun _ => true)) ∧
        s.len ≤ s.cap ∧ s.data.take s.len = calls.flatten) ∧
    ∀ mem bytes : List UInt8, mem.length < 2 ^ 63 → (∀ b ∈ calls, b.length < 2 ^ 63) →
      bytes.length < 2 ^ 63 →
      ∃ s results, sliceAppends heap (staticSlice mem) calls = some (.returned s results) ∧
        s.cap = mem.length ∧ s.len ≤ s.cap ∧
        s.data.take s.len = (succeeded calls results).flatten ∧
        (s.len + bytes.length ≤ mem.length →
          ∃ s', sliceAppend heap s bytes = some (.returned s' true) ∧ s'.cap = s.cap ∧
            s'.len = s.len + bytes.length ∧
            s'.data.take s'.len = s.data.take s.len ++ bytes) ∧
        (mem.length < s.len + bytes.length →
          sliceAppend heap s bytes = some (.returned s false)) := by
  constructor
  · intro hbytes
    rcases sliceAppends_dynamic heap calls rfl Slice.dynamicSlice_holds (by norm_num [dynamicSlice])
      hbytes with hexit | ⟨s, hrun, hholds⟩
    · exact Or.inl hexit
    · exact Or.inr ⟨s, hrun, hholds.fits, hholds.text⟩
  · intro mem bytes hmem hcalls hbytes
    obtain ⟨s, results, hrun, hholds, hcap, hdyn⟩ :=
      sliceAppends_static heap calls rfl (Slice.staticSlice_holds mem) hmem hcalls
    have hcap' : s.cap = mem.length := hcap
    -- a static slice takes the bytes that fit and refuses the others
    obtain ⟨hroom, hfull⟩ := sliceAppendStatic_spec hholds (hcap'.trans_lt hmem) hbytes
    refine ⟨s, results, hrun, hcap, hholds.fits, hholds.text, ?_, ?_⟩
    · intro hle
      obtain ⟨s', happend, hholds', hcap'', -⟩ := hroom (hle.trans_eq hcap'.symm)
      have hlen : s'.len = s.len + bytes.length := by
        rw [← hholds'.length_eq, List.length_append, hholds.length_eq]
      rw [sliceAppend, hdyn, if_neg Bool.false_ne_true]
      exact ⟨s', happend, hcap'', hlen, by rw [hholds'.text, hholds.text]⟩
    · intro hlt
      rw [sliceAppend, hdyn, if_neg Bool.false_ne_true]
      exact hfull (hcap'.trans_lt hlt)

def zeroedHeap : SliceHeap := fun n => some (Vector.replicate n 0)

theorem slices_append_only_zeroed :
    (∃ s, sliceAppends zeroedHeap dynamicSlice [[1, 2], [3]] = some (.returned s [true, true]) ∧
      s.len ≤ s.cap ∧ s.data.take s.len = [1, 2, 3]) ∧
    ∃ s results, sliceAppends zeroedHeap (staticSlice [0, 0]) [[1, 2], [3]] =
        some (.returned s results) ∧
      s.data.take s.len = (succeeded [[1, 2], [3]] results).flatten := by
  have h := slices_append_only zeroedHeap [[1, 2], [3]]
  constructor
  · apply (h.1 (by norm_num)).resolve_left
    intro hexit
    exact absurd hexit.2.choose_spec (Option.some_ne_none _)
  · obtain ⟨s, results, hrun, -, -, htext, -⟩ :=
      h.2 [0, 0] [] (by norm_num) (by decide) (by norm_num)
    exact ⟨s, results, hrun, htext⟩

end Parcel
