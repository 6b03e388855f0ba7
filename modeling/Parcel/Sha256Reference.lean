import Parcel.Sha256
import Parcel.Fips180

/-!
# The digest is the one of FIPS 180-4

The compression loop keeps its variables in place and moves their names, so a
turn is the standard's round read through the indices, and after sixty-four
turns every name is back at its place. `sha256_append` keeps the blocks that are
complete hashed and the rest in `data`, however the message is cut, and
`sha256_finish` completes the rest to one block or to two.
-/

namespace Parcel.Sha256

open Fips180 (Vars hashBlock hashBlocks)

attribute [local instance] Fips180.neZero_eight

theorem shr_eq (x : UInt32) (n : ℕ) (h32 : n < 32) : shr x (UInt32.ofNat n) = Fips180.shr n x := by
  apply UInt32.toBitVec_inj.mp
  simp [shr, Fips180.shr, UInt32.toBitVec_shiftRight, Nat.mod_eq_of_lt h32]

theorem shl_toBitVec (x : UInt32) (n : ℕ) (h0 : 0 < n) (h32 : n < 32) :
    (x <<< (0x20 - UInt32.ofNat n)).toBitVec = x.toBitVec <<< (32 - n) := by
  have hn : (0x20 - UInt32.ofNat n) = UInt32.ofNat (32 - n) := by
    apply UInt32.toNat_inj.mp
    rw [UInt32.toNat_sub_of_le]
    · simp
      omega
    · rw [UInt32.le_iff_toNat_le]
      simp
      omega
  have hm : (32 - n) % 32 = 32 - n := by omega
  rw [hn, UInt32.toBitVec_shiftLeft]
  simp [hm]

theorem rotr_eq (x : UInt32) (n : ℕ) (h0 : 0 < n) (h32 : n < 32) :
    rotr x (UInt32.ofNat n) = Fips180.rotr n x := by
  have hs := congrArg UInt32.toBitVec (shr_eq x n h32)
  rw [shr, Fips180.shr] at hs
  apply UInt32.toBitVec_inj.mp
  rw [rotr, UInt32.toBitVec_or, shl_toBitVec x n h0 h32, hs, Fips180.rotr, BitVec.rotateRight,
    Nat.mod_eq_of_lt h32, BitVec.rotateRightAux]

theorem sum0_eq (x : UInt32) : sum0 x = Fips180.bigSigma0 x := by
  rw [sum0, Fips180.bigSigma0, ← rotr_eq x 2 (by omega) (by omega),
    ← rotr_eq x 13 (by omega) (by omega), ← rotr_eq x 22 (by omega) (by omega)]
  rfl

theorem sum1_eq (x : UInt32) : sum1 x = Fips180.bigSigma1 x := by
  rw [sum1, Fips180.bigSigma1, ← rotr_eq x 6 (by omega) (by omega),
    ← rotr_eq x 11 (by omega) (by omega), ← rotr_eq x 25 (by omega) (by omega)]
  rfl

theorem sig0_eq (x : UInt32) : sig0 x = Fips180.smallSigma0 x := by
  rw [sig0, Fips180.smallSigma0, ← rotr_eq x 7 (by omega) (by omega),
    ← rotr_eq x 18 (by omega) (by omega), ← shr_eq x 3 (by omega)]
  rfl

theorem sig1_eq (x : UInt32) : sig1 x = Fips180.smallSigma1 x := by
  rw [sig1, Fips180.smallSigma1, ← rotr_eq x 17 (by omega) (by omega),
    ← rotr_eq x 19 (by omega) (by omega), ← shr_eq x 10 (by omega)]
  rfl

theorem k_eq_constants : k.toList = Fips180.constants := by decide +kernel

theorem init_eq_initialHash : sha256Init.state = Fips180.initialHash := by decide +kernel

theorem or_bytes (a b c d : UInt8) :
    a.toNat <<< 24 ||| b.toNat <<< 16 ||| c.toNat <<< 8 ||| d.toNat =
      a.toNat * 256 ^ 3 + b.toNat * 256 ^ 2 + c.toNat * 256 + d.toNat := by
  have byte (x : ℕ) (y : UInt8) : x <<< 8 ||| y.toNat = x * 256 + y.toNat := by
    rw [← Nat.shiftLeft_add_eq_or_of_lt (i := 8) y.toNat_lt, Nat.shiftLeft_eq]
  calc a.toNat <<< 24 ||| b.toNat <<< 16 ||| c.toNat <<< 8 ||| d.toNat
      = ((a.toNat <<< 8 ||| b.toNat) <<< 8 ||| c.toNat) <<< 8 ||| d.toNat := by
        simp only [Nat.shiftLeft_or_distrib, ← Nat.shiftLeft_add]
    _ = ((a.toNat * 256 + b.toNat) * 256 + c.toNat) * 256 + d.toNat := by
        rw [byte, byte, byte]
    _ = a.toNat * 256 ^ 3 + b.toNat * 256 ^ 2 + c.toNat * 256 + d.toNat := by ring

theorem messageWord_eq (data : List UInt8) (i : ℕ) :
    (data.getD (4 * i) 0).toUInt32 <<< 0x18 ||| (data.getD (4 * i + 1) 0).toUInt32 <<< 0x10 |||
      (data.getD (4 * i + 2) 0).toUInt32 <<< 0x08 ||| (data.getD (4 * i + 3) 0).toUInt32 <<< 0x00 =
      Fips180.messageWord data i := by
  unfold Fips180.messageWord
  generalize data.getD (4 * i) 0 = a
  generalize data.getD (4 * i + 1) 0 = b
  generalize data.getD (4 * i + 2) 0 = c
  generalize data.getD (4 * i + 3) 0 = d
  have inPlace (x : UInt8) (n : ℕ) (hn : n ≤ 24) : x.toNat <<< n % 2 ^ 32 = x.toNat <<< n := by
    apply Nat.mod_eq_of_lt
    rw [Nat.shiftLeft_eq]
    calc x.toNat * 2 ^ n < 2 ^ 8 * 2 ^ n := Nat.mul_lt_mul_of_pos_right x.toNat_lt (by positivity)
      _ = 2 ^ (8 + n) := (pow_add 2 8 n).symm
      _ ≤ 2 ^ 32 := Nat.pow_le_pow_right (by omega) (by omega)
  have hsum := or_bytes a b c d
  have ha := a.toNat_lt
  have hb := b.toNat_lt
  have hc := c.toNat_lt
  have hd := d.toNat_lt
  apply UInt32.toNat_inj.mp
  rw [UInt32.toNat_ofNat_of_lt' (by norm_num [UInt32.size]; omega), ← hsum]
  simp only [UInt32.toNat_or, UInt32.toNat_shiftLeft, UInt8.toNat_toUInt32]
  change a.toNat <<< 24 % 2 ^ 32 ||| b.toNat <<< 16 % 2 ^ 32 ||| c.toNat <<< 8 % 2 ^ 32 |||
    d.toNat <<< 0 % 2 ^ 32 = _
  rw [inPlace a 24 (by omega), inPlace b 16 (by omega), inPlace c 8 (by omega),
    inPlace d 0 (by omega), Nat.shiftLeft_zero]

theorem schedule_eq (data : Vector UInt8 64) :
    schedule data = (List.range 64).map (Fips180.schedule data.toList) := by
  have step (n : ℕ) : (List.range n).foldl (fun w i => w ++ [scheduleWord data w i]) [] =
      (List.range n).map (Fips180.schedule data.toList) := by
    induction n with
    | zero => rfl
    | succ n ih =>
      have hget (t : ℕ) (ht : t < n) :
          ((List.range n).map (Fips180.schedule data.toList)).getD t 0 =
          Fips180.schedule data.toList t := by
        simp [ht]
      rw [List.range_succ, List.foldl_append, ih, List.map_append, List.foldl_cons, List.foldl_nil,
        List.map_cons, List.map_nil, scheduleWord]
      by_cases h16 : n < 16
      · rw [if_pos h16, messageWord_eq, Fips180.schedule_message _ h16]
      · rw [if_neg h16, hget _ (by omega), hget _ (by omega), hget _ (by omega), hget _ (by omega),
          sig0_eq, sig1_eq, Fips180.schedule_recurrence _ h16]
        congr 2
        ac_rfl
  exact step 64

/-! ## The rotating indices -/

/-- The places of the eight names in turn `t`. -/
def places (t : Fin 8) : Vector (Fin 8) 8 :=
  #v[0 - t, 1 - t, 2 - t, 3 - t, 4 - t, 5 - t, 6 - t, 7 - t]

theorem places_succ (t : Fin 8) : (places t).map (· - 1) = places (t + 1) := by
  apply Vector.ext
  intro j hj
  rw [Vector.getElem_map, places, places]
  interval_cases j <;>
    simp only [Vector.getElem_mk, List.getElem_toArray, List.getElem_cons_zero,
      List.getElem_cons_succ, sub_sub]

/-- The working variables at the places of their names. -/
def named (s : State) (idx : Vector (Fin 8) 8) : Vars :=
  { a := s.get (idx.get 0), b := s.get (idx.get 1), c := s.get (idx.get 2), d := s.get (idx.get 3)
    e := s.get (idx.get 4), f := s.get (idx.get 5), g := s.get (idx.get 6), h := s.get (idx.get 7) }

theorem round_eq (v : Vars) (k w : UInt32) : Fips180.round v k w =
    let t1 := v.h + sum1 v.e + ch v.e v.f v.g + k + w
    { a := t1 + maj v.a v.b v.c + sum0 v.a, b := v.a, c := v.b, d := v.c, e := v.d + t1
      f := v.e, g := v.f, h := v.g } := by
  rw [Fips180.round, ← sum0_eq, ← sum1_eq, UInt32.add_comm (sum0 v.a), ← UInt32.add_assoc]
  rfl

theorem place_lt (i : Fin 8) : i.val < 8 := i.isLt

/-- The word at place `i` with `x` added to it. -/
def addAt (s : State) (i : Fin 8) (x : UInt32) : State := s.set i (s.get i + x) (place_lt i)

/-- The assignments of a turn, the indices already moved. -/
def compressAt (s : State) (idx : Vector (Fin 8) 8) (kw : UInt32 × UInt32) : State :=
  let s := addAt s (idx.get 7) (sum1 (s.get (idx.get 4)))
  let s := addAt s (idx.get 7)
    (ch (s.get (idx.get 4)) (s.get (idx.get 5)) (s.get (idx.get 6)))
  let s := addAt s (idx.get 7) kw.1
  let s := addAt s (idx.get 7) kw.2
  let s := addAt s (idx.get 3) (s.get (idx.get 7))
  let s := addAt s (idx.get 7)
    (maj (s.get (idx.get 0)) (s.get (idx.get 1)) (s.get (idx.get 2)))
  addAt s (idx.get 7) (sum0 (s.get (idx.get 0)))

theorem compress_places (s : State) (t : Fin 8) (kw : UInt32 × UInt32) :
    compress ⟨s, places t⟩ kw = ⟨compressAt s (places (t + 1)) kw, places (t + 1)⟩ := by
  rw [← places_succ]
  rfl

theorem named_compressAt (s : State) (t : Fin 8) (kw : UInt32 × UInt32) :
    named (compressAt s (places t) kw) (places (t + 1)) =
      Fips180.round (named s (places t)) kw.1 kw.2 := by
  rw [round_eq]
  obtain ⟨⟨l⟩, h⟩ := s
  match l, h with
  | [s0, s1, s2, s3, s4, s5, s6, s7], _ => fin_cases t <;> rfl

/-- The loop, from any turn: the variables after it are those of the standard's
rounds, and the names have moved by the number of turns. -/
theorem compress_loop (kws : List (UInt32 × UInt32)) (s : State) (t : Fin 8) :
    let out := kws.foldl compress ⟨s, places t⟩
    out.idx = places (t + Fin.ofNat 8 kws.length) ∧
      named out.s (places (t + Fin.ofNat 8 kws.length + 1)) =
        kws.foldl (fun v kw => Fips180.round v kw.1 kw.2) (named s (places (t + 1))) := by
  induction kws generalizing s t with
  | nil => exact ⟨by simp, by simp⟩
  | cons kw kws ih =>
    have hmove : t + 1 + Fin.ofNat 8 kws.length = t + Fin.ofNat 8 (kw :: kws).length := by
      apply Fin.ext
      simp only [Fin.val_add, Fin.val_ofNat, List.length_cons, Fin.val_one]
      omega
    have h := ih (compressAt s (places (t + 1)) kw) (t + 1)
    rw [hmove, named_compressAt] at h
    simp only [List.foldl_cons, compress_places]
    exact h

theorem zip_range_map {α β : Type*} (l : List α) (a : α) (f : ℕ → β) :
    l.zip ((List.range l.length).map f) = (List.range l.length).map fun t => (l.getD t a, f t) := by
  apply List.ext_getElem
  · simp
  · intro t h1 h2
    have ht : t < l.length := by simpa using h2
    simp [ht]

theorem zip_schedule (data : Vector UInt8 64) : k.toList.zip (schedule data) =
    (List.range 64).map fun t =>
      (Fips180.constants.getD t 0, Fips180.schedule data.toList t) := by
  have hlen : k.toList.length = 64 := by rw [Vector.length_toList]
  have h := zip_range_map k.toList 0 (Fips180.schedule data.toList)
  rw [hlen, ← schedule_eq, k_eq_constants] at h
  rw [k_eq_constants]
  exact h

theorem rounds_eq (state : State) (data : Vector UInt8 64) :
    Fips180.rounds (named state (places 0)) data.toList =
      named ((k.toList.zip (schedule data)).foldl compress ⟨state, places 7⟩).s (places 0) := by
  have hloop := (compress_loop (k.toList.zip (schedule data)) state 7).2
  have hcount : (k.toList.zip (schedule data)).length = 64 := by
    rw [zip_schedule, List.length_map, List.length_range]
  have hback : (7 : Fin 8) + Fin.ofNat 8 64 + 1 = 0 := by decide
  have hfirst : (7 : Fin 8) + 1 = 0 := by decide
  rw [hcount, hback, hfirst] at hloop
  rw [hloop, zip_schedule, List.foldl_map]
  unfold Fips180.rounds
  rfl

theorem sha256Hash_eq (state : State) (data : Vector UInt8 64) :
    sha256Hash state data = hashBlock state data.toList := by
  have hrounds := rounds_eq state data
  have hstart : places 7 = #v[1, 2, 3, 4, 5, 6, 7, 0] := by decide
  rw [hstart] at hrounds
  unfold sha256Hash
  dsimp only
  generalize ((k.toList.zip (schedule data)).foldl compress _).s = out at hrounds ⊢
  unfold hashBlock
  change _ = (let v := Fips180.rounds (named state (places 0)) data.toList
    #v[v.a + state[0], v.b + state[1], v.c + state[2], v.d + state[3], v.e + state[4],
      v.f + state[5], v.g + state[6], v.h + state[7]] : State)
  rw [hrounds]
  ext i hi
  simp only [Vector.getElem_ofFn]
  interval_cases i <;> exact congrArg _ (UInt32.add_comm _ _)

/-- What a context has taken in: the blocks hashed so far and the bytes that wait
in `data`. -/
structure Absorbed (ctx : Context) (full rest : List UInt8) : Prop where
  whole : full.length % 64 = 0
  short : rest.length < 64
  count : ctx.blockBytes = rest.length
  bytes : ctx.data.toList.take rest.length = rest
  hash : ctx.state = hashBlocks Fips180.initialHash full
  bits : ctx.bitsTotal = UInt64.ofNat (8 * full.length)

theorem absorbed_init : Absorbed sha256Init [] [] where
  whole := rfl
  short := by decide
  count := rfl
  bytes := rfl
  hash := init_eq_initialHash
  bits := rfl

theorem take_setIfInBounds (data : Vector UInt8 64) {n : ℕ} (hn : n < 64) (b : UInt8) :
    (data.setIfInBounds n b).toList.take (n + 1) = data.toList.take n ++ [b] := by
  have hlen : n < data.toList.length := by rw [Vector.length_toList]; exact hn
  have hset : (data.setIfInBounds n b).toList = data.toList.set n b := by simp
  rw [hset, List.set_eq_take_append_cons_drop, if_pos hlen, List.take_append,
    List.length_take, Nat.min_eq_left hlen.le, Nat.add_sub_cancel_left, List.take_take]
  simp

theorem appendByte_absorbed {ctx : Context} {full rest : List UInt8} (h : Absorbed ctx full rest)
    (b : UInt8) : ∃ full' rest', full' ++ rest' = full ++ rest ++ [b] ∧
      Absorbed (appendByte ctx b) full' rest' := by
  have hdata := take_setIfInBounds ctx.data (n := ctx.blockBytes) (by rw [h.count]; exact h.short) b
  rw [h.count, h.bytes] at hdata
  have hlen : (rest ++ [b]).length = rest.length + 1 := by simp
  by_cases hfull : rest.length + 1 = 64
  · -- the block is complete: it is hashed and counted
    have hblock : (ctx.data.setIfInBounds ctx.blockBytes b).toList = rest ++ [b] := by
      rw [← hdata, h.count, hfull, List.take_of_length_le (by simp)]
    have hbyte : appendByte ctx b = { ctx with
        data := ctx.data.setIfInBounds ctx.blockBytes b
        state := sha256Hash ctx.state (ctx.data.setIfInBounds ctx.blockBytes b)
        bitsTotal := ctx.bitsTotal + 512
        blockBytes := 0 } := by
      rw [appendByte, if_pos (by rw [h.count]; exact hfull)]
    refine ⟨full ++ (rest ++ [b]), [], by simp, ?_⟩
    rw [hbyte]
    have hwhole := h.whole
    exact {
      whole := by rw [List.length_append, hlen, hfull]; omega
      short := by decide
      count := rfl
      bytes := rfl
      hash := by
        rw [sha256Hash_eq, hblock, h.hash,
          Fips180.hashBlocks_append_block _ _ _ h.whole (hlen.trans hfull)]
      bits := by
        rw [h.bits, List.length_append, hlen, hfull, Nat.mul_add, UInt64.ofNat_add]
        rfl }
  -- the block stays short
  · have hbyte : appendByte ctx b = { ctx with
        data := ctx.data.setIfInBounds ctx.blockBytes b
        blockBytes := ctx.blockBytes + 1 } := by
      rw [appendByte, if_neg (by rw [h.count]; exact hfull)]
    have hshort := h.short
    refine ⟨full, rest ++ [b], by simp, ?_⟩
    rw [hbyte]
    exact {
      whole := h.whole
      short := by omega
      count := by rw [hlen, h.count]
      bytes := by rw [hlen, h.count, hdata]
      hash := h.hash
      bits := h.bits }

theorem sha256Append_absorbed (src : List UInt8) {ctx : Context} {full rest : List UInt8}
    (h : Absorbed ctx full rest) : ∃ full' rest', full' ++ rest' = full ++ rest ++ src ∧
      Absorbed (sha256Append ctx src) full' rest' := by
  induction src generalizing ctx full rest with
  | nil => exact ⟨full, rest, by simp, h⟩
  | cons b src ih =>
    obtain ⟨full₁, rest₁, heq₁, h₁⟩ := appendByte_absorbed h b
    obtain ⟨full₂, rest₂, heq₂, h₂⟩ := ih h₁
    exact ⟨full₂, rest₂, by rw [heq₂, heq₁]; simp, h₂⟩

/-- How a message is cut does not show in the context. -/
theorem sha256Append_pieces (pieces : List (List UInt8)) (ctx : Context) :
    pieces.foldl sha256Append ctx = sha256Append ctx pieces.flatten := by
  rw [sha256Append, List.foldl_flatten]
  rfl

/-! ## The last blocks -/

theorem zeroFill_take (data : Vector UInt8 64) (i n : ℕ) (h : i + n ≤ 64) :
    ((List.range' i n).foldl (fun d j => d.setIfInBounds j 0) data).toList.take (i + n) =
      data.toList.take i ++ List.replicate n 0 := by
  induction n with
  | zero => simp
  | succ n ih =>
    rw [List.range'_1_concat, List.foldl_append, List.foldl_cons, List.foldl_nil, ← Nat.add_assoc,
      take_setIfInBounds _ (by omega), ih (by omega), List.replicate_succ', List.append_assoc]

theorem padBlock_take (data : Vector UInt8 64) (block stop : ℕ) (h : block < stop)
    (h64 : stop ≤ 64) : (padBlock data block stop).toList.take stop =
      data.toList.take block ++ 0x80 :: List.replicate (stop - (block + 1)) 0 := by
  have hfill := zeroFill_take (data.setIfInBounds block 128) (block + 1) (stop - (block + 1))
    (by omega)
  rw [Nat.add_sub_cancel' (by omega), take_setIfInBounds _ (by omega)] at hfill
  rw [padBlock, hfill]
  simp

theorem writeLength_toList (data : Vector UInt8 64) (f : ℕ → UInt8) :
    ((List.range 8).foldl (fun d i => d.setIfInBounds (63 - i) (f i)) data).toList =
      data.toList.take 56 ++ (List.range 8).map fun i => f (7 - i) := by
  have hrange : List.range 8 = [0, 1, 2, 3, 4, 5, 6, 7] := rfl
  rw [hrange]
  apply List.ext_getElem
  · simp
  · intro n h1 h2
    have hn : n < 64 := by simpa using h1
    by_cases h56 : n < 56
    · rw [List.getElem_append_left (by simpa using h56)]
      simp only [List.foldl_cons, List.foldl_nil, Vector.getElem_toList,
        Vector.getElem_setIfInBounds, List.getElem_take]
      repeat' rw [if_neg (by omega)]
    · rw [List.getElem_append_right (by simpa using h56)]
      simp only [List.foldl_cons, List.foldl_nil, Vector.getElem_toList,
        Vector.getElem_setIfInBounds]
      interval_cases n <;> simp

theorem byte_eq (x : UInt64) (i : ℕ) (hi : i < 8) :
    (x >>> UInt64.ofNat (8 * i)).toUInt8 = UInt8.ofNat (x.toNat / 256 ^ i) := by
  have hshift : 8 * i % 2 ^ 64 % 64 = 8 * i := by omega
  apply UInt8.toNat_inj.mp
  rw [UInt64.toNat_toUInt8, UInt64.toNat_shiftRight, UInt64.toNat_ofNat', hshift,
    UInt8.toNat_ofNat', Nat.shiftRight_eq_div_pow, pow_mul]
  rfl

theorem digest_eq (state : State) :
    (Vector.ofFn fun n : Fin 32 =>
      (getElem state (n.val / 4) (Fips180.word_lt n) >>>
        UInt32.ofNat (24 - 8 * (n.val % 4))).toUInt8) =
      Fips180.digestBytes state := by
  rw [Fips180.digestBytes]
  ext n hn
  have hshift : (24 - 8 * (n % 4)) % 2 ^ 32 % 32 = 8 * (3 - n % 4) := by omega
  simp only [Vector.getElem_ofFn]
  rw [UInt32.toNat_toUInt8, UInt32.toNat_shiftRight, UInt32.toNat_ofNat', hshift,
    UInt8.toNat_ofNat', Nat.shiftRight_eq_div_pow, pow_mul]
  rfl

theorem lengthBlock_toList (data : Vector UInt8 64) (bitsTotal : UInt64) :
    ((List.range 8).foldl (fun d i =>
      d.setIfInBounds (63 - i) (bitsTotal >>> UInt64.ofNat (8 * i)).toUInt8) data).toList =
      data.toList.take 56 ++ Fips180.bigEndian64 bitsTotal.toNat := by
  rw [writeLength_toList data fun i => (bitsTotal >>> UInt64.ofNat (8 * i)).toUInt8,
    Fips180.bigEndian64]
  congr 1
  apply List.map_congr_left
  intro i _
  exact byte_eq bitsTotal (7 - i) (by omega)

/-- The bytes that wait, completed as the padding asks: one block when the count
fits behind them, else two. -/
theorem pad_blocks (full rest : List UInt8) (hfull : full.length % 64 = 0)
    (hrest : rest.length < 64) :
    let count := Fips180.bigEndian64 (8 * (full ++ rest).length)
    Fips180.pad (full ++ rest) =
      if rest.length < 56 then
        full ++ (rest ++ 0x80 :: List.replicate (56 - (rest.length + 1)) 0 ++ count)
      else
        full ++ (rest ++ 0x80 :: List.replicate (64 - (rest.length + 1)) 0) ++
          (List.replicate 56 0 ++ count) := by
  have hlen : (full ++ rest).length = full.length + rest.length := List.length_append
  dsimp only
  rw [Fips180.pad]
  generalize Fips180.bigEndian64 _ = count
  split
  · have hzeros : Fips180.zeroBytes (full ++ rest).length = 56 - (rest.length + 1) := by
      rw [hlen, Fips180.zeroBytes]
      omega
    rw [hzeros]
    simp
  · have hzeros : Fips180.zeroBytes (full ++ rest).length =
        64 - (rest.length + 1) + 56 := by
      rw [hlen, Fips180.zeroBytes]
      omega
    rw [hzeros, List.replicate_add]
    simp

theorem sha256Finish_absorbed {ctx : Context} {full rest : List UInt8} (h : Absorbed ctx full rest)
    (hlen : (full ++ rest).length < 2 ^ 61) :
    sha256Finish ctx = Fips180.sha256 (full ++ rest) := by
  have hshort := h.short
  have htotal : (full ++ rest).length = full.length + rest.length := List.length_append
  have hbits : (ctx.bitsTotal + 8 * UInt64.ofNat ctx.blockBytes).toNat =
      8 * (full ++ rest).length := by
    rw [h.bits, h.count, htotal]
    simp
    omega
  rw [Fips180.sha256, pad_blocks full rest h.whole hshort, sha256Finish]
  rw [h.count] at hbits ⊢
  rw [digest_eq]
  apply congrArg Fips180.digestBytes
  rw [sha256Hash_eq, lengthBlock_toList, hbits]
  -- the length goes into the same block, or into one more
  by_cases h56 : rest.length < 56
  · have hpad := padBlock_take ctx.data rest.length 56 h56 (by omega)
    rw [h.bytes] at hpad
    simp only [if_pos h56]
    rw [if_neg (by decide), if_neg (by decide), hpad, h.hash,
      Fips180.hashBlocks_append_block _ _ _ h.whole]
    simp
    omega
  · have hpad := padBlock_take ctx.data rest.length 64 hshort le_rfl
    rw [h.bytes, List.take_of_length_le (by simp)] at hpad
    simp only [if_neg h56, if_pos]
    have hzero : (Vector.replicate 64 (0 : UInt8)).toList.take 56 = List.replicate 56 0 := by simp
    rw [hzero, sha256Hash_eq, hpad, h.hash,
      Fips180.hashBlocks_append_block _ (full ++ _),
      Fips180.hashBlocks_append_block _ full _ h.whole]
    · simp
      omega
    · have hw := h.whole
      simp
      omega
    · simp

theorem sha256Finish_append {msg : List UInt8} (hlen : msg.length < 2 ^ 61) :
    sha256Finish (sha256Append sha256Init msg) = Fips180.sha256 msg := by
  obtain ⟨full, rest, heq, h⟩ := sha256Append_absorbed msg absorbed_init
  rw [List.append_nil, List.nil_append] at heq
  rw [sha256Finish_absorbed h (by rw [heq]; exact hlen), heq]

/-- For every message below `2 ^ 61` bytes and every way of cutting it into
pieces, the calls write the standard's digest. -/
theorem sha256_is_fips180 (pieces : List (List UInt8)) (hlen : pieces.flatten.length < 2 ^ 61) :
    sha256Finish (pieces.foldl sha256Append sha256Init) = Fips180.sha256 pieces.flatten := by
  rw [sha256Append_pieces, sha256Finish_append hlen]

theorem sha256_is_fips180_abc : ([[0x61], [], [0x62, 0x63]] : List (List UInt8)).flatten.length <
      2 ^ 61 ∧
    sha256Finish ([[0x61], [], [0x62, 0x63]].foldl sha256Append sha256Init) =
      Fips180.sha256 [0x61, 0x62, 0x63] :=
  ⟨by decide, sha256_is_fips180 [[0x61], [], [0x62, 0x63]] (by decide)⟩

end Parcel.Sha256

namespace Parcel

theorem sha256KeyDigest_eq (key : Vector UInt8 32) :
    sha256KeyDigest key = Fips180.sha256 key.toList := by
  rw [sha256KeyDigest, Sha256.sha256Finish_append]
  rw [Vector.length_toList]
  decide

end Parcel
