import Parcel.KeyExchange
import Parcel.Segmentation

/-!
# The receive loop

The loop of `xrecvall` with its calls of `recv` counted, so that it can fail to end:
a `0` leaves the counter where it is, and a peer that has closed answers every later
call with `0` again. Then what the loop means for the functions above it, and the
cables that `recv_cable` takes off a stream.
-/

namespace Parcel
open ByteStrings

/-- The loop of `xrecvall` with `n` bytes to go, if it returns within a number of
calls of `recv`. -/
def xrecvallWithin : ℕ → Sock → ℕ → Option (Bool × List UInt8 × Sock)
  | _, s, 0 => some (true, [], s)
  | 0, _, _ + 1 => none
  | calls + 1, s, n + 1 =>
    match xrecv s (n + 1) with
    | .failed => some (false, [], s)
    | .blocks => none
    -- the counter moves by the result of `recv`, here `0`
    | .closed => xrecvallWithin calls s (n + 1)
    | .bytes got rest =>
      (xrecvallWithin calls rest (n + 1 - got.length)).map fun (ok, more, s') =>
        (ok, got ++ more, s')

/-- The function returns, and reports whether all bytes arrived. -/
def Returns (s : Sock) (n : ℕ) : Prop :=
  ∃ calls ok got s', xrecvallWithin calls s n = some (ok, got, s') ∧
    (ok = true ↔ n ≤ s.stream.length)

/-- The bytes arrive, or the stream ends with an error. -/
def Completes (s : Sock) (n : ℕ) : Prop := n ≤ s.stream.length ∨ s.ending = .failed

instance (s : Sock) (n : ℕ) : Decidable (Completes s n) := inferInstanceAs (Decidable (_ ∨ _))

section

variable {s : Sock} {n : ℕ}

theorem xrecv_bytes (hs : s.stream ≠ []) :
    xrecv s n = .bytes (s.stream.take (s.portion n)) (s.advance (s.portion n)) := by
  rw [xrecv, if_neg hs]

theorem portion_bounds (hs : s.stream ≠ []) :
    0 < s.portion (n + 1) ∧ s.portion (n + 1) ≤ n + 1 ∧ s.portion (n + 1) ≤ s.stream.length := by
  have hpos := Sock.portion_pos hs (Nat.succ_pos n)
  unfold Sock.portion at hpos ⊢
  omega

theorem xrecvallWithin_bytes (calls : ℕ) (hs : s.stream ≠ []) :
    xrecvallWithin (calls + 1) s (n + 1) =
      (xrecvallWithin calls (s.advance (s.portion (n + 1))) (n + 1 - s.portion (n + 1))).map
        fun r => (r.1, s.stream.take (s.portion (n + 1)) ++ r.2.1, r.2.2) := by
  have hlen : (s.stream.take (s.portion (n + 1))).length = s.portion (n + 1) := by
    rw [List.length_take, Nat.min_eq_left (portion_bounds hs).2.2]
  rw [xrecvallWithin, xrecv_bytes hs]
  simp only [hlen]

theorem xrecvallWithin_failed (calls : ℕ) (hs : s.stream = []) (hend : s.ending = .failed) :
    xrecvallWithin (calls + 1) s (n + 1) = some (false, [], s) := by
  rw [xrecvallWithin, xrecv, if_pos hs, hend]

theorem xrecvallWithin_closed (calls : ℕ) (hs : s.stream = []) (hend : s.ending = .closed) :
    xrecvallWithin calls s (n + 1) = none := by
  induction calls with
  | zero => rfl
  | succ calls ih => rw [xrecvallWithin, xrecv, if_pos hs, hend, ih]

end

theorem xrecvallWithin_eq (s : Sock) {n calls : ℕ} (h : n ≤ s.stream.length) (hcalls : n ≤ calls) :
    xrecvallWithin calls s n = some (true, s.stream.take n, s.advance n) := by
  induction calls generalizing s n with
  | zero =>
    obtain rfl : n = 0 := by omega
    simp [xrecvallWithin, Sock.advance]
  | succ calls ih =>
    cases n with
    | zero => simp [xrecvallWithin, Sock.advance]
    | succ n =>
      have hs : s.stream ≠ [] := List.ne_nil_of_length_pos (by omega)
      obtain ⟨hpos, hle, -⟩ := portion_bounds (n := n) hs
      have hrest : n + 1 - s.portion (n + 1) ≤ (s.advance (s.portion (n + 1))).stream.length := by
        rw [Sock.advance, List.length_drop]
        omega
      rw [xrecvallWithin_bytes calls hs, ih _ hrest (by omega), Option.map_some]
      simp only [Sock.advance, List.drop_drop, ← List.take_add, Nat.add_sub_cancel' hle,
        Nat.add_assoc]

theorem xrecvallWithin_error (s : Sock) {n calls : ℕ} (h : s.stream.length < n) (hcalls : n ≤ calls)
    (hend : s.ending = .failed) :
    xrecvallWithin calls s n = some (false, s.stream, s.advance s.stream.length) := by
  induction calls generalizing s n with
  | zero => omega
  | succ calls ih =>
    obtain ⟨n, rfl⟩ : ∃ k, n = k + 1 := ⟨n - 1, by omega⟩
    by_cases hs : s.stream = []
    · rw [xrecvallWithin_failed calls hs hend, hs]
      simp [Sock.advance]
    · obtain ⟨hpos, hle, hlen⟩ := portion_bounds (n := n) hs
      have hlength : (s.advance (s.portion (n + 1))).stream.length =
          s.stream.length - s.portion (n + 1) := by
        rw [Sock.advance, List.length_drop]
      rw [xrecvallWithin_bytes calls hs, ih (s.advance (s.portion (n + 1))) (by omega) (by omega)
        hend, Option.map_some, hlength]
      simp only [Sock.advance, List.take_append_drop, List.drop_drop, Nat.add_assoc,
        Nat.add_sub_cancel' hlen]

/-- With fewer bytes and the end of the stream, the loop does not end. -/
theorem xrecvallWithin_eof (s : Sock) {n : ℕ} (h : s.stream.length < n) (calls : ℕ)
    (hend : s.ending = .closed) : xrecvallWithin calls s n = none := by
  induction calls generalizing s n with
  | zero =>
    obtain ⟨n, rfl⟩ : ∃ k, n = k + 1 := ⟨n - 1, by omega⟩
    rfl
  | succ calls ih =>
    obtain ⟨n, rfl⟩ : ∃ k, n = k + 1 := ⟨n - 1, by omega⟩
    by_cases hs : s.stream = []
    · exact xrecvallWithin_closed (calls + 1) hs hend
    · obtain ⟨hpos, hle, hlen⟩ := portion_bounds (n := n) hs
      have hless : (s.advance (s.portion (n + 1))).stream.length < n + 1 - s.portion (n + 1) := by
        rw [Sock.advance, List.length_drop]
        omega
      rw [xrecvallWithin_bytes calls hs, ih _ hless hend, Option.map_none]

theorem xrecvallWithin_eq_xrecvall (s : Sock) {n calls : ℕ} (h : n ≤ calls) :
    xrecvallWithin calls s n = xrecvall s n := by
  induction calls generalizing s n with
  | zero =>
    obtain rfl : n = 0 := by omega
    rw [xrecvallWithin, xrecvall, dif_pos rfl]
  | succ calls ih =>
    cases n with
    | zero => rw [xrecvallWithin, xrecvall, dif_pos rfl]
    | succ n =>
      by_cases hs : s.stream = []
      · cases hend : s.ending with
        | blocks =>
          rw [xrecvall_blocks s _ (by rw [hs]; exact Nat.succ_pos n) hend, xrecvallWithin, xrecv,
            if_pos hs, hend]
        | closed =>
          rw [xrecvallWithin_closed _ hs hend, xrecvall, dif_neg (Nat.succ_ne_zero n)]
          split <;> rename_i hcase <;> simp [xrecv, hs, hend] at hcase ⊢
        | failed =>
          rw [xrecvallWithin_failed _ hs hend, xrecvall, dif_neg (Nat.succ_ne_zero n)]
          split <;> rename_i hcase <;> simp [xrecv, hs, hend] at hcase ⊢
      · have hpos := (portion_bounds (n := n) hs).1
        rw [xrecvallWithin_bytes calls hs, xrecvall_step (Nat.succ_ne_zero n) hs,
          ih _ (by omega)]

theorem xrecvallWithin_of_completes {s : Sock} {n calls : ℕ} (h : Completes s n)
    (hcalls : n ≤ calls) : ∃ ok got s', xrecvallWithin calls s n = some (ok, got, s') ∧
      (ok = true ↔ n ≤ s.stream.length) := by
  by_cases hn : n ≤ s.stream.length
  · exact ⟨true, _, _, xrecvallWithin_eq s hn hcalls, iff_of_true rfl hn⟩
  · have hend : s.ending = .failed := h.resolve_left hn
    exact ⟨false, _, _, xrecvallWithin_error s (not_le.mp hn) hcalls hend,
      iff_of_false Bool.false_ne_true hn⟩

theorem xrecvallWithin_of_not_completes {s : Sock} {n : ℕ} (hopen : s.ending ≠ .blocks)
    (h : ¬Completes s n) (calls : ℕ) : xrecvallWithin calls s n = none := by
  obtain ⟨hn, hfailed⟩ := not_or.mp h
  apply xrecvallWithin_eof s (not_le.mp hn) calls
  cases hend : s.ending with
  | blocks => exact absurd hend hopen
  | closed => rfl
  | failed => exact absurd hend hfailed

/-- The loop returns, with the right result, exactly when the bytes arrive or the
stream ends with an error. -/
theorem returns_iff {s : Sock} (hopen : s.ending ≠ .blocks) (n : ℕ) :
    Returns s n ↔ Completes s n := by
  constructor
  · rintro ⟨calls, ok, got, s', hsome, -⟩
    by_contra h
    rw [xrecvallWithin_of_not_completes hopen h] at hsome
    cases hsome
  · intro h
    exact ⟨n, xrecvallWithin_of_completes h le_rfl⟩

/-- The loop without a count has a value when it returns. -/
theorem xrecvall_isSome_iff {s : Sock} (hopen : s.ending ≠ .blocks) (n : ℕ) :
    (xrecvall s n).isSome = true ↔ Completes s n := by
  rw [← xrecvallWithin_eq_xrecvall s le_rfl]
  by_cases h : Completes s n
  · obtain ⟨ok, got, s', hsome, -⟩ := xrecvallWithin_of_completes h le_rfl
    rw [hsome]
    exact iff_of_true rfl h
  · rw [xrecvallWithin_of_not_completes hopen h]
    exact iff_of_false Bool.false_ne_true h

/-- The function `ke_rcv` on a socket. -/
def keRcvOn (s : Sock) (type : KeyType) : Option (Option Key × Sock) :=
  (xrecvall s keSize).map fun (ok, mem, s) => (if ok then keParse type mem else none, s)

/-- The header arrives and, if it is accepted, so does the rest; or there is an error. -/
def CableCompletes (s : Sock) : Prop :=
  let cable := Cable.ofHeader (s.stream.take cableSize)
  Completes s cableSize ∧
    (cableSize ≤ s.stream.length → cableCheckSignature cable = true →
      Completes (s.advance cableSize) (cableGetPayloadLen cable))

theorem cableRecvRemaining_isSome_iff {s : Sock} (hopen : s.ending ≠ .blocks) (cable : Cable) :
    (cableRecvRemaining s cable).isSome = true ↔ Completes s (cableGetPayloadLen cable) := by
  rw [cableRecvRemaining, Option.isSome_map]
  exact xrecvall_isSome_iff hopen _

theorem cableRecvData_isSome_iff {s : Sock} (hopen : s.ending ≠ .blocks) (cable : Cable) :
    (cableRecvData s cable).isSome = true ↔
      (cableCheckSignature cable = true → Completes s (cableGetPayloadLen cable)) := by
  rw [cableRecvData]
  cases hsig : cableCheckSignature cable with
  | false => simp
  | true =>
    rw [Bool.not_true, if_neg Bool.false_ne_true, Option.isSome_map,
      cableRecvRemaining_isSome_iff hopen]
    simp

theorem recvCable_isSome_iff {s : Sock} (hopen : s.ending ≠ .blocks) :
    (recvCable s).isSome = true ↔ CableCompletes s := by
  unfold CableCompletes
  by_cases hlen : cableSize ≤ s.stream.length
  · have hrecv : recvCable s =
        cableRecvData (s.advance cableSize) (Cable.ofHeader (s.stream.take cableSize)) := by
      rw [recvCable, xrecvall_eq s cableSize hlen]
      rfl
    rw [hrecv, cableRecvData_isSome_iff (s := s.advance cableSize) hopen]
    simp [hlen, Completes]
  · have hiff : (recvCable s).isSome = true ↔ Completes s cableSize := by
      rw [recvCable, ← xrecvallWithin_eq_xrecvall s le_rfl]
      by_cases h : Completes s cableSize
      · rw [xrecvallWithin_error s (not_le.mp hlen) le_rfl (h.resolve_left hlen)]
        exact iff_of_true rfl h
      · rw [xrecvallWithin_of_not_completes hopen h]
        exact iff_of_false Bool.false_ne_true h
    rw [hiff]
    simp [hlen]

/-- The receive functions return exactly when what they wait for arrives or the stream
ends with an error; when the peer has closed before, they do not. -/
theorem receive_returns_iff (s : Sock) (hopen : s.ending ≠ .blocks) :
    (∀ n, Returns s n ↔ Completes s n) ∧
      (∀ type, (keRcvOn s type).isSome = true ↔ Completes s keSize) ∧
      (∀ cable, (cableRecvData s cable).isSome = true ↔
        (cableCheckSignature cable = true → Completes s (cableGetPayloadLen cable))) ∧
      ((recvCable s).isSome = true ↔ CableCompletes s) := by
  refine ⟨returns_iff hopen, ?_, cableRecvData_isSome_iff hopen, recvCable_isSome_iff hopen⟩
  intro type
  rw [keRcvOn, Option.isSome_map]
  exact xrecvall_isSome_iff hopen keSize

/-- A peer that closes or fails after the first three bytes of a header. -/
def threeBytes (ending : StreamEnd) : Sock := ⟨[0x70, 0x61, 0x72], 0, fun _ => 1, ending⟩

/-- The connection fails: `xrecvall` reports it. -/
theorem receive_returns_failed :
    (threeBytes .failed).ending ≠ .blocks ∧ Returns (threeBytes .failed) 14 :=
  have hopen : (threeBytes .failed).ending ≠ .blocks := by decide
  ⟨hopen, ((receive_returns_iff _ hopen).1 14).mpr (by decide)⟩

/-- The peer closes: neither `xrecvall` nor `recv_cable` returns. -/
theorem closed_mid_header :
    (threeBytes .closed).ending = .closed ∧ ¬Returns (threeBytes .closed) 14 ∧
      recvCable (threeBytes .closed) = none := by
  have hopen : (threeBytes .closed).ending ≠ .blocks := by decide
  refine ⟨rfl, ?_, ?_⟩
  · rw [returns_iff hopen]
    decide
  · rw [← Option.not_isSome_iff_eq_none, recvCable_isSome_iff hopen]
    rintro ⟨h, -⟩
    exact absurd h (by decide)

def cableStream (wires : List (List UInt8)) : List UInt8 :=
  wires.flatMap fun wire => (initCable wire).bytes

/-- The cables that successive calls of `recv_cable` return, each with the socket after
the call. -/
def recvCables : ℕ → Sock → Option (List (Cable × Sock))
  | 0, _ => some []
  | calls + 1, s =>
    match recvCable s with
    | some (some cable, s') => (recvCables calls s').map ((cable, s') :: ·)
    | _ => none

theorem cableStream_cons (wire : List UInt8) (wires : List (List UInt8)) :
    cableStream (wire :: wires) = (initCable wire).bytes ++ cableStream wires :=
  List.flatMap_cons ..

theorem advance_advance (s : Sock) (a b : ℕ) : (s.advance a).advance b = s.advance (a + b) := by
  simp only [Sock.advance, List.drop_drop, Nat.add_assoc]

/-- Successive calls take the cables off the front of a stream, whatever follows them. -/
theorem recvCables_eq {wires : List (List UInt8)} (hfit : ∀ wire ∈ wires, wire.length < 2 ^ 64 - 14)
    {s : Sock} {rest : List UInt8} (hs : s.stream = cableStream wires ++ rest) :
    recvCables wires.length s = some ((List.range wires.length).map fun k =>
      (initCable (wires.getD k []), s.advance (cableStream (wires.take (k + 1))).length)) := by
  induction wires generalizing s with
  | nil => rfl
  | cons wire wires ih =>
    have hwire : 14 + wire.length < 2 ^ 64 := by
      have := hfit wire List.mem_cons_self
      omega
    rw [cableStream_cons, List.append_assoc] at hs
    have hlen : (initCable wire).bytes.length = 14 + wire.length := Cable.bytes_length _
    have hnext : (s.advance (14 + wire.length)).stream = cableStream wires ++ rest := by
      rw [Sock.advance, hs, ← hlen, List.drop_left]
    rw [List.length_cons, recvCables, recvCable_eq hwire hs]
    dsimp only
    rw [ih (fun w hw => hfit w (List.mem_cons_of_mem _ hw)) hnext, Option.map_some,
      List.range_succ_eq_map, List.map_cons, List.map_map]
    simp [hlen, advance_advance, cableStream]

/-- The calls of `recv_cable` on the cables of some wires, however `recv` splits them:
call `k` returns the cable of wire `k`, and the calls up to it have consumed the cables
up to that one. -/
theorem recv_cable_decodes_stream (wires : List (List UInt8))
    (hfit : ∀ wire ∈ wires, wire.length < 2 ^ 64 - 14) (s : Sock) (rest : List UInt8)
    (hs : s.stream = cableStream wires ++ rest) :
    ∃ calls, recvCables wires.length s = some calls ∧ calls.length = wires.length ∧
      ∀ k wire, wires[k]? = some wire → ∃ cable,
        calls[k]? = some (cable, s.advance (cableStream (wires.take (k + 1))).length) ∧
          getCabledWire cable = (wire.length, wire) := by
  refine ⟨_, recvCables_eq hfit hs, ?_, ?_⟩
  · rw [List.length_map, List.length_range]
  · intro k wire hk
    obtain ⟨hlt, rfl⟩ := List.getElem?_eq_some_iff.mp hk
    have hwire : 14 + wires[k].length < 2 ^ 64 := by
      have := hfit wires[k] (List.getElem_mem hlt)
      omega
    refine ⟨initCable wires[k], ?_, getCabledWire_initCable hwire⟩
    rw [List.getElem?_map, List.getElem?_range hlt, Option.map_some, List.getD_eq_getElem _ _ hlt]

/-- A wire of one byte and one of two, byte by byte. -/
theorem recv_cable_decodes_two :
    (∀ wire ∈ ([[1], [2, 3]] : List (List UInt8)), wire.length < 2 ^ 64 - 14) ∧
      ∃ calls, recvCables 2 ⟨cableStream [[1], [2, 3]], 0, fun _ => 1, .blocks⟩ = some calls ∧
        ∃ cable, calls[1]? = some (cable,
            (⟨[], 31, fun _ => 1, .blocks⟩ : Sock)) ∧ getCabledWire cable = (2, [2, 3]) := by
  have hfit : ∀ wire ∈ ([[1], [2, 3]] : List (List UInt8)), wire.length < 2 ^ 64 - 14 := by decide
  obtain ⟨calls, hcalls, -, hdecoded⟩ := recv_cable_decodes_stream [[1], [2, 3]] hfit
    ⟨cableStream [[1], [2, 3]], 0, fun _ => 1, .blocks⟩ [] (List.append_nil _).symm
  exact ⟨hfit, calls, hcalls, hdecoded 1 [2, 3] rfl⟩

end Parcel
