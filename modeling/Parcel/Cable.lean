import Parcel.WireUtil

/-!
# Cables

The framing layer of `cable.c` and the socket calls below it. A socket is the
byte stream that is still to be received, a bound on what a single `recv` issued
at each stream offset returns, and what happens once the stream is exhausted.
A call that never returns has no value.
-/

namespace Parcel
open ByteStrings

/-- The struct `cable_t`; `data` is the region from `cable->data` on. -/
structure Cable where
  signature : Vector UInt8 6
  len : Vector UInt8 8
  data : List UInt8
  deriving DecidableEq

/-- The size of `cable_header_t`, and of `cable_t` without data. -/
def cableSize : ℕ := 14

def Cable.header (cable : Cable) : List UInt8 := cable.signature.toList ++ cable.len.toList

def Cable.bytes (cable : Cable) : List UInt8 := cable.header ++ cable.data

/-- The six bytes `parcel`. -/
def cableSignature : Vector UInt8 6 := #v[0x70, 0x61, 0x72, 0x63, 0x65, 0x6c]

def cableGetTotalLen (cable : Cable) : ℕ := wirePack64 cable.len

def cableGetPayloadLen (cable : Cable) : ℕ := sizeSub (cableGetTotalLen cable) cableSize

def cableCheckSignature (cable : Cable) : Bool := decide (cable.signature = cableSignature)

/-- The function `init_cable` on the `*len` bytes of a wire. -/
def initCable (wire : List UInt8) : Cable :=
  ⟨cableSignature, wireUnpack64 (sizeAdd cableSize wire.length), wire⟩

/-- The function `get_cabled_wire`: the reported length and the region of the wire. -/
def getCabledWire (cable : Cable) : ℕ × List UInt8 := (cableGetPayloadLen cable, cable.data)

@[simp] theorem Cable.header_length (cable : Cable) : cable.header.length = 14 := by
  simp [Cable.header]

@[simp] theorem initCable_checkSignature (wire : List UInt8) :
    cableCheckSignature (initCable wire) = true := by
  simp [cableCheckSignature, initCable]

theorem initCable_totalLen {wire : List UInt8} (h : 14 + wire.length < 2 ^ 64) :
    cableGetTotalLen (initCable wire) = 14 + wire.length := by
  rw [cableGetTotalLen, initCable, cableSize, sizeAdd_eq h, wirePack64_unpack64 h]

theorem getCabledWire_initCable {wire : List UInt8} (h : 14 + wire.length < 2 ^ 64) :
    getCabledWire (initCable wire) = (wire.length, wire) := by
  rw [getCabledWire, cableGetPayloadLen, initCable_totalLen h, cableSize,
    sizeSub_eq (by omega) h, Nat.add_sub_cancel_left]
  rfl

/-- What `recv` does when every byte of the stream has been received. -/
inductive StreamEnd
  | blocks | closed | failed
  deriving DecidableEq, Repr

/-- The receiving side of a socket: the bytes to come, their offset in the whole
stream, and the number of bytes the transport hands over at each offset. -/
structure Sock where
  stream : List UInt8
  offset : ℕ
  segment : ℕ → ℕ
  ending : StreamEnd

/-- The outcome of one `recv`: some bytes, `0`, `-1`, or no return. -/
inductive RecvResult
  | bytes (got : List UInt8) (rest : Sock)
  | closed
  | failed
  | blocks

/-- The socket after `n` bytes have been received. -/
def Sock.advance (s : Sock) (n : ℕ) : Sock :=
  { s with stream := s.stream.drop n, offset := s.offset + n }

/-- How much a `recv` for `n` bytes returns: at least one byte, and no more than
were asked for, are available or are handed over at this offset. -/
def Sock.portion (s : Sock) (n : ℕ) : ℕ := min n (min s.stream.length (max 1 (s.segment s.offset)))

def xrecv (s : Sock) (n : ℕ) : RecvResult :=
  if s.stream = [] then
    match s.ending with
    | .blocks => .blocks
    | .closed => .closed
    | .failed => .failed
  else .bytes (s.stream.take (s.portion n)) (s.advance (s.portion n))

theorem Sock.portion_pos {s : Sock} {n : ℕ} (hs : s.stream ≠ []) (hn : 0 < n) :
    0 < s.portion n := by
  have := List.length_pos_of_ne_nil hs
  unfold Sock.portion
  omega

theorem xrecv_progress {s rest : Sock} {n : ℕ} {got : List UInt8} (hn : n ≠ 0)
    (h : xrecv s n = .bytes got rest) : n - got.length < n := by
  unfold xrecv at h
  split at h
  · cases hend : s.ending <;> simp [hend] at h
  · rename_i hs
    obtain ⟨rfl, -⟩ := RecvResult.bytes.inj h
    have hpos := Sock.portion_pos hs (Nat.pos_of_ne_zero hn)
    have hle : s.portion n ≤ s.stream.length := by unfold Sock.portion; omega
    rw [List.length_take]
    omega

theorem xrecv_length_le {s rest : Sock} {n : ℕ} {got : List UInt8}
    (h : xrecv s n = .bytes got rest) : got.length ≤ n := by
  unfold xrecv at h
  split at h
  · cases hend : s.ending <;> simp [hend] at h
  · obtain ⟨rfl, -⟩ := RecvResult.bytes.inj h
    have hle : s.portion n ≤ n := by unfold Sock.portion; omega
    exact (List.length_take_le _ _).trans hle

/-- The function `xrecvall`: whether all `n` bytes arrived, those that did, and
the socket afterwards. After a `0` the counter does not move and `recv` keeps
returning `0`, so the call does not return. -/
def xrecvall (s : Sock) (n : ℕ) : Option (Bool × List UInt8 × Sock) :=
  if _hn : n = 0 then some (true, [], s)
  else
    match _h : xrecv s n with
    | .failed => some (false, [], s)
    | .closed | .blocks => none
    | .bytes got rest =>
      (xrecvall rest (n - got.length)).map fun (ok, more, s') => (ok, got ++ more, s')
termination_by n
decreasing_by exact xrecv_progress _hn _h

theorem xrecvall_step {s : Sock} {n : ℕ} (hn : n ≠ 0) (hs : s.stream ≠ []) :
    xrecvall s n = (xrecvall (s.advance (s.portion n)) (n - s.portion n)).map
      fun r => (r.1, s.stream.take (s.portion n) ++ r.2.1, r.2.2) := by
  have hx : xrecv s n = .bytes (s.stream.take (s.portion n)) (s.advance (s.portion n)) := by
    simp [xrecv, hs]
  have hlen : (s.stream.take (s.portion n)).length = s.portion n := by
    rw [List.length_take]
    unfold Sock.portion
    omega
  rw [xrecvall, dif_neg hn]
  split <;> rename_i hcase <;> rw [hx] at hcase
  · cases hcase
  · cases hcase
  · cases hcase
  · obtain ⟨rfl, rfl⟩ := RecvResult.bytes.inj hcase
    simp only [hlen]

/-- With enough bytes to come, `xrecvall` returns exactly the next `n`, however
the transport splits them. -/
theorem xrecvall_eq (s : Sock) (n : ℕ) (h : n ≤ s.stream.length) :
    xrecvall s n = some (true, s.stream.take n, s.advance n) := by
  induction n using Nat.strong_induction_on generalizing s with
  | _ n ih =>
    by_cases hn : n = 0
    · subst hn
      simp [xrecvall, Sock.advance]
    · have hs : s.stream ≠ [] := List.ne_nil_of_length_pos (by omega)
      have hpos := Sock.portion_pos hs (Nat.pos_of_ne_zero hn)
      have hle : s.portion n ≤ n := by unfold Sock.portion; omega
      rw [xrecvall_step hn hs, ih (n - s.portion n) (by omega) _ (by simp [Sock.advance]; omega)]
      simp only [Option.map_some, Sock.advance, List.drop_drop, ← List.take_add,
        Nat.add_sub_cancel' hle, Nat.add_assoc]

theorem xrecvall_length {s s' : Sock} {n : ℕ} {got : List UInt8}
    (h : xrecvall s n = some (true, got, s')) : got.length = n := by
  induction n using Nat.strong_induction_on generalizing s got with
  | _ n ih =>
    rw [xrecvall] at h
    by_cases hn : n = 0
    · rw [dif_pos hn] at h
      obtain ⟨-, rfl, -⟩ : true = true ∧ [] = got ∧ s = s' := by simpa using h
      exact hn.symm
    · rw [dif_neg hn] at h
      split at h
      · cases h
      · cases h
      · cases h
      next some₁ rest hrecv =>
        obtain ⟨⟨ok, more, s₁⟩, hmore, heq⟩ := Option.map_eq_some_iff.mp h
        obtain ⟨rfl, rfl, rfl⟩ : ok = true ∧ some₁ ++ more = got ∧ s₁ = s' := by simpa using heq
        have hlt := xrecv_progress hn hrecv
        have hle := xrecv_length_le hrecv
        have hlen := ih (n - some₁.length) hlt hmore
        rw [List.length_append, hlen]
        omega

/-- Without enough bytes, on an open connection, the call does not return. -/
theorem xrecvall_blocks (s : Sock) (n : ℕ) (h : s.stream.length < n) (hend : s.ending = .blocks) :
    xrecvall s n = none := by
  induction n using Nat.strong_induction_on generalizing s with
  | _ n ih =>
    have hn : n ≠ 0 := by omega
    by_cases hs : s.stream = []
    · rw [xrecvall, dif_neg hn]
      split <;> rename_i hcase <;> simp [xrecv, hs, hend] at hcase ⊢
    · have hpos := Sock.portion_pos hs (Nat.pos_of_ne_zero hn)
      have hle : s.portion n ≤ s.stream.length := by unfold Sock.portion; omega
      rw [xrecvall_step hn hs, ih (n - s.portion n) (by omega) _ (by simp [Sock.advance]; omega)
        (by simpa [Sock.advance] using hend)]
      rfl

/-- The cast of the header bytes in the buffer that `alloc_cable` zeroed. -/
def Cable.ofHeader (mem : List UInt8) : Cable := ⟨readVec 6 mem, readVec 8 (mem.drop 6), []⟩

/-- The function `cable_recv_remaining`, on a cable whose header is there. -/
def cableRecvRemaining (s : Sock) (cable : Cable) : Option (Bool × Cable × Sock) :=
  let remaining := sizeSub (cableGetTotalLen cable) cableSize
  (xrecvall s remaining).map fun (ok, data, s) => (ok, { cable with data := data }, s)

/-- The function `recv_cable`; `NULL` is `none` inside. -/
def recvCable (s : Sock) : Option (Option Cable × Sock) :=
  match xrecvall s cableSize with
  | none => none
  | some (false, _, s) => some (none, s)
  | some (true, mem, s) =>
    let cable := Cable.ofHeader mem
    if !cableCheckSignature cable then some (none, s)
    else (cableRecvRemaining s cable).map fun (ok, cable, s) =>
      if ok then (some cable, s) else (none, s)

/-- The function `cable_recv_data`, which returns `0` for `none`. -/
def cableRecvData (s : Sock) (cable : Cable) : Option (Option Cable × Sock) :=
  if !cableCheckSignature cable then some (none, s)
  else (cableRecvRemaining s cable).map fun (ok, cable, s) =>
    if ok then (some cable, s) else (none, s)

theorem Cable.ofHeader_header (cable : Cable) :
    Cable.ofHeader cable.header = { cable with data := [] } := by
  have hdrop : (cable.signature.toList ++ cable.len.toList).drop 6 = cable.len.toList :=
    List.drop_left' (by simp)
  rw [Cable.ofHeader, Cable.header, hdrop, readVec_append, readVec_toList]

end Parcel
