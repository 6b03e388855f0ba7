import Parcel.Cable
import Parcel.Wire

/-!
# Cables on a segmented stream

The daemon reads a cable header with a single `xrecv` where `recv_cable` uses
`xrecvall`. The two receive paths obtain the same cables exactly when no segment
boundary falls inside a header, up to the boundaries that the zeroed buffer of
`alloc_cable` hides.
-/

namespace Parcel
open ByteStrings

/-- The receive path of `recv_client`: one `xrecv` for the header, into a zeroed
buffer, then `cable_recv_data`. -/
def recvClient (s : Sock) : Option (Option Cable × Sock) :=
  match xrecv s cableSize with
  | .blocks => none
  | .closed | .failed => some (none, s)
  | .bytes got rest => cableRecvData rest (Cable.ofHeader got)

/-- The cables that successive calls obtain, up to the first call that fails or
does not return. -/
def cablesObtained (recv : Sock → Option (Option Cable × Sock)) : ℕ → Sock → List Cable
  | 0, _ => []
  | calls + 1, s =>
    match recv s with
    | some (some cable, s') => cable :: cablesObtained recv calls s'
    | _ => []

/-- The stream of the wires' cables, on a connection that stays open. -/
def cabledSock (ws : List Wire) (segment : ℕ → ℕ) (offset : ℕ) : Sock :=
  ⟨ws.flatMap fun w => (initCable w.bytes).bytes, offset, segment, .blocks⟩

/-- Every header arrives in one piece. The alternative is a last cable whose
bytes past the boundary are all zero: they are what the buffer holds already. -/
def HeadersWhole (segment : ℕ → ℕ) : ℕ → List Wire → Prop
  | _, [] => True
  | offset, w :: ws =>
    (cableSize ≤ segment offset ∨
      ws = [] ∧ ∀ b ∈ (initCable w.bytes).bytes.drop (max 1 (segment offset)), b = 0) ∧
    HeadersWhole segment (offset + (cableSize + w.bytes.length)) ws

theorem Cable.bytes_length (cable : Cable) : cable.bytes.length = 14 + cable.data.length := by
  rw [Cable.bytes, List.length_append, Cable.header_length]

theorem initCable_bytes (wire : List UInt8) :
    (initCable wire).bytes = (initCable wire).header ++ wire := rfl

theorem Cable.header_ofHeader {mem : List UInt8} (h : mem.length ≤ 14) :
    (Cable.ofHeader mem).header = mem ++ List.replicate (14 - mem.length) 0 := by
  have hlen : (mem ++ List.replicate (14 - mem.length) 0).length = 14 := by
    simp only [List.length_append, List.length_replicate]
    omega
  have hsig : readVec 6 mem = readVec 6 (mem ++ List.replicate (14 - mem.length) 0) :=
    (readVec_append_default mem _).symm
  have hrest : readVec 8 (mem.drop 6) =
      readVec 8 ((mem ++ List.replicate (14 - mem.length) 0).drop 6) := by
    rw [List.drop_append, List.drop_replicate]
    exact (readVec_append_default (mem.drop 6) _).symm
  rw [Cable.ofHeader, Cable.header, hsig, hrest, toList_readVec (by omega),
    toList_readVec (by rw [List.length_drop]; omega), ← List.take_add]
  exact List.take_of_length_le hlen.le

theorem Cable.header_injective {c c' : Cable} (h : c.header = c'.header) :
    c.signature = c'.signature ∧ c.len = c'.len := by
  have h6 := congrArg Cable.ofHeader h
  rw [Cable.ofHeader_header, Cable.ofHeader_header] at h6
  exact ⟨(Cable.mk.inj h6).1, (Cable.mk.inj h6).2.1⟩

theorem cableRecvData_some {s s' : Sock} {c c' : Cable}
    (h : cableRecvData s c = some (some c', s')) :
    cableCheckSignature c = true ∧ c'.header = c.header ∧
      xrecvall s (cableGetPayloadLen c) = some (true, c'.data, s') := by
  unfold cableRecvData at h
  by_cases hsig : cableCheckSignature c = true
  · rw [hsig, Bool.not_true, if_neg Bool.false_ne_true, cableRecvRemaining, Option.map_map,
      Option.map_eq_some_iff] at h
    obtain ⟨⟨ok, data, s''⟩, hrecv, hres⟩ := h
    cases ok with
    | false => simp at hres
    | true =>
      simp only [Function.comp_apply, ↓reduceIte, Prod.mk.injEq, Option.some.injEq] at hres
      obtain ⟨rfl, rfl⟩ := hres
      exact ⟨hsig, rfl, hrecv⟩
  · rw [Bool.not_eq_true] at hsig
    rw [hsig, Bool.not_false, if_pos rfl] at h
    cases h

theorem cableRecvData_eq {s : Sock} {c : Cable} (hsig : cableCheckSignature c = true)
    (hlen : cableGetPayloadLen c ≤ s.stream.length) :
    cableRecvData s c = some (some { c with data := s.stream.take (cableGetPayloadLen c) },
      s.advance (cableGetPayloadLen c)) := by
  have hrecv := xrecvall_eq s (cableGetPayloadLen c) hlen
  rw [cableGetPayloadLen] at hrecv
  rw [cableRecvData, hsig, Bool.not_true, if_neg Bool.false_ne_true, cableRecvRemaining, hrecv]
  rfl

section

variable {s : Sock} {wire rest : List UInt8} {p : ℕ}

theorem take_initCable (hs : s.stream = (initCable wire).bytes ++ rest) (hp : p ≤ 14) :
    s.stream.take p = (initCable wire).header.take p := by
  rw [hs, Cable.bytes, List.append_assoc]
  exact List.take_append_of_le_length (by rw [Cable.header_length]; exact hp)

theorem drop_initCable (hs : s.stream = (initCable wire).bytes ++ rest) (hp : p ≤ 14) :
    s.stream.drop p = (initCable wire).header.drop p ++ (wire ++ rest) := by
  rw [hs, initCable_bytes, List.append_assoc]
  exact List.drop_append_of_le_length (by rw [Cable.header_length]; exact hp)

theorem header_ofHeader_take (hs : s.stream = (initCable wire).bytes ++ rest) (hp : p ≤ 14) :
    (Cable.ofHeader (s.stream.take p)).header =
      (initCable wire).header.take p ++ List.replicate (14 - p) 0 := by
  have hlen : ((initCable wire).header.take p).length = p := by
    rw [List.length_take, Cable.header_length, min_eq_left hp]
  rw [take_initCable hs hp, Cable.header_ofHeader (by rw [hlen]; exact hp), hlen]

/-- The first `p` bytes of a cable's header stand for the whole header when the
others are zero. -/
theorem ofHeader_take (hs : s.stream = (initCable wire).bytes ++ rest) (hp : p ≤ 14)
    (hzero : ∀ b ∈ (initCable wire).header.drop p, b = 0) :
    Cable.ofHeader (s.stream.take p) = { initCable wire with data := [] } := by
  have hheader : (Cable.ofHeader (s.stream.take p)).header = (initCable wire).header := by
    have hdrop : (initCable wire).header.drop p = List.replicate (14 - p) 0 :=
      List.eq_replicate_iff.mpr ⟨by rw [List.length_drop, Cable.header_length], hzero⟩
    rw [header_ofHeader_take hs hp, ← hdrop, List.take_append_drop]
  rw [← Cable.ofHeader_header, ← hheader, Cable.ofHeader_header]
  rfl

theorem payloadLen_initCable (hfit : 14 + wire.length < 2 ^ 64) :
    cableGetPayloadLen { initCable wire with data := [] } = wire.length :=
  (Prod.mk.inj (getCabledWire_initCable hfit)).1

theorem cableRecvData_hidden (hfit : 14 + wire.length < 2 ^ 64)
    (hs : s.stream = (initCable wire).bytes ++ rest) (hp : p ≤ 14)
    (hzero : p = 14 ∨ ∀ b ∈ (initCable wire).bytes.drop p, b = 0) :
    cableRecvData (s.advance p) (Cable.ofHeader (s.stream.take p)) =
      some (some (initCable wire), s.advance (p + wire.length)) := by
  have hsplit : (initCable wire).bytes.drop p = (initCable wire).header.drop p ++ wire := by
    rw [initCable_bytes]
    exact List.drop_append_of_le_length (by rw [Cable.header_length]; exact hp)
  have hheader : ∀ b ∈ (initCable wire).header.drop p, b = 0 := by
    intro b hb
    rcases hzero with rfl | hzero
    · rw [List.drop_of_length_le (Cable.header_length _).le] at hb
      cases hb
    · exact hzero b (by rw [hsplit]; exact List.mem_append_left _ hb)
  -- the bytes of the header that are still to come are zeros, and so is the wire
  have hdata : (s.stream.drop p).take wire.length = wire := by
    rw [drop_initCable hs hp]
    rcases hzero with rfl | hzero
    · rw [List.drop_of_length_le (Cable.header_length _).le, List.nil_append]
      exact List.take_left' rfl
    · have hrep : (initCable wire).header.drop p ++ wire =
          List.replicate (14 - p + wire.length) 0 := by
        rw [← hsplit]
        refine List.eq_replicate_iff.mpr ⟨?_, hzero⟩
        rw [hsplit, List.length_append, List.length_drop, Cable.header_length]
      have hwire : wire = List.replicate wire.length 0 :=
        List.eq_replicate_iff.mpr
          ⟨rfl, fun b hb => hzero b (by rw [hsplit]; exact List.mem_append_right _ hb)⟩
      rw [← List.append_assoc, hrep, List.take_append_of_le_length (by simp),
        List.take_replicate, min_eq_left (by omega)]
      exact hwire.symm
  have hlen : wire.length ≤ (s.advance p).stream.length := by
    rw [Sock.advance, drop_initCable hs hp, List.length_append, List.length_append]
    omega
  have hsig : cableCheckSignature { initCable wire with data := [] } = true :=
    initCable_checkSignature wire
  rw [ofHeader_take hs hp hheader, cableRecvData_eq hsig
    (by rw [payloadLen_initCable hfit]; exact hlen), payloadLen_initCable hfit]
  simp only [Sock.advance, hdata, List.drop_drop, Nat.add_assoc]
  rfl

theorem zeros_of_cableRecvData (hfit : 14 + wire.length < 2 ^ 64)
    (hs : s.stream = (initCable wire).bytes ++ rest) (hp : p < 14) {s' : Sock}
    (h : cableRecvData (s.advance p) (Cable.ofHeader (s.stream.take p)) =
      some (some (initCable wire), s')) :
    ∀ b ∈ (initCable wire).bytes.drop p, b = 0 := by
  obtain ⟨-, hheader, hrecv⟩ := cableRecvData_some h
  have hdrop : (initCable wire).header.drop p = List.replicate (14 - p) 0 := by
    rw [header_ofHeader_take hs hp.le] at hheader
    nth_rewrite 1 [← List.take_append_drop p (initCable wire).header] at hheader
    exact List.append_cancel_left hheader
  have hzero : ∀ b ∈ (initCable wire).header.drop p, b = 0 := by
    intro b hb
    rw [hdrop] at hb
    exact List.eq_of_mem_replicate hb
  have hlen : wire.length ≤ (s.advance p).stream.length := by
    rw [Sock.advance, drop_initCable hs hp.le, List.length_append, List.length_append]
    omega
  rw [ofHeader_take hs hp.le hzero, payloadLen_initCable hfit, xrecvall_eq _ _ hlen] at hrecv
  have hdata : (s.stream.drop p).take wire.length = wire :=
    (Prod.mk.inj (Prod.mk.inj (Option.some.inj hrecv)).2).1
  rw [drop_initCable hs hp.le, hdrop] at hdata
  have hwire := eq_of_shift (by omega) hdata
  intro b hb
  rw [initCable_bytes, List.drop_append_of_le_length (by rw [Cable.header_length]; exact hp.le),
    List.mem_append] at hb
  rcases hb with hb | hb
  · exact hzero b hb
  · exact hwire b hb

theorem cableRecvData_zero (hs : s.stream = 0 :: rest) (hp : 0 < p) (c : Cable) (s' s'' : Sock) :
    cableRecvData s' (Cable.ofHeader (s.stream.take p)) ≠ some (some c, s'') := by
  intro h
  obtain ⟨hsig, -, -⟩ := cableRecvData_some h
  have hfirst : (readVec 6 (s.stream.take p))[0] = cableSignature[0] :=
    congrArg (fun v : Vector UInt8 6 => v[0]) (of_decide_eq_true hsig)
  obtain ⟨q, rfl⟩ : ∃ q, p = q + 1 := ⟨p - 1, by omega⟩
  rw [hs, List.take_succ_cons, readVec, Vector.getElem_ofFn] at hfirst
  have hne : (0 : UInt8) ≠ 0x70 := by decide
  exact hne hfirst

end

section

variable {s : Sock} {wire rest : List UInt8}

/-- The client's path takes one cable off the stream, however it is split. -/
theorem recvCable_eq (hfit : 14 + wire.length < 2 ^ 64)
    (hs : s.stream = (initCable wire).bytes ++ rest) :
    recvCable s = some (some (initCable wire), s.advance (14 + wire.length)) := by
  have hlen : cableSize ≤ s.stream.length := by
    rw [hs, List.length_append, Cable.bytes_length, cableSize]
    omega
  rw [recvCable, xrecvall_eq s cableSize hlen]
  exact cableRecvData_hidden hfit hs le_rfl (Or.inl rfl)

theorem recvClient_eq (hs : s.stream ≠ []) :
    recvClient s =
      cableRecvData (s.advance (s.portion 14)) (Cable.ofHeader (s.stream.take (s.portion 14))) := by
  rw [recvClient, xrecv, if_neg hs]
  rfl

theorem portion_header (hs : s.stream = (initCable wire).bytes ++ rest) :
    s.portion 14 = min 14 (max 1 (s.segment s.offset)) := by
  have hlen : 14 ≤ s.stream.length := by
    rw [hs, List.length_append, Cable.bytes_length]
    omega
  unfold Sock.portion
  omega

theorem cablesObtained_succ {recv : Sock → Option (Option Cable × Sock)} {s' : Sock} {c : Cable}
    (h : recv s = some (some c, s')) (calls : ℕ) :
    cablesObtained recv (calls + 1) s = c :: cablesObtained recv calls s' := by
  rw [cablesObtained, h]

/-- A path that does not obtain a cable now obtains none at all. -/
theorem cablesObtained_stop {recv : Sock → Option (Option Cable × Sock)}
    (h : ∀ c s', recv s ≠ some (some c, s')) (calls : ℕ) : cablesObtained recv calls s = [] := by
  cases calls with
  | zero => rfl
  | succ calls =>
    rw [cablesObtained]
    split
    · rename_i c s' heq
      exact absurd heq (h c s')
    · rfl

theorem cablesObtained_agree {recv recv' : Sock → Option (Option Cable × Sock)} {s' : Sock}
    {c : Cable} (h : recv s = some (some c, s')) (h' : recv' s = some (some c, s')) :
    (∀ calls, cablesObtained recv calls s = cablesObtained recv' calls s) ↔
      ∀ calls, cablesObtained recv calls s' = cablesObtained recv' calls s' := by
  constructor
  · intro hall calls
    have hsucc := hall (calls + 1)
    rw [cablesObtained_succ h, cablesObtained_succ h'] at hsucc
    exact (List.cons.inj hsucc).2
  · intro hall calls
    cases calls with
    | zero => rfl
    | succ calls => rw [cablesObtained_succ h, cablesObtained_succ h', hall calls]

theorem cablesObtained_one {recv : Sock → Option (Option Cable × Sock)} {c : Cable} {l : List Cable}
    {calls : ℕ} (h : cablesObtained recv (calls + 1) s = c :: l) :
    ∃ s', recv s = some (some c, s') ∧ cablesObtained recv calls s' = l := by
  rw [cablesObtained] at h
  split at h
  · rename_i c' s' heq
    obtain ⟨rfl, htail⟩ := List.cons.inj h
    exact ⟨s', heq, htail⟩
  · cases h

end

section

variable (segment : ℕ → ℕ) (offset : ℕ) (w : Wire) (ws : List Wire)

theorem cabledSock_cons :
    (cabledSock (w :: ws) segment offset).stream =
      (initCable w.bytes).bytes ++ (cabledSock ws segment offset).stream := by
  rw [cabledSock, cabledSock, List.flatMap_cons]

theorem cabledSock_advance :
    (cabledSock (w :: ws) segment offset).advance (14 + w.bytes.length) =
      cabledSock ws segment (offset + (14 + w.bytes.length)) := by
  have hlen : (initCable w.bytes).bytes.length = 14 + w.bytes.length := Cable.bytes_length _
  rw [Sock.advance, cabledSock_cons, List.drop_left' hlen]
  rfl

theorem cablesObtained_nil (calls : ℕ) :
    cablesObtained recvClient calls (cabledSock [] segment offset) = [] ∧
      cablesObtained recvCable calls (cabledSock [] segment offset) = [] := by
  have hempty : (cabledSock [] segment offset).stream = [] := rfl
  constructor
  · refine cablesObtained_stop ?_ calls
    intro c s' h
    rw [recvClient, xrecv, if_pos hempty] at h
    cases h
  · refine cablesObtained_stop ?_ calls
    intro c s' h
    rw [recvCable, xrecvall_blocks _ _ (by rw [hempty]; decide) rfl] at h
    cases h

end

section

variable {segment : ℕ → ℕ} {offset : ℕ} {w : Wire} {ws : List Wire}

theorem recvClient_cabled (segment : ℕ → ℕ) (offset : ℕ) (w : Wire) (ws : List Wire) :
    recvClient (cabledSock (w :: ws) segment offset) =
      cableRecvData
          ((cabledSock (w :: ws) segment offset).advance (min 14 (max 1 (segment offset))))
        (Cable.ofHeader ((cabledSock (w :: ws) segment offset).stream.take
          (min 14 (max 1 (segment offset))))) := by
  have hstream := cabledSock_cons segment offset w ws
  have hne : (cabledSock (w :: ws) segment offset).stream ≠ [] := by
    intro h
    rw [h] at hstream
    exact absurd (congrArg List.length hstream)
      (by rw [List.length_append, Cable.bytes_length, List.length_nil]; omega)
  rw [recvClient_eq hne, portion_header hstream]
  rfl

theorem recvClient_whole (hfit : 14 + w.bytes.length < 2 ^ 64) (hseg : 14 ≤ segment offset) :
    recvClient (cabledSock (w :: ws) segment offset) =
      some (some (initCable w.bytes), cabledSock ws segment (offset + (14 + w.bytes.length))) := by
  have hportion : min 14 (max 1 (segment offset)) = 14 := by omega
  rw [recvClient_cabled, hportion, cableRecvData_hidden hfit (cabledSock_cons segment offset w ws)
    le_rfl (Or.inl rfl), cabledSock_advance]

variable (ws) in
/-- A boundary that hides zeros: the daemon obtains the cable and then finds the
end of the data in the place of the next header. -/
theorem recvClient_hidden (hfit : 14 + w.bytes.length < 2 ^ 64) (hseg : segment offset < 14)
    (hzero : ∀ b ∈ (initCable w.bytes).bytes.drop (max 1 (segment offset)), b = 0) :
    ∃ s', recvClient (cabledSock (w :: ws) segment offset) = some (some (initCable w.bytes), s') ∧
      ∀ calls, cablesObtained recvClient calls s' = [] := by
  have hstream := cabledSock_cons segment offset w ws
  have hportion : min 14 (max 1 (segment offset)) = max 1 (segment offset) := by omega
  refine ⟨(cabledSock (w :: ws) segment offset).advance (max 1 (segment offset) + w.bytes.length),
    ?_, ?_⟩
  · rw [recvClient_cabled, hportion]
    exact cableRecvData_hidden hfit hstream (by omega) (Or.inr hzero)
  · generalize hp : max 1 (segment offset) = p at hzero ⊢
    have hbytes : (initCable w.bytes).bytes.length = 14 + w.bytes.length := Cable.bytes_length _
    have hlt : p + w.bytes.length < (initCable w.bytes).bytes.length := by omega
    -- the byte at the start of the next call is one of the hidden zeros
    have hfirst : (initCable w.bytes).bytes[p + w.bytes.length] = 0 := by
      apply hzero
      rw [List.mem_iff_getElem]
      exact ⟨w.bytes.length, by rw [List.length_drop]; omega, by rw [List.getElem_drop]⟩
    have hnext : ((cabledSock (w :: ws) segment offset).advance (p + w.bytes.length)).stream =
        0 :: ((cabledSock (w :: ws) segment offset).stream.drop (p + w.bytes.length + 1)) := by
      have hlt' : p + w.bytes.length < (cabledSock (w :: ws) segment offset).stream.length := by
        rw [hstream, List.length_append]
        omega
      rw [Sock.advance, List.drop_eq_getElem_cons hlt', List.cons.injEq]
      refine ⟨?_, rfl⟩
      rw [← hfirst]
      simp only [hstream]
      exact List.getElem_append_left hlt
    refine cablesObtained_stop ?_
    intro c s'
    have hne :
        ((cabledSock (w :: ws) segment offset).advance (p + w.bytes.length)).stream ≠ [] := by
      rw [hnext]
      exact List.cons_ne_nil _ _
    rw [recvClient_eq hne]
    exact cableRecvData_zero hnext (Sock.portion_pos hne (by omega)) c _ s'

end

/-- The two receive paths obtain the same cables from a stream exactly when every
header arrives whole. -/
theorem recv_client_agrees_iff (ws : List Wire) (segment : ℕ → ℕ) (offset : ℕ)
    (hfit : ∀ w ∈ ws, 14 + w.bytes.length < 2 ^ 64) :
    (∀ calls, cablesObtained recvClient calls (cabledSock ws segment offset) =
      cablesObtained recvCable calls (cabledSock ws segment offset)) ↔
      HeadersWhole segment offset ws := by
  induction ws generalizing offset with
  | nil =>
    refine ⟨fun _ => trivial, fun _ calls => ?_⟩
    obtain ⟨hdaemon, hclient⟩ := cablesObtained_nil segment offset calls
    rw [hdaemon, hclient]
  | cons w ws ih =>
    have hw : 14 + w.bytes.length < 2 ^ 64 := hfit w List.mem_cons_self
    have hstream := cabledSock_cons segment offset w ws
    have hclient := recvCable_eq hw hstream
    rw [cabledSock_advance] at hclient
    have htail := ih (offset + (14 + w.bytes.length))
      (fun w' hw' => hfit w' (List.mem_cons_of_mem _ hw'))
    rw [HeadersWhole, cableSize]
    by_cases hseg : 14 ≤ segment offset
    · rw [cablesObtained_agree (recvClient_whole hw hseg) hclient, htail]
      exact ⟨fun h => ⟨Or.inl hseg, h⟩, fun h => h.2⟩
    · have hportion : min 14 (max 1 (segment offset)) = max 1 (segment offset) := by omega
      constructor
      · intro hall
        have hone := hall 1
        rw [cablesObtained_succ hclient] at hone
        obtain ⟨s', hs', -⟩ := cablesObtained_one hone
        rw [recvClient_cabled, hportion] at hs'
        have hzero := zeros_of_cableRecvData hw hstream (by omega) hs'
        cases ws with
        | nil => exact ⟨Or.inr ⟨rfl, hzero⟩, trivial⟩
        | cons w' ws =>
          -- the client goes on to the next cable, the daemon does not
          obtain ⟨s'', hs'', hstop⟩ := recvClient_hidden (w' :: ws) hw (by omega) hzero
          have hclient' := recvCable_eq (hfit w' (by simp))
            (cabledSock_cons segment (offset + (14 + w.bytes.length)) w' ws)
          have htwo := hall 2
          rw [cablesObtained_succ hclient, cablesObtained_succ hs'', cablesObtained_succ hclient',
            hstop] at htwo
          exact absurd (List.cons.inj htwo).2 (List.cons_ne_nil _ _).symm
      · rintro ⟨hcond, -⟩ calls
        obtain ⟨rfl, hzero⟩ := hcond.resolve_left hseg
        obtain ⟨s', hs', hstop⟩ := recvClient_hidden [] hw (by omega) hzero
        cases calls with
        | zero => rfl
        | succ calls =>
          rw [cablesObtained_succ hclient, cablesObtained_succ hs', hstop,
            (cablesObtained_nil segment _ calls).2]

/-- A wire without data whose outer MAC is all ones. -/
def onesWire : Wire :=
  ⟨Vector.replicate 16 1, Vector.replicate 16 0, Vector.replicate 16 0, zeroHeader, []⟩

/-- Of two cables the headers arrive whole, at 0 and 78, and the data in segments of five
bytes. -/
theorem recv_client_agrees_onesWire :
    (∀ w ∈ [onesWire, onesWire], 14 + w.bytes.length < 2 ^ 64) ∧
      ∀ calls, cablesObtained recvClient calls
          (cabledSock [onesWire, onesWire] (fun n => if n % 78 = 0 then 14 else 5) 0) =
        cablesObtained recvCable calls
          (cabledSock [onesWire, onesWire] (fun n => if n % 78 = 0 then 14 else 5) 0) := by
  have hfit : ∀ w ∈ [onesWire, onesWire], 14 + w.bytes.length < 2 ^ 64 := by decide
  exact ⟨hfit, (recv_client_agrees_iff [onesWire, onesWire] _ 0 hfit).mpr
    ⟨Or.inl (by decide), Or.inl (by decide), trivial⟩⟩

/-- Segments of seven bytes: the signature and the only non-zero length byte
arrive first, and the daemon takes the other length bytes for data. -/
theorem recv_client_short_header :
    cablesObtained recvClient 1 (cabledSock [onesWire] (fun _ => 7) 0) ≠
      cablesObtained recvCable 1 (cabledSock [onesWire] (fun _ => 7) 0) := by
  have hfit : 14 + onesWire.bytes.length < 2 ^ 64 := by decide
  have hstream := cabledSock_cons (fun _ => 7) 0 onesWire []
  intro h
  rw [cablesObtained_succ (recvCable_eq hfit hstream)] at h
  obtain ⟨s', hs', -⟩ := cablesObtained_one h
  rw [recvClient_cabled] at hs'
  have hzero := zeros_of_cableRecvData hfit hstream (by decide) hs' 1 (by decide)
  exact absurd hzero (by decide)

end Parcel
