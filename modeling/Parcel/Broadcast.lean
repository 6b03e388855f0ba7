import Parcel.Fanout
import Parcel.Receiving

/-!
# Cables from client to client

A client sends a cable in pieces of any size, the daemon reads one cable at a time and sends
it on in pieces, and the clients receive what has arrived, in any order between the parties.
The order in which the daemon has read the cables is the order of all clients.
-/

namespace Parcel
open Function

variable {N : ℕ}

/-- What is under way. A descriptor of the daemon stands for the client at its other end. -/
structure Traffic where
  /-- What `xsendall` of a client has left to send. -/
  outgoing : ℕ → List UInt8
  uplink : ℕ → List UInt8
  /-- What `transfer_message` has left to send. -/
  fanout : List (ℕ × List UInt8)
  downlink : ℕ → List UInt8
  /-- The wires that a client has sent, the cables that the daemon has read, and those
  that a client has received. -/
  said : ℕ → List (List UInt8)
  log : List (ℕ × Cable)
  heard : ℕ → List Cable

/-- What the parties do. A receive is done when the last byte that it waits for is there. -/
inductive Transfer
  | say (fd : ℕ) (wire : List UInt8)
  | send (fd n : ℕ)
  | serve (fd : ℕ) (segment : ℕ → ℕ)
  | forward (n : ℕ)
  | receive (fd : ℕ) (segment : ℕ → ℕ)

namespace Traffic

/-- A connection that stays open, with what has arrived on it. -/
def connection (arrived : List UInt8) (segment : ℕ → ℕ) : Sock := ⟨arrived, 0, segment, .blocks⟩

def quiet : Traffic := ⟨fun _ => [], fun _ => [], [], fun _ => [], fun _ => [], [], fun _ => []⟩

/-- The next state, if the party can do it: a client sends one cable at a time, and the daemon
reads the next one when it has forwarded the last. -/
def step (srv : Server N) (beyond : ℕ) (s : Traffic) : Transfer → Option Traffic
  | .say fd wire =>
    if fd ∈ srv.clients ∧ s.outgoing fd = [] then
      some { s with
        outgoing := update s.outgoing fd (initCable wire).bytes
        said := update s.said fd (s.said fd ++ [wire]) }
    else none
  | .send fd n =>
    if fd ∈ srv.clients ∧ 0 < n ∧ n ≤ (s.outgoing fd).length then
      some { s with
        outgoing := update s.outgoing fd ((s.outgoing fd).drop n)
        uplink := update s.uplink fd (s.uplink fd ++ (s.outgoing fd).take n) }
    else none
  | .serve fd segment =>
    if fd ∈ srv.clients ∧ s.fanout = [] then
      match recvClient (connection (s.uplink fd) segment) with
      | some (some cable, rest) =>
        some { s with
          uplink := update s.uplink fd rest.stream
          fanout := transferMessage srv (socketIndex srv beyond fd) cable
          log := s.log ++ [(fd, cable)] }
      | _ => none
    else none
  | .forward n =>
    match s.fanout with
    | [] => none
    | (fd, bytes) :: fanout =>
      if 0 < n ∧ n ≤ bytes.length then
        some { s with
          fanout := if n = bytes.length then fanout else (fd, bytes.drop n) :: fanout
          downlink := update s.downlink fd (s.downlink fd ++ bytes.take n) }
      else none
  | .receive fd segment =>
    if fd ∈ srv.clients then
      match recvCable (connection (s.downlink fd) segment) with
      | some (some cable, rest) =>
        some { s with
          downlink := update s.downlink fd rest.stream
          heard := update s.heard fd (s.heard fd ++ [cable]) }
      | _ => none
    else none

/-- A wire has a length that its cable can state, and the daemon finds a whole header. -/
def Regular (s : Traffic) : Transfer → Prop
  | .say _ wire => 14 + wire.length < 2 ^ 64
  | .serve fd segment => (connection (s.uplink fd) segment).portion cableSize = cableSize
  | _ => True

inductive Reached (srv : Server N) (beyond : ℕ) : Traffic → Prop
  | start : Reached srv beyond quiet
  | next {s s' : Traffic} {a : Transfer} (hs : Reached srv beyond s) (hregular : s.Regular a)
      (h : s.step srv beyond a = some s') : Reached srv beyond s'

end Traffic

def Transfer.Delivers : Transfer → Prop
  | .say _ _ => False
  | _ => True

section

variable {β : Type}

/-- The entries of one client, and those of the others, in the order of the log. -/
def sentBy (log : List (ℕ × β)) (fd : ℕ) : List β := (log.filter fun e => e.1 = fd).map Prod.snd

def sentTo (log : List (ℕ × β)) (fd : ℕ) : List β := (log.filter fun e => e.1 ≠ fd).map Prod.snd

theorem sentBy_concat (log : List (ℕ × β)) (fd sender : ℕ) (b : β) :
    sentBy (log ++ [(sender, b)]) fd = sentBy log fd ++ if sender = fd then [b] else [] := by
  rw [sentBy, List.filter_append, List.map_append, ← sentBy]
  by_cases h : sender = fd
  · simp [h]
  · simp [h]

theorem sentTo_concat (log : List (ℕ × β)) (fd sender : ℕ) (b : β) :
    sentTo (log ++ [(sender, b)]) fd = sentTo log fd ++ if sender = fd then [] else [b] := by
  rw [sentTo, List.filter_append, List.map_append, ← sentTo]
  by_cases h : sender = fd
  · simp [h]
  · simp [h]

end

def bytesFor (fanout : List (ℕ × List UInt8)) (fd : ℕ) : List UInt8 :=
  (fanout.filter fun e => e.1 = fd).flatMap Prod.snd

theorem bytesFor_cons (dst fd : ℕ) (bytes : List UInt8) (fanout : List (ℕ × List UInt8)) :
    bytesFor ((dst, bytes) :: fanout) fd =
      (if dst = fd then bytes else []) ++ bytesFor fanout fd := by
  rw [bytesFor, List.filter_cons]
  by_cases h : dst = fd
  · simp [h, bytesFor]
  · simp [h, bytesFor]

section

variable {s s' : Sock} {wire more tail : List UInt8} {c : Cable}

theorem cableRecvData_arrived (hfit : 14 + wire.length < 2 ^ 64) (hend : s.ending = .blocks)
    (hs : s.stream ++ more = (initCable wire).bytes ++ tail) (hheader : 14 ≤ s.stream.length)
    (h : cableRecvData (s.advance 14) (Cable.ofHeader (s.stream.take 14)) = some (some c, s')) :
    c = initCable wire ∧ ∃ rest, s.stream = (initCable wire).bytes ++ rest ∧ s'.stream = rest ∧
      rest ++ more = tail := by
  have hlength : (initCable wire).bytes.length = 14 + wire.length := Cable.bytes_length _
  have htake : s.stream.take 14 = (initCable wire).header := by
    have hfront := congrArg (List.take 14) hs
    rwa [List.take_append_of_le_length hheader, Cable.bytes, List.append_assoc,
      List.take_left' (Cable.header_length _)] at hfront
  have hpayload : wire.length ≤ (s.advance 14).stream.length := by
    by_contra hshort
    obtain ⟨-, -, hrecv⟩ := cableRecvData_some h
    rw [htake, Cable.ofHeader_header, payloadLen_initCable hfit,
      xrecvall_blocks _ _ (not_le.mp hshort) hend] at hrecv
    cases hrecv
  rw [Sock.advance, List.length_drop] at hpayload
  obtain ⟨rest, hrest⟩ := List.prefix_of_prefix_length_le ⟨tail, rfl⟩ ⟨more, hs⟩
    (show (initCable wire).bytes.length ≤ s.stream.length by omega)
  have hdata := cableRecvData_hidden hfit hrest.symm le_rfl (Or.inl rfl)
  rw [hdata] at h
  obtain ⟨hc, rfl⟩ := Prod.mk.inj (Option.some.inj h)
  refine ⟨(Option.some.inj hc).symm, rest, hrest.symm, ?_, ?_⟩
  · rw [Sock.advance, ← hrest, ← hlength, List.drop_left]
  · rw [← hrest, List.append_assoc] at hs
    exact List.append_cancel_left hs

theorem recvClient_arrived (hfit : 14 + wire.length < 2 ^ 64) (hend : s.ending = .blocks)
    (hs : s.stream ++ more = (initCable wire).bytes ++ tail)
    (hwhole : s.portion cableSize = cableSize)
    (h : recvClient s = some (some c, s')) :
    c = initCable wire ∧ ∃ rest, s.stream = (initCable wire).bytes ++ rest ∧ s'.stream = rest ∧
      rest ++ more = tail := by
  have hheader : 14 ≤ s.stream.length := by
    rw [Sock.portion, cableSize] at hwhole
    omega
  have hne : s.stream ≠ [] := List.ne_nil_of_length_pos (by omega)
  rw [recvClient_eq hne, ← cableSize, hwhole] at h
  exact cableRecvData_arrived hfit hend hs hheader h

theorem recvCable_arrived (hfit : 14 + wire.length < 2 ^ 64) (hend : s.ending = .blocks)
    (hs : s.stream ++ more = (initCable wire).bytes ++ tail)
    (h : recvCable s = some (some c, s')) :
    c = initCable wire ∧ ∃ rest, s.stream = (initCable wire).bytes ++ rest ∧ s'.stream = rest ∧
      rest ++ more = tail := by
  have hheader : 14 ≤ s.stream.length := by
    by_contra hshort
    rw [recvCable, xrecvall_blocks s cableSize (not_le.mp hshort) hend] at h
    cases h
  rw [recvCable, xrecvall_eq s cableSize hheader] at h
  exact cableRecvData_arrived hfit hend hs hheader h

end

/-- Of the cables some are done, and the stream holds those that are not. -/
def Awaits (cables done : List Cable) (stream : List UInt8) : Prop :=
  ∃ wires : List (List UInt8), cables = done ++ wires.map initCable ∧ stream = cableStream wires ∧
    ∀ wire ∈ wires, 14 + wire.length < 2 ^ 64

section

variable {cables done : List Cable} {stream arrived more : List UInt8} {wire : List UInt8}

theorem Awaits.done_initial (h : Awaits cables done stream) : done <+: cables := by
  obtain ⟨wires, hcables, -, -⟩ := h
  exact ⟨_, hcables.symm⟩

theorem Awaits.eq_of_nil (h : Awaits cables done []) : done = cables := by
  obtain ⟨wires, hcables, hstream, -⟩ := h
  cases wires with
  | nil => rw [hcables, List.map_nil, List.append_nil]
  | cons wire wires =>
    have hlength := congrArg List.length hstream
    rw [cableStream_cons, List.length_append, Cable.bytes_length, List.length_nil] at hlength
    omega

theorem Awaits.first (h : Awaits cables done stream) (hne : stream ≠ []) : ∃ wire tail,
    14 + wire.length < 2 ^ 64 ∧ stream = (initCable wire).bytes ++ tail ∧
      Awaits cables (done ++ [initCable wire]) tail := by
  obtain ⟨wires, hcables, hstream, hfit⟩ := h
  cases wires with
  | nil => exact absurd hstream hne
  | cons wire wires =>
    refine ⟨wire, cableStream wires, hfit wire List.mem_cons_self, ?_, wires, ?_, rfl,
      fun w hw => hfit w (List.mem_cons_of_mem wire hw)⟩
    · rw [hstream, cableStream_cons]
    · rw [hcables, List.map_cons, List.append_assoc, List.singleton_append]

theorem Awaits.add (h : Awaits cables done stream) (hfit : 14 + wire.length < 2 ^ 64) :
    Awaits (cables ++ [initCable wire]) done (stream ++ (initCable wire).bytes) := by
  obtain ⟨wires, hcables, hstream, hfits⟩ := h
  refine ⟨wires ++ [wire], ?_, ?_, ?_⟩
  · rw [hcables, List.map_append, List.append_assoc]
    rfl
  · rw [hstream, cableStream, cableStream, List.flatMap_append, List.flatMap_singleton]
  · intro w hw
    rcases List.mem_append.mp hw with hw | hw
    · exact hfits w hw
    · rwa [List.mem_singleton.mp hw]

theorem Awaits.recvClient (h : Awaits cables done (arrived ++ more)) {segment : ℕ → ℕ} {c : Cable}
    {s' : Sock} (hwhole : (Traffic.connection arrived segment).portion cableSize = cableSize)
    (hrecv : recvClient (Traffic.connection arrived segment) = some (some c, s')) :
    ∃ wire, c = initCable wire ∧ 14 + wire.length < 2 ^ 64 ∧
      arrived = (initCable wire).bytes ++ s'.stream ∧
      Awaits cables (done ++ [c]) (s'.stream ++ more) := by
  have hne : arrived ++ more ≠ [] := by
    intro hnil
    rw [Sock.portion, Traffic.connection, (List.append_eq_nil_iff.mp hnil).1, cableSize] at hwhole
    simp at hwhole
  obtain ⟨wire, tail, hfit, hstream, hrest⟩ := h.first hne
  obtain ⟨rfl, rest, harrived, rfl, htail⟩ := recvClient_arrived hfit rfl hstream hwhole hrecv
  exact ⟨wire, rfl, hfit, harrived, htail ▸ hrest⟩

theorem Awaits.recvCable (h : Awaits cables done (arrived ++ more)) {segment : ℕ → ℕ} {c : Cable}
    {s' : Sock} (hrecv : recvCable (Traffic.connection arrived segment) = some (some c, s')) :
    ∃ wire, arrived = (initCable wire).bytes ++ s'.stream ∧
      Awaits cables (done ++ [c]) (s'.stream ++ more) := by
  have hne : arrived ++ more ≠ [] := by
    intro hnil
    rw [Traffic.connection, (List.append_eq_nil_iff.mp hnil).1, Parcel.recvCable,
      xrecvall_blocks _ _ (Nat.succ_pos 13) rfl] at hrecv
    cases hrecv
  obtain ⟨wire, tail, hfit, hstream, hrest⟩ := h.first hne
  obtain ⟨rfl, rest, harrived, rfl, htail⟩ := recvCable_arrived hfit rfl hstream hrecv
  exact ⟨wire, harrived, htail ▸ hrest⟩

end

section

variable {listening : ℕ} {srv : Server N} {wire : List UInt8}

theorem transferMessage_initCable (hfit : 14 + wire.length < 2 ^ 64) (i : ℕ) :
    transferMessage srv i (initCable wire) =
      ((List.range' 1 srv.cnt).filter (· != i)).map fun k =>
        (srv.slot k, (initCable wire).bytes) := by
  have htake : (initCable wire).bytes.take (cableGetTotalLen (initCable wire)) =
      (initCable wire).bytes := by
    apply List.take_of_length_le
    rw [initCable_totalLen hfit, Cable.bytes_length]
    rfl
  rw [transferMessage, htake]

theorem bytesFor_transferMessage (hinv : SlotInvariant listening srv) (beyond : ℕ) {fd dst : ℕ}
    (hfd : fd ∈ srv.clients) (hdst : dst ∈ srv.clients) (hfit : 14 + wire.length < 2 ^ 64) :
    bytesFor (transferMessage srv (socketIndex srv beyond fd) (initCable wire)) dst =
      if fd = dst then [] else (initCable wire).bytes := by
  obtain ⟨i, hi, hicnt, rfl⟩ := mem_clients.mp hfd
  obtain ⟨j, hj, hjcnt, rfl⟩ := mem_clients.mp hdst
  -- the recipient has one slot, so it is written to once
  have hone : ((List.range' 1 srv.cnt).filter (· != i)).filter
      (fun k => decide (srv.slot k = srv.slot j)) = if i = j then [] else [j] := by
    rw [List.filter_filter]
    have hslots : ∀ k ∈ List.range' 1 srv.cnt,
        (decide (srv.slot k = srv.slot j) && (k != i)) = (decide (i ≠ j) && decide (k = j)) := by
      intro k hk
      rw [List.mem_range'_1] at hk
      have hslot : srv.slot k = srv.slot j ↔ k = j :=
        ⟨hinv.distinct k j hk.1 (by omega) hj hjcnt, congrArg srv.slot⟩
      rw [Bool.eq_iff_iff]
      simp only [Bool.and_eq_true, decide_eq_true_eq, bne_iff_ne, hslot]
      constructor
      · rintro ⟨rfl, hne⟩
        exact ⟨hne.symm, rfl⟩
      · rintro ⟨hne, rfl⟩
        exact ⟨rfl, hne.symm⟩
    rw [List.filter_congr hslots]
    by_cases hij : i = j
    · simp [hij]
    · have hmem : j ∈ List.range' 1 srv.cnt := List.mem_range'_1.mpr ⟨hj, by omega⟩
      simp only [hij, ne_eq, not_false_eq_true, decide_true, Bool.true_and, if_false]
      rw [List.filter_eq, List.count_eq_one_of_mem List.nodup_range' hmem]
      rfl
  have hslot : srv.slot i = srv.slot j ↔ i = j :=
    ⟨hinv.distinct i j hi hicnt hj hjcnt, congrArg srv.slot⟩
  rw [socketIndex_slot hinv beyond hi hicnt, transferMessage_initCable hfit, bytesFor,
    List.filter_map]
  change (List.map _ (List.filter (fun k => decide (srv.slot k = srv.slot j)) _)).flatMap _ = _
  rw [hone]
  simp only [hslot]
  by_cases hij : i = j
  · rw [if_pos hij, if_pos hij]
    rfl
  · rw [if_neg hij, if_neg hij]
    exact List.append_nil _

end

namespace Traffic

/-! ## The order -/

/-- The cables of each client that the daemon has not read, and those of the others that it
has read and the client has not received, are under way. -/
structure Invariant (srv : Server N) (s : Traffic) : Prop where
  up : ∀ fd, Awaits ((s.said fd).map initCable) (sentBy s.log fd) (s.uplink fd ++ s.outgoing fd)
  down : ∀ fd ∈ srv.clients,
    Awaits (sentTo s.log fd) (s.heard fd) (s.downlink fd ++ bytesFor s.fanout fd)
  pieces : ∀ e ∈ s.fanout, e.2 ≠ []

section

variable {listening beyond : ℕ} {srv : Server N} {s s' : Traffic}

theorem quiet_invariant : quiet.Invariant srv :=
  ⟨fun _ => ⟨[], rfl, rfl, fun _ h => absurd h List.not_mem_nil⟩,
    fun _ _ => ⟨[], rfl, rfl, fun _ h => absurd h List.not_mem_nil⟩,
    fun _ h => absurd h List.not_mem_nil⟩

theorem Invariant.say (hinv : s.Invariant srv) {fd : ℕ} {wire : List UInt8}
    (hfit : 14 + wire.length < 2 ^ 64) (h : s.step srv beyond (.say fd wire) = some s') :
    s'.Invariant srv := by
  rw [step] at h
  split at h
  · rename_i hguard
    obtain rfl := Option.some.inj h
    refine ⟨fun x => ?_, hinv.down, hinv.pieces⟩
    have hup := hinv.up x
    by_cases hx : x = fd
    · subst hx
      simp only [update_self, List.map_append, List.map_singleton]
      rw [hguard.2, List.append_nil] at hup
      exact hup.add hfit
    · simpa only [update_of_ne hx] using hup
  · cases h

theorem send_eq {fd n : ℕ} (h : s.step srv beyond (.send fd n) = some s') :
    fd ∈ srv.clients ∧ 0 < n ∧ n ≤ (s.outgoing fd).length ∧
      s' = { s with
        outgoing := update s.outgoing fd ((s.outgoing fd).drop n)
        uplink := update s.uplink fd (s.uplink fd ++ (s.outgoing fd).take n) } := by
  rw [step] at h
  split at h
  · rename_i hguard
    exact ⟨hguard.1, hguard.2.1, hguard.2.2, (Option.some.inj h).symm⟩
  · cases h

theorem Invariant.send (hinv : s.Invariant srv) {fd n : ℕ}
    (h : s.step srv beyond (.send fd n) = some s') : s'.Invariant srv := by
  obtain ⟨-, -, -, rfl⟩ := send_eq h
  refine ⟨fun x => ?_, hinv.down, hinv.pieces⟩
  have hup := hinv.up x
  by_cases hx : x = fd
  · subst hx
    simp only [update_self, List.append_assoc, List.take_append_drop]
    exact hup
  · simpa only [update_of_ne hx] using hup

theorem serve_eq {fd : ℕ} {segment : ℕ → ℕ} (h : s.step srv beyond (.serve fd segment) = some s') :
    fd ∈ srv.clients ∧ s.fanout = [] ∧ ∃ cable rest,
      recvClient (connection (s.uplink fd) segment) = some (some cable, rest) ∧
      s' = { s with
        uplink := update s.uplink fd rest.stream
        fanout := transferMessage srv (socketIndex srv beyond fd) cable
        log := s.log ++ [(fd, cable)] } := by
  rw [step] at h
  split at h
  · rename_i hguard
    split at h
    · rename_i cable rest hrecv
      exact ⟨hguard.1, hguard.2, cable, rest, hrecv, (Option.some.inj h).symm⟩
    · cases h
  · cases h

theorem receive_eq {fd : ℕ} {segment : ℕ → ℕ}
    (h : s.step srv beyond (.receive fd segment) = some s') :
    fd ∈ srv.clients ∧ ∃ cable rest,
      recvCable (connection (s.downlink fd) segment) = some (some cable, rest) ∧
      s' = { s with
        downlink := update s.downlink fd rest.stream
        heard := update s.heard fd (s.heard fd ++ [cable]) } := by
  rw [step] at h
  split at h
  · rename_i hguard
    split at h
    · rename_i cable rest hrecv
      exact ⟨hguard, cable, rest, hrecv, (Option.some.inj h).symm⟩
    · cases h
  · cases h

theorem forward_eq {n : ℕ} (h : s.step srv beyond (.forward n) = some s') :
    ∃ fd bytes fanout, s.fanout = (fd, bytes) :: fanout ∧ 0 < n ∧ n ≤ bytes.length ∧
      s' = { s with
        fanout := if n = bytes.length then fanout else (fd, bytes.drop n) :: fanout
        downlink := update s.downlink fd (s.downlink fd ++ bytes.take n) } := by
  rw [step] at h
  split at h
  · cases h
  · rename_i fd bytes fanout hfanout
    split at h
    · rename_i hguard
      exact ⟨fd, bytes, fanout, hfanout, hguard.1, hguard.2, (Option.some.inj h).symm⟩
    · cases h

theorem Invariant.serve (hinv : s.Invariant srv) (hslots : SlotInvariant listening srv) {fd : ℕ}
    {segment : ℕ → ℕ} (hwhole : (connection (s.uplink fd) segment).portion cableSize = cableSize)
    (h : s.step srv beyond (.serve fd segment) = some s') : s'.Invariant srv := by
  obtain ⟨hfd, hempty, cable, rest, hrecv, rfl⟩ := serve_eq h
  obtain ⟨wire, rfl, hfit, -, hread⟩ := (hinv.up fd).recvClient hwhole hrecv
  refine ⟨fun x => ?_, fun x hx => ?_, fun e he => ?_⟩
  · have hup := hinv.up x
    rw [sentBy_concat]
    by_cases hx : x = fd
    · subst hx
      simp only [update_self, if_true]
      exact hread
    · simpa only [update_of_ne hx, if_neg (Ne.symm hx), List.append_nil] using hup
  · have hdown := hinv.down x hx
    rw [hempty, bytesFor, List.filter_nil, List.flatMap_nil, List.append_nil] at hdown
    simp only [sentTo_concat, bytesFor_transferMessage hslots beyond hfd hx hfit]
    by_cases hsender : fd = x
    · simpa only [if_pos hsender, List.append_nil] using hdown
    · simpa only [if_neg hsender] using hdown.add hfit
  · rw [transferMessage_initCable hfit, List.mem_map] at he
    obtain ⟨k, -, rfl⟩ := he
    refine List.ne_nil_of_length_pos ?_
    rw [Cable.bytes_length]
    omega

theorem Invariant.forward (hinv : s.Invariant srv) {n : ℕ}
    (h : s.step srv beyond (.forward n) = some s') : s'.Invariant srv := by
  obtain ⟨fd, bytes, fanout, hfanout, hpos, hle, rfl⟩ := forward_eq h
  have hrest (x : ℕ) :
      bytesFor (if n = bytes.length then fanout else (fd, bytes.drop n) :: fanout) x =
      (if fd = x then bytes.drop n else []) ++ bytesFor fanout x := by
    split
    · rename_i hall
      rw [hall, List.drop_length, ite_self, List.nil_append]
    · exact bytesFor_cons fd x _ fanout
  refine ⟨hinv.up, fun x hx => ?_, fun e he => ?_⟩
  · have hdown := hinv.down x hx
    rw [hfanout, bytesFor_cons] at hdown
    simp only [hrest]
    by_cases hfd : x = fd
    · subst hfd
      simp only [update_self, if_true, List.append_assoc] at hdown ⊢
      rwa [← List.append_assoc (bytes.take n), List.take_append_drop]
    · simpa only [update_of_ne hfd, if_neg (Ne.symm hfd)] using hdown
  · have hpieces := hinv.pieces
    rw [hfanout] at hpieces
    split at he
    · exact hpieces e (List.mem_cons_of_mem _ he)
    · rcases List.mem_cons.mp he with rfl | he
      · refine List.ne_nil_of_length_pos ?_
        rw [List.length_drop]
        omega
      · exact hpieces e (List.mem_cons_of_mem _ he)

theorem Invariant.receive (hinv : s.Invariant srv) {fd : ℕ} {segment : ℕ → ℕ}
    (h : s.step srv beyond (.receive fd segment) = some s') : s'.Invariant srv := by
  obtain ⟨hfd, cable, rest, hrecv, rfl⟩ := receive_eq h
  obtain ⟨wire, -, hread⟩ := (hinv.down fd hfd).recvCable hrecv
  refine ⟨hinv.up, fun x hx => ?_, hinv.pieces⟩
  have hdown := hinv.down x hx
  by_cases hx : x = fd
  · subst hx
    simp only [update_self]
    exact hread
  · simpa only [update_of_ne hx] using hdown

theorem Invariant.next (hinv : s.Invariant srv) (hslots : SlotInvariant listening srv)
    {a : Transfer} (hregular : s.Regular a) (h : s.step srv beyond a = some s') :
    s'.Invariant srv := by
  cases a with
  | say fd wire => exact hinv.say hregular h
  | send fd n => exact hinv.send h
  | serve fd segment => exact hinv.serve hslots hregular h
  | forward n => exact hinv.forward h
  | receive fd segment => exact hinv.receive h

theorem Reached.invariant (hs : s.Reached srv beyond) (hslots : SlotInvariant listening srv) :
    s.Invariant srv := by
  induction hs with
  | start => exact quiet_invariant
  | next _ hregular h ih => exact ih.next hslots hregular h

/-! ## Delivery -/

structure Quiet (srv : Server N) (s : Traffic) : Prop where
  outgoing : ∀ fd ∈ srv.clients, s.outgoing fd = []
  uplink : ∀ fd ∈ srv.clients, s.uplink fd = []
  fanout : s.fanout = []
  downlink : ∀ fd ∈ srv.clients, s.downlink fd = []

theorem serve_whole {fd : ℕ} (hfd : fd ∈ srv.clients) (hempty : s.fanout = [])
    {wire tail : List UInt8} (hfit : 14 + wire.length < 2 ^ 64)
    (hup : s.uplink fd = (initCable wire).bytes ++ tail) :
    ∃ segment s', s.Regular (.serve fd segment) ∧
      s.step srv beyond (.serve fd segment) = some s' := by
  have hlength := congrArg List.length hup
  rw [List.length_append, Cable.bytes_length] at hlength
  have hheader : 14 ≤ (s.uplink fd).length := by omega
  have hwhole : (connection (s.uplink fd) fun _ => 14).portion 14 = 14 :=
    min_eq_left (le_min hheader le_rfl)
  have hne : (connection (s.uplink fd) fun _ => 14).stream ≠ [] :=
    List.ne_nil_of_length_pos (show 0 < (s.uplink fd).length by omega)
  have hrecv := recvClient_eq hne
  rw [hwhole, cableRecvData_hidden hfit hup le_rfl (Or.inl rfl)] at hrecv
  have hstep : ∃ s', s.step srv beyond (.serve fd fun _ => 14) = some s' := by
    rw [step, if_pos ⟨hfd, hempty⟩, hrecv]
    exact ⟨_, rfl⟩
  obtain ⟨s', hs'⟩ := hstep
  exact ⟨fun _ => 14, s', hwhole, hs'⟩

theorem Invariant.progress (hinv : s.Invariant srv) (hquiet : ¬s.Quiet srv) :
    ∃ a s', a.Delivers ∧ s.Regular a ∧ s.step srv beyond a = some s' := by
  -- something is left to send, to forward, to serve or to receive, looked for in this order
  by_cases hout : ∃ fd ∈ srv.clients, s.outgoing fd ≠ []
  · obtain ⟨fd, hfd, hne⟩ := hout
    exact ⟨.send fd (s.outgoing fd).length, _, trivial, trivial,
      if_pos ⟨hfd, List.length_pos_of_ne_nil hne, le_rfl⟩⟩
  push Not at hout
  cases hfanout : s.fanout with
  | cons e fanout =>
    obtain ⟨fd, bytes⟩ := e
    have hne : bytes ≠ [] := hinv.pieces (fd, bytes) (hfanout ▸ List.mem_cons_self)
    have hstep : ∃ s', s.step srv beyond (.forward bytes.length) = some s' := by
      rw [step, hfanout]
      exact ⟨_, if_pos ⟨List.length_pos_of_ne_nil hne, le_rfl⟩⟩
    obtain ⟨s', hs'⟩ := hstep
    exact ⟨.forward bytes.length, s', trivial, trivial, hs'⟩
  | nil =>
    by_cases hup : ∃ fd ∈ srv.clients, s.uplink fd ≠ []
    · -- a client that is not sending has sent whole cables
      obtain ⟨fd, hfd, hne⟩ := hup
      have hwaits := hinv.up fd
      rw [hout fd hfd, List.append_nil] at hwaits
      obtain ⟨wire, tail, hfit, hstream, -⟩ := hwaits.first hne
      obtain ⟨segment, s', hregular, hs'⟩ := serve_whole hfd hfanout hfit hstream
      exact ⟨.serve fd segment, s', trivial, hregular, hs'⟩
    · push Not at hup
      -- there is nothing before the last queue, so it is not empty
      have hdown : ∃ fd ∈ srv.clients, s.downlink fd ≠ [] := by
        by_contra hnone
        push Not at hnone
        exact hquiet ⟨hout, hup, hfanout, hnone⟩
      obtain ⟨fd, hfd, hne⟩ := hdown
      have hwaits := hinv.down fd hfd
      rw [hfanout, bytesFor, List.filter_nil, List.flatMap_nil, List.append_nil] at hwaits
      obtain ⟨wire, tail, hfit, hstream, -⟩ := hwaits.first hne
      have hrecv := recvCable_eq (s := connection (s.downlink fd) fun _ => 14) hfit hstream
      have hstep : ∃ s', s.step srv beyond (.receive fd fun _ => 14) = some s' := by
        rw [step, if_pos hfd, hrecv]
        exact ⟨_, rfl⟩
      obtain ⟨s', hs'⟩ := hstep
      exact ⟨.receive fd fun _ => 14, s', trivial, trivial, hs'⟩

/-- What the cables of a client still cost: a byte that the daemon has not read can become
two steps for every client. -/
def load (srv : Server N) (s : Traffic) (fd : ℕ) : ℕ :=
  (2 * srv.cnt + 1) * (s.outgoing fd).length + 2 * srv.cnt * (s.uplink fd).length +
    (s.downlink fd).length

def weight (srv : Server N) (s : Traffic) : ℕ :=
  ∑ fd ∈ srv.clients, s.load srv fd + 2 * (s.fanout.map fun e => e.2.length).sum

theorem load_sum {fd : ℕ} (hfd : fd ∈ srv.clients)
    (hother : ∀ x, x ≠ fd → s'.load srv x = s.load srv x) :
    ∑ x ∈ srv.clients, s'.load srv x + s.load srv fd =
      ∑ x ∈ srv.clients, s.load srv x + s'.load srv fd := by
  have herase : ∑ x ∈ srv.clients.erase fd, s'.load srv x =
      ∑ x ∈ srv.clients.erase fd, s.load srv x :=
    Finset.sum_congr rfl fun x hx => hother x (Finset.ne_of_mem_erase hx)
  rw [← Finset.sum_erase_add _ _ hfd, ← Finset.sum_erase_add _ _ hfd, herase]
  ring

theorem send_weight {fd n : ℕ} (h : s.step srv beyond (.send fd n) = some s') :
    s'.weight srv < s.weight srv := by
  obtain ⟨hfd, hpos, hle, hs'⟩ := send_eq h
  have hother (x : ℕ) (hx : x ≠ fd) : s'.load srv x = s.load srv x := by
    simp only [hs', load, update_of_ne hx]
  have hload : s.load srv fd = s'.load srv fd + n := by
    obtain ⟨k, hk⟩ := Nat.exists_eq_add_of_le hle
    have hdrop : ((s.outgoing fd).drop n).length = k := by
      rw [List.length_drop, hk, Nat.add_sub_cancel_left]
    have htake : ((s.outgoing fd).take n).length = n := by
      rw [List.length_take, min_eq_left hle]
    simp only [hs', load, update_self, List.length_append, hdrop, htake, hk]
    ring
  have hpieces : s'.fanout = s.fanout := by rw [hs']
  have hsum := load_sum hfd hother
  unfold weight
  rw [hpieces]
  omega

theorem fanout_length {wire : List UInt8} (hfit : 14 + wire.length < 2 ^ 64) {i : ℕ} (hi : 1 ≤ i)
    (hcnt : i ≤ srv.cnt) :
    ((transferMessage srv i (initCable wire)).map fun e => e.2.length).sum + (14 + wire.length) ≤
      srv.cnt * (14 + wire.length) := by
  have hothers : ((List.range' 1 srv.cnt).filter (· != i)).length <
    (List.range' 1 srv.cnt).length :=
    List.length_filter_lt_length_iff_exists.mpr
      ⟨i, List.mem_range'_1.mpr ⟨hi, by omega⟩, by simp⟩
  have hlength : (initCable wire).bytes.length = 14 + wire.length := Cable.bytes_length _
  rw [List.length_range'] at hothers
  rw [transferMessage_initCable hfit, List.map_map]
  generalize (List.range' 1 srv.cnt).filter (· != i) = others at hothers ⊢
  have hsum : (others.map ((fun e : ℕ × List UInt8 => e.2.length) ∘
      fun k => (srv.slot k, (initCable wire).bytes))).sum = others.length * (14 + wire.length) := by
    rw [← hlength]
    exact (congrArg List.sum List.map_const').trans List.sum_replicate_nat
  rw [hsum, ← Nat.succ_mul]
  exact Nat.mul_le_mul_right _ hothers

theorem serve_weight (hinv : s.Invariant srv) (hslots : SlotInvariant listening srv) {fd : ℕ}
    {segment : ℕ → ℕ} (hwhole : (connection (s.uplink fd) segment).portion cableSize = cableSize)
    (h : s.step srv beyond (.serve fd segment) = some s') : s'.weight srv < s.weight srv := by
  obtain ⟨hfd, hempty, cable, rest, hrecv, hs'⟩ := serve_eq h
  obtain ⟨wire, rfl, hfit, harrived, -⟩ := (hinv.up fd).recvClient hwhole hrecv
  obtain ⟨i, hi, hicnt, rfl⟩ := mem_clients.mp hfd
  have hfanout : (s'.fanout.map fun e => e.2.length).sum + (14 + wire.length) ≤
      srv.cnt * (14 + wire.length) := by
    rw [hs', socketIndex_slot hslots beyond hi hicnt]
    exact fanout_length hfit hi hicnt
  have hother (x : ℕ) (hx : x ≠ srv.slot i) : s'.load srv x = s.load srv x := by
    simp only [hs', load, update_of_ne hx]
  have hsum := load_sum hfd hother
  have hlength : (s.uplink (srv.slot i)).length = 14 + wire.length + rest.stream.length := by
    rw [harrived, List.length_append, Cable.bytes_length]
    rfl
  have hload : s.load srv (srv.slot i) = s'.load srv (srv.slot i) +
      2 * (srv.cnt * (14 + wire.length)) := by
    simp only [hs', load, update_self, hlength]
    ring
  unfold weight
  rw [hempty, List.map_nil, List.sum_nil]
  omega

theorem forward_weight {n : ℕ} (h : s.step srv beyond (.forward n) = some s') :
    s'.weight srv < s.weight srv := by
  obtain ⟨fd, bytes, fanout, hfanout, hpos, hle, hs'⟩ := forward_eq h
  have hpieces : (s.fanout.map fun e => e.2.length).sum =
      (s'.fanout.map fun e => e.2.length).sum + n := by
    rw [hfanout, hs', List.map_cons, List.sum_cons]
    dsimp only
    split
    · omega
    · rw [List.map_cons, List.sum_cons, List.length_drop]
      omega
  have hother (x : ℕ) (hx : x ≠ fd) : s'.load srv x = s.load srv x := by
    simp only [hs', load, update_of_ne hx]
  have hloads : ∑ x ∈ srv.clients, s'.load srv x ≤ ∑ x ∈ srv.clients, s.load srv x + n := by
    by_cases hfd : fd ∈ srv.clients
    · have hsum := load_sum hfd hother
      have hload : s'.load srv fd = s.load srv fd + n := by
        simp only [hs', load, update_self, List.length_append, List.length_take, min_eq_left hle]
        ring
      omega
    · have hsame : ∑ x ∈ srv.clients, s'.load srv x = ∑ x ∈ srv.clients, s.load srv x :=
        Finset.sum_congr rfl fun x hx => hother x fun heq => hfd (heq ▸ hx)
      omega
  unfold weight
  omega

theorem receive_weight (hinv : s.Invariant srv) {fd : ℕ} {segment : ℕ → ℕ}
    (h : s.step srv beyond (.receive fd segment) = some s') : s'.weight srv < s.weight srv := by
  obtain ⟨hfd, cable, rest, hrecv, hs'⟩ := receive_eq h
  obtain ⟨wire, harrived, -⟩ := (hinv.down fd hfd).recvCable hrecv
  have hother (x : ℕ) (hx : x ≠ fd) : s'.load srv x = s.load srv x := by
    simp only [hs', load, update_of_ne hx]
  have hsum := load_sum hfd hother
  have hlength : (s.downlink fd).length = 14 + wire.length + rest.stream.length := by
    rw [harrived, List.length_append, Cable.bytes_length]
    rfl
  have hload : s.load srv fd = s'.load srv fd + (14 + wire.length) := by
    simp only [hs', load, update_self, hlength]
    ring
  have hpieces : s'.fanout = s.fanout := by rw [hs']
  unfold weight
  rw [hpieces]
  omega

theorem Invariant.weight_lt (hinv : s.Invariant srv) (hslots : SlotInvariant listening srv)
    {a : Transfer} (hdelivers : a.Delivers) (hregular : s.Regular a)
    (h : s.step srv beyond a = some s') : s'.weight srv < s.weight srv := by
  cases a with
  | say fd wire => exact hdelivers.elim
  | send fd n => exact send_weight h
  | serve fd segment => exact serve_weight hinv hslots hregular h
  | forward n => exact forward_weight h
  | receive fd segment => exact receive_weight hinv h

end

end Traffic

/-- Every client receives the cables of the others, each once, in the one order in which the
daemon has read them, and so those of each client in the order in which it sent them. While
something is under way a step is possible, and the steps end; then all that was sent has
been received. -/
theorem broadcast_total_order (listening beyond : ℕ) (srv : Server N)
    (hslots : SlotInvariant listening srv) (s : Traffic) (hs : s.Reached srv beyond) :
    (∀ fd ∈ srv.clients, sentBy s.log fd <+: (s.said fd).map initCable ∧
      s.heard fd <+: sentTo s.log fd) ∧
    (s.Quiet srv → ∀ fd ∈ srv.clients, sentBy s.log fd = (s.said fd).map initCable ∧
      s.heard fd = sentTo s.log fd) ∧
    (¬s.Quiet srv → ∃ a s', a.Delivers ∧ s.Regular a ∧ s.step srv beyond a = some s') ∧
    ∀ a s', a.Delivers → s.Regular a → s.step srv beyond a = some s' →
      s'.weight srv < s.weight srv := by
  have hinv := hs.invariant hslots
  refine ⟨fun fd hfd => ⟨(hinv.up fd).done_initial, (hinv.down fd hfd).done_initial⟩, ?_,
    hinv.progress, fun a s' hdelivers hregular h => hinv.weight_lt hslots hdelivers hregular h⟩
  intro hquiet fd hfd
  have hup := hinv.up fd
  have hdown := hinv.down fd hfd
  rw [hquiet.uplink fd hfd, hquiet.outgoing fd hfd] at hup
  rw [hquiet.downlink fd hfd, hquiet.fanout] at hdown
  exact ⟨hup.eq_of_nil, hdown.eq_of_nil⟩

theorem twoSlots_invariant : SlotInvariant 3 twoSlots := by
  have hdistinct : ∀ i ≤ 2, ∀ j ≤ 2, 1 ≤ i → 1 ≤ j → twoSlots.slot i = twoSlots.slot j → i = j := by
    decide
  refine ⟨by decide, fun i j hi hi' hj hj' heq => hdistinct i hi' j hj' hi hj heq, ?_, rfl,
    by decide, by decide, by decide, by decide⟩
  intro i hlt hle
  have hthree : i = 3 := Nat.le_antisymm (Nat.le_of_lt_succ hle) hlt
  rw [hthree]
  rfl

/-- The client on descriptor 7 has begun to send a cable. -/
def Traffic.begun (wire : List UInt8) : Traffic :=
  { Traffic.quiet with
    outgoing := update (fun _ => []) 7 (initCable wire).bytes
    said := update (fun _ => []) 7 [wire] }

theorem begun_reached {wire : List UInt8} (hfit : 14 + wire.length < 2 ^ 64) :
    (Traffic.begun wire).Reached twoSlots 0 := by
  have hclient : 7 ∈ twoSlots.clients := by decide
  have hstep : Traffic.quiet.step twoSlots 0 (.say 7 wire) = some (.begun wire) := by
    rw [Traffic.step, if_pos ⟨hclient, rfl⟩]
    rfl
  have hregular : Traffic.quiet.Regular (.say 7 wire) := hfit
  exact .next .start hregular hstep

/-- A cable from one of two clients to the other. -/
theorem broadcast_total_order_begun : (Traffic.begun [1, 2, 3]).Reached twoSlots 0 ∧
    ∃ a s', a.Delivers ∧ (Traffic.begun [1, 2, 3]).Regular a ∧
      (Traffic.begun [1, 2, 3]).step twoSlots 0 a = some s' ∧
      s'.weight twoSlots < (Traffic.begun [1, 2, 3]).weight twoSlots := by
  have hbegun := @begun_reached [1, 2, 3] (by decide)
  obtain ⟨-, -, hprogress, hweight⟩ := broadcast_total_order 3 0 twoSlots twoSlots_invariant _
    hbegun
  have hbusy : ¬(Traffic.begun [1, 2, 3]).Quiet twoSlots := by
    intro hquiet
    have hnil := congrArg List.length (hquiet.outgoing 7 (by decide))
    rw [Traffic.begun] at hnil
    dsimp only at hnil
    rw [update_self, Cable.bytes_length] at hnil
    exact absurd hnil (Nat.succ_ne_zero _)
  obtain ⟨a, s', hdelivers, hregular, hs'⟩ := hprogress hbusy
  exact ⟨hbegun, a, s', hdelivers, hregular, hs', hweight a s' hdelivers hregular hs'⟩

end Parcel
