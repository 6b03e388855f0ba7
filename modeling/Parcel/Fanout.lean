import Parcel.DaemonRuns
import Parcel.Segmentation

/-!
# Fan-out

One pass of the loop in `main_thread` over the descriptors that `select` reported.
The ready set is from before the pass, while the turns of the pass accept and
close connections. Every turn of a client finds it in its slot, and what it sent
goes to the other clients.
-/

namespace Parcel

variable {N : ℕ}

/-- The POSIX branch of `xfd_isset`, which returns `0` for a descriptor that is not set. -/
def xfdIsset (set : Finset ℕ) (index : ℕ) : ℕ := if index ∈ set then index else 0

/-- The function `socket_index`. Its loop also compares the element after the last
one, which is outside the table; `beyond` is what it reads there. -/
def socketIndex (srv : Server N) (beyond socket : ℕ) : ℕ :=
  match (List.range' 1 N).find? fun i => (if i < N then srv.slot i else beyond) == socket with
  | some i => i
  | none => 0

/-- The function `transfer_message`, all sends succeeding: what is sent, and on
which sockets. -/
def transferMessage (srv : Server N) (senderIndex : ℕ) (cable : Cable) : List (ℕ × List UInt8) :=
  ((List.range' 1 srv.cnt).filter (· != senderIndex)).map fun i =>
    (srv.slot i, cable.bytes.take (cableGetTotalLen cable))

/-- The calls of one turn: those of `add_client`, what `recv_client` finds on the
socket, and those of `daemon_handle_disconnect`. -/
structure Turn where
  joining : Joining
  sock : Sock
  closed : Bool
  exchange : Exchange

/-- Where the daemon is after a turn: in the loop, in a `recv` that does not
return, or at its end. -/
inductive Status
  | running | blocked | halted (halt : Halt)
  deriving DecidableEq, Repr

/-- The daemon after it has served an event. -/
def served (srv : Server N) (e : Event) : Status × Server N :=
  match serve srv e with
  | .ok srv => (.running, srv)
  | .error halt => (.halted halt, srv)

/-- The function `recv_client`: where the daemon is, its tables, and the cable that
was read with what was sent of it. -/
def Server.recvClient (srv : Server N) (senderIndex : ℕ) (t : Turn) :
    Status × Server N × Option (Cable × List (ℕ × List UInt8)) :=
  match xrecv t.sock cableSize with
  | .blocks => (.blocked, srv, none)
  | .closed =>
    let r := served srv (.hangup senderIndex true t.closed t.exchange)
    (r.1, r.2, none)
  | .failed =>
    let r := served srv (.hangup senderIndex false t.closed t.exchange)
    (r.1, r.2, none)
  | .bytes got rest =>
    match cableRecvData rest (Cable.ofHeader got) with
    | none => (.blocked, srv, none)
    | some (none, _) => (.halted .returned, srv, none)
    | some (some cable, _) =>
      (.running, srv, some (cable, transferMessage srv senderIndex cable))

/-- A turn of a client, as it is recorded: its descriptor, the tables at that
moment, the index that `socket_index` returned, and the cable that was read. -/
structure Handled (N : ℕ) where
  fd : ℕ
  srv : Server N
  index : ℕ
  read : Option (Cable × List (ℕ × List UInt8))

/-- A pass: the tables, the loop variable, and the turns of clients so far. -/
structure Pass (N : ℕ) where
  status : Status
  srv : Server N
  i : ℕ
  handled : List (Handled N)

namespace Pass

def next (p : Pass N) (status : Status) (srv : Server N) (handled : List (Handled N)) : Pass N :=
  ⟨status, srv, p.i + 1, p.handled ++ handled⟩

/-- One turn of the inner loop of `main_thread`. -/
def turn (rdy : Finset ℕ) (beyond : ℕ) (env : ℕ → Turn) (p : Pass N) : Pass N :=
  if p.status ≠ .running ∨ p.srv.nfds < p.i then p
  else
    let fd := xfdIsset rdy p.i
    if fd = 0 then p.next .running p.srv []
    else if fd = p.srv.slot 0 then
      let r := served p.srv (.connection (env p.i).joining)
      p.next r.1 r.2 []
    else
      let senderIndex := socketIndex p.srv beyond fd
      let r := p.srv.recvClient senderIndex (env p.i)
      p.next r.1 r.2.1 [⟨fd, p.srv, senderIndex, r.2.2⟩]

def after (rdy : Finset ℕ) (beyond : ℕ) (env : ℕ → Turn) (srv : Server N) (n : ℕ) : Pass N :=
  (turn rdy beyond env)^[n] ⟨.running, srv, 0, []⟩

end Pass

/-- The cable goes out in full, once to every other client and not to its sender. -/
structure Handled.Exact (h : Handled N) (cable : Cable) (sends : List (ℕ × List UInt8)) : Prop where
  once : (sends.map Prod.fst).Nodup
  others : ∀ fd, fd ∈ sends.map Prod.fst ↔ fd ∈ h.srv.clients ∧ fd ≠ h.fd
  bytes : ∀ send ∈ sends, send.2 <+: cable.bytes ∧ send.2.length = cableGetTotalLen cable

/-- The client is in its slot, and what it sent goes to the others. -/
structure Handled.Faithful (h : Handled N) : Prop where
  first : 1 ≤ h.index
  last : h.index ≤ h.srv.cnt
  slot : h.srv.slot h.index = h.fd
  fanout : ∀ cable sends, h.read = some (cable, sends) → h.Exact cable sends

/-- The descriptors that `accept` returns are not open at that moment. -/
def Accepts (env : ℕ → Turn) (p : Pass N) : Prop :=
  ∀ fd, (env p.i).joining.accept = some fd → p.srv.Fresh fd

/-! ## One turn -/

section

variable {listening : ℕ} {srv : Server N}

theorem socketIndex_slot (hinv : SlotInvariant listening srv) (beyond : ℕ) {i : ℕ} (hi : 1 ≤ i)
    (hcnt : i ≤ srv.cnt) : socketIndex srv beyond (srv.slot i) = i := by
  have hN : srv.cnt < N := by
    have := hinv.bounded
    omega
  have hfind : (List.range' 1 N).find?
      (fun j => (if j < N then srv.slot j else beyond) == srv.slot i) =
      some i := by
    rw [List.find?_eq_some_iff_getElem]
    refine ⟨by rw [if_pos (by omega)]; exact beq_self_eq_true _, i - 1, ?_, ?_, ?_⟩
    · rw [List.length_range']
      omega
    · rw [List.getElem_range']
      omega
    · intro j hj
      rw [List.getElem_range', if_pos (by omega), Bool.not_eq_true', beq_eq_false_iff_ne]
      intro heq
      have := hinv.distinct (1 + 1 * j) i (by omega) (by omega) hi hcnt heq
      omega
  rw [socketIndex, hfind]

theorem mem_transferMessage {senderIndex fd : ℕ} {cable : Cable} :
    fd ∈ (transferMessage srv senderIndex cable).map Prod.fst ↔
      ∃ i, 1 ≤ i ∧ i ≤ srv.cnt ∧ i ≠ senderIndex ∧ srv.slot i = fd := by
  rw [transferMessage, List.map_map, List.mem_map]
  constructor
  · rintro ⟨i, hi, rfl⟩
    rw [List.mem_filter, List.mem_range'_1, bne_iff_ne] at hi
    exact ⟨i, hi.1.1, by omega, hi.2, rfl⟩
  · rintro ⟨i, hi, hcnt, hne, rfl⟩
    refine ⟨i, ?_, rfl⟩
    rw [List.mem_filter, List.mem_range'_1, bne_iff_ne]
    exact ⟨⟨hi, by omega⟩, hne⟩

theorem totalLen_le_bytes {s s' : Sock} {c cable : Cable}
    (h : cableRecvData s c = some (some cable, s')) :
    cableGetTotalLen cable ≤ cable.bytes.length := by
  obtain ⟨-, hheader, hrecv⟩ := cableRecvData_some h
  have hlen := xrecvall_length hrecv
  have htotal : cableGetTotalLen cable = cableGetTotalLen c := by
    rw [cableGetTotalLen, cableGetTotalLen, (Cable.header_injective hheader).2]
  have hlt : cableGetTotalLen c < 2 ^ 64 := wirePack64_lt c.len
  rw [cableGetPayloadLen, cableSize] at hlen
  rw [Cable.bytes_length, hlen, htotal]
  -- a length below that of the header makes the payload length wrap
  by_cases hshort : cableGetTotalLen c < 14
  · omega
  · rw [sizeSub_eq (by omega) hlt]
    omega

theorem transferMessage_exact (hinv : SlotInvariant listening srv) {i : ℕ} (hi : 1 ≤ i)
    (hcnt : i ≤ srv.cnt) {s s' : Sock} {c cable : Cable}
    (h : cableRecvData s c = some (some cable, s')) (r : Option (Cable × List (ℕ × List UInt8))) :
    Handled.Exact ⟨srv.slot i, srv, i, r⟩ cable (transferMessage srv i cable) := by
  constructor
  · rw [transferMessage, List.map_map]
    apply List.Nodup.map_on
    · intro j hj k hk heq
      rw [List.mem_filter, List.mem_range'_1] at hj hk
      exact hinv.distinct j k (by omega) (by omega) (by omega) (by omega) heq
    · exact List.Nodup.filter _ List.nodup_range'
  · intro fd
    rw [mem_transferMessage, mem_clients]
    constructor
    · rintro ⟨j, hj, hjcnt, hne, rfl⟩
      refine ⟨⟨j, hj, hjcnt, rfl⟩, fun heq => hne ?_⟩
      exact hinv.distinct j i hj hjcnt hi hcnt heq
    · rintro ⟨⟨j, hj, hjcnt, rfl⟩, hne⟩
      exact ⟨j, hj, hjcnt, fun heq => hne (by rw [heq]), rfl⟩
  · intro send hsend
    obtain ⟨j, -, rfl⟩ := List.mem_map.mp hsend
    refine ⟨List.take_prefix _ _, ?_⟩
    rw [List.length_take]
    exact min_eq_left (totalLen_le_bytes h)

theorem recvClient_faithful (hinv : SlotInvariant listening srv) {i : ℕ} (hi : 1 ≤ i)
    (hcnt : i ≤ srv.cnt) (t : Turn) :
    Handled.Faithful ⟨srv.slot i, srv, i, (srv.recvClient i t).2.2⟩ := by
  refine ⟨hi, hcnt, rfl, fun cable sends hread => ?_⟩
  have hread : (srv.recvClient i t).2.2 = some (cable, sends) := hread
  unfold Server.recvClient at hread
  split at hread
  · cases hread
  · cases hread
  · cases hread
  · split at hread
    · cases hread
    · cases hread
    next got rest _ _ c s' hrecv =>
      obtain ⟨rfl, rfl⟩ := Prod.mk.inj (Option.some.inj hread)
      exact transferMessage_exact hinv hi hcnt hrecv _

/-- What a turn leaves of the tables, if the loop goes on: they are in order, the
clients other than that of the turn are there, and no descriptor is above the maximum. -/
structure Kept (listening fd : ℕ) (srv srv' : Server N) : Prop where
  slots : SlotInvariant listening srv'
  clients : ∀ x ∈ srv.clients, x ≠ fd → x ∈ srv'.clients
  nfds : srv.nfds ≤ srv'.nfds

theorem Kept.refl (hinv : SlotInvariant listening srv) (fd : ℕ) : Kept listening fd srv srv :=
  ⟨hinv, fun _ hx _ => hx, le_rfl⟩

theorem served_running {e : Event} (h : (served srv e).1 = .running) :
    serve srv e = .ok (served srv e).2 := by
  unfold served at h ⊢
  split at h
  next srv' hserve => rw [hserve]
  · cases h

theorem served_hangup_kept (hinv : SlotInvariant listening srv) {i : ℕ} (hi : 1 ≤ i)
    (hcnt : i ≤ srv.cnt) {clean closed : Bool} {ex : Exchange}
    (h : (served srv (.hangup i clean closed ex)).1 = .running) :
    Kept listening (srv.slot i) srv (served srv (.hangup i clean closed ex)).2 := by
  have hserve := served_running h
  generalize (served srv (.hangup i clean closed ex)).2 = srv' at hserve ⊢
  obtain ⟨key, rfl⟩ : ∃ key, srv' = { disconnectClient srv i with serverKey := key } := by
    rw [serve, daemonHandleDisconnect] at hserve
    split at hserve
    · cases hserve
    · cases hserve
    next srv₁ hleave =>
      obtain rfl := Except.ok.inj hserve
      split at hleave
      · cases hleave
      · obtain ⟨r, -, hr⟩ := Option.map_eq_some_iff.mp hleave
        exact ⟨r.2, (Prod.mk.inj hr).2.symm⟩
  obtain ⟨-, -, hnfds⟩ := left_fields srv i
  refine ⟨(disconnectClient_invariant hinv hi hcnt).withKey key, ?_, ?_⟩
  · intro x hx hne
    show x ∈ (disconnectClient srv i).clients
    rw [left_clients hinv hi hcnt]
    exact Finset.mem_erase.mpr ⟨hne, hx⟩
  · exact hnfds.ge

theorem served_connection_kept (hinv : SlotInvariant listening srv) (hN : 0 < N) {c : Joining}
    (hfresh : ∀ fd, c.accept = some fd → srv.Fresh fd)
    (h : (served srv (.connection c)).1 = .running) (fd : ℕ) :
    Kept listening fd srv (served srv (.connection c)).2 := by
  have hserve := served_running h
  generalize (served srv (.connection c)).2 = srv' at hserve ⊢
  rw [serve] at hserve
  cases haccept : c.accept with
  | none =>
    rw [addClient, haccept] at hserve
    cases hserve
  | some new =>
    -- a full table turns the client away
    by_cases hfull : srv.cnt + 1 = N
    · rw [addClient_full haccept hfull] at hserve
      obtain rfl := Except.ok.inj hserve
      exact Kept.refl hinv fd
    · have hroom : srv.cnt + 1 < N := by
        have := hinv.bounded
        omega
      obtain ⟨key, rfl⟩ : ∃ key, srv' = { (srv.watch new).setSlot srv.freeSlot new with
          serverKey := key } := by
        split at hserve
        · cases hserve
        · cases hserve
        next srv₁ hadd => exact absurd (addClient_rejected hadd) hfull
        next srv₁ hadd =>
          obtain rfl := Except.ok.inj hserve
          exact (addClient_added haccept hadd).2
      refine ⟨(joined_invariant hinv hroom (hfresh new haccept)).withKey key, ?_, ?_⟩
      · intro x hx _
        show x ∈ ((srv.watch new).setSlot srv.freeSlot new).clients
        rw [joined_clients hinv hroom]
        exact Finset.mem_insert_of_mem hx
      · show srv.nfds ≤ xfdCount new srv.nfds
        unfold xfdCount
        split <;> omega

theorem recvClient_kept (hinv : SlotInvariant listening srv) {i : ℕ} (hi : 1 ≤ i)
    (hcnt : i ≤ srv.cnt) {t : Turn} (h : (srv.recvClient i t).1 = .running) :
    Kept listening (srv.slot i) srv (srv.recvClient i t).2.1 := by
  unfold Server.recvClient at h ⊢
  split at h
  · cases h
  · exact served_hangup_kept hinv hi hcnt h
  · exact served_hangup_kept hinv hi hcnt h
  · split at h
    · cases h
    · cases h
    · exact Kept.refl hinv _

/-! ## The pass -/

/-- What holds within a pass: the turns so far were faithful, each descriptor had
at most one of them, and all that are ready and below the loop variable had one.
While the loop goes on, the tables are in order and hold the others that are ready. -/
structure PassInvariant (listening : ℕ) (rdy : Finset ℕ) (p : Pass N) : Prop where
  faithful : ∀ h ∈ p.handled, h.Faithful
  below : ∀ h ∈ p.handled, h.fd < p.i
  once : (p.handled.map Handled.fd).Nodup
  slots : p.status = .running → SlotInvariant listening p.srv
  waiting : p.status = .running → ∀ fd ∈ rdy, fd ≠ listening → p.i ≤ fd → fd ∈ p.srv.clients
  done : p.status = .running → ∀ fd ∈ rdy, fd ≠ listening → fd < p.i → fd ∈ p.handled.map Handled.fd
  nfds : p.status = .running → ∀ fd ∈ rdy, fd ≤ p.srv.nfds

/-- The end of a turn, which has handled the descriptor of the loop variable if it
is that of a ready client. -/
theorem next_invariant {rdy : Finset ℕ} {p : Pass N} {status : Status} {srv : Server N}
    {handled : List (Handled N)} (hp : PassInvariant listening rdy p) (hrun : p.status = .running)
    (hkept : status = .running → Kept listening p.i p.srv srv)
    (hturn : p.i ∈ rdy → p.i ≠ listening → p.i ∈ handled.map Handled.fd)
    (hhandled : ∀ h ∈ handled, h.Faithful ∧ h.fd = p.i) (honce : (handled.map Handled.fd).Nodup) :
    PassInvariant listening rdy (p.next status srv handled) := by
  unfold Pass.next
  constructor
  · intro h hh
    rcases List.mem_append.mp hh with hh | hh
    · exact hp.faithful h hh
    · exact (hhandled h hh).1
  · intro h hh
    rcases List.mem_append.mp hh with hh | hh
    · exact (hp.below h hh).trans (Nat.lt_succ_self _)
    · exact (hhandled h hh).2.trans_lt (Nat.lt_succ_self _)
  · show ((p.handled ++ handled).map Handled.fd).Nodup
    rw [List.map_append]
    apply hp.once.append honce
    intro fd hold hnew
    -- what was handled before has a smaller descriptor
    obtain ⟨h, hh, rfl⟩ := List.mem_map.mp hold
    obtain ⟨h', hh', heq⟩ := List.mem_map.mp hnew
    have hlt := hp.below h hh
    have hat := (hhandled h' hh').2
    omega
  · exact fun h => (hkept h).slots
  · intro h fd hfd hne hle
    have hle : p.i + 1 ≤ fd := hle
    exact (hkept h).clients fd (hp.waiting hrun fd hfd hne (by omega)) (by omega)
  · intro _ fd hfd hne hlt
    have hlt : fd < p.i + 1 := hlt
    show fd ∈ (p.handled ++ handled).map Handled.fd
    rw [List.map_append, List.mem_append]
    by_cases hat : fd = p.i
    · subst hat
      exact Or.inr (hturn hfd hne)
    · exact Or.inl (hp.done hrun fd hfd hne (by omega))
  · exact fun h fd hfd => (hp.nfds hrun fd hfd).trans (hkept h).nfds

theorem turn_invariant {rdy : Finset ℕ} {beyond : ℕ} {env : ℕ → Turn} {p : Pass N} (hN : 0 < N)
    (hp : PassInvariant listening rdy p) (hfresh : Accepts env p) :
    PassInvariant listening rdy (p.turn rdy beyond env) := by
  unfold Pass.turn
  by_cases hover : p.status ≠ .running ∨ p.srv.nfds < p.i
  · rw [if_pos hover]
    exact hp
  rw [if_neg hover]
  have hrun : p.status = .running := by
    by_contra h
    exact hover (Or.inl h)
  have hinv := hp.slots hrun
  have hnone : ∀ h ∈ ([] : List (Handled N)), h.Faithful ∧ h.fd = p.i :=
    fun h hh => absurd hh List.not_mem_nil
  dsimp only
  by_cases hzero : xfdIsset rdy p.i = 0
  · -- not ready, or descriptor zero, which no client has
    rw [if_pos hzero]
    apply next_invariant hp hrun (fun _ => Kept.refl hinv p.i) ?_ hnone List.nodup_nil
    intro hmem hne
    rw [xfdIsset, if_pos hmem] at hzero
    obtain ⟨i, hi, hcnt, hslot⟩ := mem_clients.mp (hp.waiting hrun p.i hmem hne le_rfl)
    exact absurd (hslot.trans hzero) (hinv.occupied i hi hcnt)
  rw [if_neg hzero]
  have hmem : p.i ∈ rdy := by
    by_contra h
    exact hzero (if_neg h)
  have hfd : xfdIsset rdy p.i = p.i := if_pos hmem
  rw [hfd, hinv.listens]
  by_cases hlistens : p.i = listening
  -- the listening socket: a client may join, the others stay
  · rw [if_pos hlistens]
    apply next_invariant hp hrun (fun h => ?_) (fun _ h => absurd hlistens h) hnone List.nodup_nil
    exact served_connection_kept hinv hN hfresh h p.i
  · rw [if_neg hlistens]
    -- a client that is ready has a slot, and the search finds it
    obtain ⟨i, hi, hcnt, hslot⟩ := mem_clients.mp (hp.waiting hrun p.i hmem hlistens le_rfl)
    have hindex : socketIndex p.srv beyond p.i = i := by
      rw [← hslot]
      exact socketIndex_slot hinv beyond hi hcnt
    rw [hindex]
    apply next_invariant hp hrun
    · intro h
      have hkept := recvClient_kept hinv hi hcnt h
      rwa [hslot] at hkept
    · exact fun _ _ => List.mem_singleton_self _
    · intro h hh
      rw [List.mem_singleton.mp hh]
      have hfaithful := recvClient_faithful hinv hi hcnt (env p.i)
      rw [hslot] at hfaithful
      exact ⟨hfaithful, rfl⟩
    · exact List.nodup_singleton _

theorem after_invariant {rdy : Finset ℕ} {beyond : ℕ} {env : ℕ → Turn} (hN : 0 < N)
    (hinv : SlotInvariant listening srv) (hrdy : rdy ⊆ srv.fds)
    (hfresh : ∀ n, Accepts env (Pass.after rdy beyond env srv n)) (n : ℕ) :
    PassInvariant listening rdy (Pass.after rdy beyond env srv n) := by
  induction n with
  | zero =>
    refine ⟨?_, ?_, List.nodup_nil, fun _ => hinv, ?_, ?_, ?_⟩
    · exact fun h hh => absurd hh List.not_mem_nil
    · exact fun h hh => absurd hh List.not_mem_nil
    · intro _ fd hfd hne _
      have hmem := hrdy hfd
      rw [hinv.watched] at hmem
      exact Finset.mem_of_mem_insert_of_ne hmem hne
    · intro _ fd _ _ hlt
      exact absurd hlt (Nat.not_lt_zero fd)
    · exact fun _ fd hfd => hinv.maximum fd (hrdy hfd)
  | succ n ih =>
    unfold Pass.after
    rw [Function.iterate_succ_apply']
    exact turn_invariant hN ih (hfresh n)

theorem after_i (rdy : Finset ℕ) (beyond : ℕ) (env : ℕ → Turn) (srv : Server N) (n : ℕ) :
    (Pass.after rdy beyond env srv n).status ≠ .running ∨
      (Pass.after rdy beyond env srv n).i = n ∨
      (Pass.after rdy beyond env srv n).srv.nfds < (Pass.after rdy beyond env srv n).i := by
  induction n with
  | zero => exact Or.inr (Or.inl rfl)
  | succ n ih =>
    have hsucc : Pass.after rdy beyond env srv (n + 1) =
        (Pass.after rdy beyond env srv n).turn rdy beyond env :=
      Function.iterate_succ_apply' _ n _
    rw [hsucc]
    generalize Pass.after rdy beyond env srv n = p at ih ⊢
    by_cases hover : p.status ≠ .running ∨ p.srv.nfds < p.i
    · have hsame : p.turn rdy beyond env = p := if_pos hover
      rw [hsame]
      exact hover.imp_right Or.inr
    · have hi : p.i = n := by
        rcases ih with h | h | h
        · exact absurd (Or.inl h) hover
        · exact h
        · exact absurd (Or.inr h) hover
      right
      left
      unfold Pass.turn
      rw [if_neg hover]
      dsimp only
      split
      · exact congrArg (· + 1) hi
      · split <;> exact congrArg (· + 1) hi

end

/-- Fan-out during a pass, whatever its turns meet. Each turn of a client found it in
its slot, and sent the cable it read to the others; no client had two turns; and every
ready client has had its turn once the loop, still running, is past its descriptor. -/
theorem fanout_exact (listening : ℕ) (srv : Server N) (hN : 0 < N)
    (hinv : SlotInvariant listening srv) (rdy : Finset ℕ) (hrdy : rdy ⊆ srv.fds) (beyond : ℕ)
    (env : ℕ → Turn) (hfresh : ∀ n, Accepts env (Pass.after rdy beyond env srv n)) (n : ℕ) :
    (∀ h ∈ (Pass.after rdy beyond env srv n).handled, h.Faithful) ∧
      ((Pass.after rdy beyond env srv n).handled.map Handled.fd).Nodup ∧
      ((Pass.after rdy beyond env srv n).status = .running → ∀ fd ∈ rdy, fd ≠ listening →
        fd < n → fd ∈ (Pass.after rdy beyond env srv n).handled.map Handled.fd) := by
  have hpass := after_invariant hN hinv hrdy hfresh n
  refine ⟨hpass.faithful, hpass.once, fun hrun fd hfd hne hlt => ?_⟩
  apply hpass.done hrun fd hfd hne
  rcases after_i rdy beyond env srv n with h | h | h
  · exact absurd hrun h
  · rw [h]
    exact hlt
  · exact (hpass.nfds hrun fd hfd).trans_lt h

def threeSlots : Server 4 := ⟨#v[3, 5, 6, 7], 3, {3, 5, 6, 7}, 7, Vector.replicate 32 0⟩

/-- Descriptor 5 has been closed by its client, and the others have sent a cable. -/
def closing (i : ℕ) : Turn :=
  ⟨⟨none, true, true, ⟨none, true⟩⟩,
    ⟨if i = 5 then [] else (initCable [1, 2, 3]).bytes, 0, fun _ => 17, .closed⟩, true,
    ⟨some (Vector.replicate 32 1), true⟩⟩

/-- The tables when the client on descriptor 5 is gone. -/
def twoSlots : Server 4 := ⟨#v[3, 7, 6, 0], 2, {3, 6, 7}, 7, Vector.replicate 32 1⟩

theorem closing_recvClient : twoSlots.recvClient 2 (closing 6) =
    (.running, twoSlots, some (initCable [1, 2, 3],
      transferMessage twoSlots 2 (initCable [1, 2, 3]))) := by
  have hheader : xrecv (closing 6).sock cableSize =
      .bytes ((closing 6).sock.stream.take 14) ((closing 6).sock.advance 14) := rfl
  have hrest : cableRecvData ((closing 6).sock.advance 14)
      (Cable.ofHeader ((closing 6).sock.stream.take 14)) =
        some (some (initCable [1, 2, 3]), (closing 6).sock.advance (14 + 3)) :=
    cableRecvData_hidden (by decide) (List.append_nil _).symm le_rfl (Or.inl rfl)
  rw [Server.recvClient, hheader]
  dsimp only
  rw [hrest]

/-- The client on descriptor 5 is gone when that on 6 has its turn, and the last of the
three has taken its slot. -/
theorem fanout_exact_closing :
    SlotInvariant 3 threeSlots ∧
      ∃ h ∈ (Pass.after {5, 6} 0 closing threeSlots 7).handled, h.fd = 6 ∧ h.Faithful ∧
        h.read = some (initCable [1, 2, 3], [(7, (initCable [1, 2, 3]).bytes)]) := by
  have hdistinct : ∀ i ≤ 3, ∀ j ≤ 3, 1 ≤ i → 1 ≤ j → threeSlots.slot i = threeSlots.slot j →
      i = j := by decide
  have hinv : SlotInvariant 3 threeSlots := by
    refine ⟨by decide, ?_, ?_, rfl, by decide, by decide, by decide, by decide⟩
    · exact fun i j hi hi' hj hj' heq => hdistinct i hi' j hj' hi hj heq
    · intro i hlt hle
      have hlt : 3 < i := hlt
      omega
  -- the sixth turn is that of descriptor 5, and leaves the tables without it
  have hgone : Pass.after {5, 6} 0 closing threeSlots 6 =
      ⟨.running, twoSlots, 6, [⟨5, threeSlots, 1, none⟩]⟩ := rfl
  have hlast : Pass.after {5, 6} 0 closing threeSlots 7 = ⟨.running, twoSlots, 7,
      [⟨5, threeSlots, 1, none⟩, ⟨6, twoSlots, 2, some (initCable [1, 2, 3],
        transferMessage twoSlots 2 (initCable [1, 2, 3]))⟩]⟩ := by
    have hturn : Pass.after {5, 6} 0 closing threeSlots 7 =
        (Pass.after {5, 6} 0 closing threeSlots 6).turn {5, 6} 0 closing :=
      Function.iterate_succ_apply' _ 6 _
    rw [hturn, hgone]
    have hindex : socketIndex twoSlots 0 6 = 2 := rfl
    have hset : xfdIsset {5, 6} 6 = 6 := rfl
    unfold Pass.turn
    rw [if_neg (by decide)]
    dsimp only
    rw [hset, if_neg (by decide), if_neg (by decide), hindex, closing_recvClient]
    rfl
  obtain ⟨hfaithful, -, -⟩ := fanout_exact 3 threeSlots (by decide) hinv {5, 6} (by decide) 0
    closing (fun n fd h => by cases h) 7
  rw [hlast] at hfaithful ⊢
  refine ⟨hinv, _, List.mem_cons_of_mem _ (List.mem_singleton_self _), rfl,
    hfaithful _ (List.mem_cons_of_mem _ (List.mem_singleton_self _)), ?_⟩
  rfl

end Parcel
