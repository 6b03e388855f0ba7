import Parcel.SlotTable

/-!
# Runs of the daemon

The main loop of the daemon over connections and disconnects. Key exchange is
started from two places: `add_client` does so for two or more clients, while
`daemon_handle_disconnect` does so whatever the number of clients that remain.
-/

namespace Parcel

variable {N : ℕ}

/-- What `main_thread` finds ready: a pending connection, or a client whose
connection has ended. -/
inductive Event
  | connection (c : Joining)
  | hangup (clientId : ℕ) (clean closed : Bool) (ex : Exchange)

/-- How the daemon ends: a failed assertion, or a return from `main_thread`. -/
inductive Halt
  | assertion | returned
  deriving DecidableEq, Repr

/-- One turn of the loop in `main_thread`. -/
def serve (srv : Server N) : Event → Except Halt (Server N)
  | .connection c =>
    match addClient srv c with
    | none => .error .assertion
    | some (.failed, _) => .error .returned
    | some (.rejected, srv) => .ok srv
    | some (.added, srv) => .ok srv
  | .hangup clientId _ closed ex =>
    match daemonHandleDisconnect srv clientId closed ex with
    | none => .error .assertion
    | some (false, _) => .error .returned
    | some (true, srv) => .ok srv

def runDaemon (srv : Server N) : List Event → Except Halt (Server N)
  | [] => .ok srv
  | e :: es =>
    match serve srv e with
    | .ok srv => runDaemon srv es
    | .error halt => .error halt

/-- There is entropy for the renewed key, and every client takes part. -/
def Exchange.Succeeds (ex : Exchange) : Prop := ex.renewed.isSome ∧ ex.ok = true

/-- An accepted connection or a disconnect whose handshake and exchange succeed. -/
def Event.Succeeds (srv : Server N) : Event → Prop
  | .connection c =>
    (∃ fd, c.accept = some fd ∧ srv.Fresh fd) ∧ c.peerAddr = true ∧ c.twoParty = true ∧
      c.exchange.Succeeds
  | .hangup clientId _ closed ex =>
    1 ≤ clientId ∧ clientId ≤ srv.cnt ∧ closed = true ∧ ex.Succeeds

/-- Every event of the run succeeds in the state it meets. -/
def Successful (srv : Server N) : List Event → Prop
  | [] => True
  | e :: es => e.Succeeds srv ∧ ∀ srv', serve srv e = .ok srv' → Successful srv' es

/-- No disconnect of the run is that of the last client. -/
def OthersRemain (srv : Server N) : List Event → Prop
  | [] => True
  | e :: es =>
    (∀ clientId clean closed ex, e = .hangup clientId clean closed ex → 2 ≤ srv.cnt) ∧
      ∀ srv', serve srv e = .ok srv' → OthersRemain srv' es

theorem nPartyServer_eq_none_iff (connectionCount : ℕ) (ctrlKey : Key) (ex : Exchange) :
    nPartyServer connectionCount ctrlKey ex = none ↔ connectionCount = 0 := by
  unfold nPartyServer
  by_cases hzero : connectionCount = 0
  · rw [if_pos hzero]
    exact ⟨fun _ => hzero, fun _ => rfl⟩
  · rw [if_neg hzero]
    refine ⟨fun h => ?_, fun h => absurd h hzero⟩
    split at h
    · cases h
    · split at h <;> cases h

theorem nPartyServer_succeeds {connectionCount : ℕ} (ctrlKey : Key) {ex : Exchange}
    (hex : ex.Succeeds) (hcount : connectionCount ≠ 0) :
    ∃ key, nPartyServer connectionCount ctrlKey ex = some (true, key) := by
  obtain ⟨hrenewed, hok⟩ := hex
  obtain ⟨key, hkey⟩ := Option.isSome_iff_exists.mp hrenewed
  rw [nPartyServer, if_neg hcount, hkey, hok]
  split
  · exact ⟨ctrlKey, rfl⟩
  · exact ⟨key, rfl⟩

section

variable {srv : Server N}

theorem addClient_succeeds {c : Joining} {fd : ℕ} (haccept : c.accept = some fd)
    (hfull : srv.cnt + 1 ≠ N) (hpeer : c.peerAddr = true) (htwo : c.twoParty = true)
    (hex : c.exchange.Succeeds) : ∃ srv', addClient srv c = some (.added, srv') := by
  rw [addClient, haccept]
  dsimp only
  rw [if_neg hfull, hpeer, htwo, Bool.not_true, if_neg Bool.false_ne_true,
    if_neg Bool.false_ne_true]
  split
  · have hcnt : ((srv.watch fd).setSlot (srv.watch fd).freeSlot fd).cnt ≠ 0 := Nat.succ_ne_zero _
    obtain ⟨key, hkey⟩ := nPartyServer_succeeds
      ((srv.watch fd).setSlot (srv.watch fd).freeSlot fd).serverKey hex hcnt
    rw [hkey]
    exact ⟨_, rfl⟩
  · exact ⟨_, rfl⟩

theorem serve_connection {c : Joining} (h : (Event.connection c).Succeeds srv) :
    ∃ srv', serve srv (.connection c) = .ok srv' := by
  obtain ⟨⟨fd, haccept, -⟩, hpeer, htwo, hex⟩ := h
  rw [serve]
  by_cases hfull : srv.cnt + 1 = N
  · rw [addClient_full haccept hfull]
    exact ⟨srv, rfl⟩
  · obtain ⟨srv', hsrv'⟩ := addClient_succeeds haccept hfull hpeer htwo hex
    rw [hsrv']
    exact ⟨srv', rfl⟩

theorem serve_hangup {clientId : ℕ} {clean closed : Bool} {ex : Exchange}
    (h : (Event.hangup clientId clean closed ex).Succeeds srv) :
    (2 ≤ srv.cnt → ∃ srv', serve srv (.hangup clientId clean closed ex) = .ok srv') ∧
      (srv.cnt < 2 → serve srv (.hangup clientId clean closed ex) = .error .assertion) := by
  obtain ⟨hpos, hle, rfl, hex⟩ := h
  obtain ⟨hcnt, -, -⟩ := left_fields srv clientId
  rw [serve, daemonHandleDisconnect, Bool.not_true, if_neg Bool.false_ne_true]
  constructor
  · intro hothers
    obtain ⟨key, hkey⟩ := nPartyServer_succeeds (disconnectClient srv clientId).serverKey hex
      (show (disconnectClient srv clientId).cnt ≠ 0 by omega)
    rw [hkey]
    exact ⟨_, rfl⟩
  · intro hlast
    have hnone := (nPartyServer_eq_none_iff (disconnectClient srv clientId).cnt
      (disconnectClient srv clientId).serverKey ex).mpr (by omega)
    rw [hnone]
    rfl

end

/-- A run of successful events, from `init_daemon` or any other state, fails the
assertion of `n_party_server` exactly when it handles the disconnect of a last client. -/
theorem assertion_holds_iff (srv : Server N) (es : List Event) (hes : Successful srv es) :
    runDaemon srv es ≠ .error .assertion ↔ OthersRemain srv es := by
  induction es generalizing srv with
  | nil => exact ⟨fun _ => trivial, fun _ h => by cases h⟩
  | cons e es ih =>
    obtain ⟨he, hrest⟩ := hes
    rw [runDaemon, OthersRemain]
    cases e with
    | connection c =>
      obtain ⟨srv', hsrv'⟩ := serve_connection he
      simp only [hsrv', Except.ok.injEq, forall_eq', ih srv' (hrest srv' hsrv')]
      exact ⟨fun h => ⟨fun _ _ _ _ heq => Event.noConfusion heq, h⟩, fun h => h.2⟩
    | hangup clientId clean closed ex =>
      obtain ⟨hserved, hasserts⟩ := serve_hangup he
      by_cases hothers : 2 ≤ srv.cnt
      · obtain ⟨srv', hsrv'⟩ := hserved hothers
        simp only [hsrv', Except.ok.injEq, forall_eq', ih srv' (hrest srv' hsrv')]
        exact ⟨fun h => ⟨fun _ _ _ _ _ => hothers, h⟩, fun h => h.2⟩
      · rw [hasserts (by omega)]
        constructor
        · intro h
          exact absurd rfl h
        · rintro ⟨h, -⟩
          exact absurd (h clientId clean closed ex rfl) hothers

/-- Tables of four slots as `init_daemon` leaves them. -/
def fourSlots : Server 4 :=
  ⟨#v[3, 0, 0, 0], 0, {3}, 3, Vector.replicate 32 0⟩

/-- A client on descriptor `fd` joins, with the all-ones key as the renewed one. -/
def joins (fd : ℕ) : Event :=
  .connection ⟨some fd, true, true, ⟨some (Vector.replicate 32 1), true⟩⟩

def leaves : Event := .hangup 1 true true ⟨some (Vector.replicate 32 2), true⟩

/-- Two clients join and one leaves. -/
theorem assertion_holds_two_join :
    Successful fourSlots [joins 5, joins 6, leaves] ∧
      runDaemon fourSlots [joins 5, joins 6, leaves] ≠ .error .assertion := by
  have hes : Successful fourSlots [joins 5, joins 6, leaves] := by
    refine ⟨⟨⟨5, rfl, by decide, by decide⟩, rfl, rfl, rfl, rfl⟩, fun srv h => ?_⟩
    cases h
    refine ⟨⟨⟨6, rfl, by decide, by decide⟩, rfl, rfl, rfl, rfl⟩, fun srv h => ?_⟩
    cases h
    exact ⟨⟨by decide, by decide, rfl, rfl, rfl⟩, fun _ _ => trivial⟩
  refine ⟨hes, (assertion_holds_iff fourSlots _ hes).mpr ?_⟩
  refine ⟨fun _ _ _ _ h => Event.noConfusion h, fun srv h => ?_⟩
  cases h
  refine ⟨fun _ _ _ _ h => Event.noConfusion h, fun srv h => ?_⟩
  cases h
  exact ⟨fun _ _ _ _ _ => by decide, fun _ _ => trivial⟩

/-- One client joins and leaves: the daemon aborts. -/
theorem last_client_leaves :
    initDaemon 4 3 (some (Vector.replicate 32 0)) = some fourSlots ∧
      Successful fourSlots [joins 5, leaves] ∧
      runDaemon fourSlots [joins 5, leaves] = .error .assertion := by
  refine ⟨rfl, ?_, rfl⟩
  refine ⟨⟨⟨5, rfl, by decide, by decide⟩, rfl, rfl, rfl, rfl⟩, fun srv h => ?_⟩
  cases h
  exact ⟨⟨by decide, by decide, rfl, rfl, rfl⟩, fun _ _ => trivial⟩

end Parcel
