import Parcel.CipherColumns
import Parcel.Client
import Parcel.DaemonRuns
import Parcel.KeyExchange

/-!
# The control key

Runs of daemon and clients over joins and leaves, each carried out to its end. The
daemon's `server_key` reaches a new client in the wire of the two-party exchange,
and all clients in a control cable whenever there are two or more; when only one
is left, nothing is sent and nothing changes. The status wire that a client
announces itself with changes no keys and is left out.
-/

namespace Parcel
open ByteStrings Aes

variable {N : ℕ}

/-- An exchange between all clients: what `xgetrandom` stored for the renewed key
and the IV of the control cable, and the session keys it ends with, by descriptor. -/
structure Rekeying where
  renewedKey : Key
  iv : Block
  session : ℕ → Key

def Rekeying.exchange (r : Rekeying) : Exchange := ⟨some r.renewedKey, true⟩

def Rekeying.outcomes (r : Rekeying) (fd : ℕ) : Outcomes :=
  ⟨fun _ => some (r.session fd), true, fun _ => true⟩

/-- A control cable: the arguments of `init_ctrl_key_cable`, and the session keys
of those who receive it. -/
structure CtrlCable where
  count : ℕ
  renewedKey : Key
  ctrlKey : Key
  iv : Block
  sessions : List Key

def CtrlCable.cable (c : CtrlCable) : Option Cable :=
  initCtrlKeyCable c.count c.renewedKey c.ctrlKey (some c.iv)

/-- No session key of a recipient verifies the inner MAC. -/
def CtrlCable.Unambiguous (c : CtrlCable) : Prop :=
  ∀ cable, c.cable = some cable → ∀ session ∈ c.sessions,
    wireVerifyInnerMac (aes128InitCmac session.mac) (cabledWire cable) = false

/-- Daemon and clients, the clients by the descriptor of their connection, with
the control cables sent so far. -/
structure Chat (N : ℕ) where
  srv : Server N
  client : ℕ → ClientState
  sent : List CtrlCable

/-- The event of a run: a new connection with the random keys of both sides and
the IV of the daemon's wire, or the end of a connection. Without an exchange the
renewed key stays unused. -/
inductive ChatEvent
  | join (fd : ℕ) (clientRnd serverRnd : Key) (iv : Block) (r : Rekeying)
  | leave (clientId : ℕ) (r : Rekeying)

def ChatEvent.rekeying : ChatEvent → Rekeying
  | .join _ _ _ _ r => r
  | .leave _ r => r

/-- The sockets that `server_send_ctrl_key` sends to. -/
def Server.sockets (srv : Server N) : List ℕ := (List.range' 1 srv.cnt).map srv.slot

/-- The client's side of a new connection, up to the result of `two_party_client`. -/
def connectServer (x25519 : Key → Key → Key) (serverKey clientRnd serverRnd : Key) (iv : Block) :
    Option ClientState :=
  let r := twoPartyServer x25519 serverKey (twoPartyClientPublic x25519 clientRnd) serverRnd
    (some iv)
  (r.2.bind (twoPartyClient x25519 clientRnd r.1)).map fun ctrl =>
    ⟨⟨Vector.replicate 32 0, ctrl⟩, false⟩

namespace Chat

/-- The clients' side of `n_party_server`: with two or more clients, all receive a
control cable under the key that the daemon had. -/
def rekey (s : Chat N) (srv : Server N) (r : Rekeying) : Option (Chat N) :=
  if srv.cnt < 2 then some { s with srv := srv }
  else
    let c : CtrlCable := ⟨srv.cnt - 1, r.renewedKey, s.srv.serverKey, r.iv,
      srv.sockets.map fun fd => (s.client fd).keys.session⟩
    c.cable.map fun cable =>
      { srv := srv
        client := fun fd =>
          if fd ∈ srv.sockets then recvThread (r.outcomes fd) (s.client fd) cable else s.client fd
        sent := s.sent ++ [c] }

/-- An event, without a failure of sockets or of the random source. -/
def step (x25519 : Key → Key → Key) (s : Chat N) : ChatEvent → Option (Chat N)
  | .join fd clientRnd serverRnd iv r =>
    match addClient s.srv ⟨some fd, true, true, r.exchange⟩ with
    | some (.added, srv) =>
      (connectServer x25519 s.srv.serverKey clientRnd serverRnd iv).bind fun client =>
        rekey { s with client := Function.update s.client fd client } srv r
    | some (.rejected, srv) => some { s with srv := srv }
    | _ => none
  | .leave clientId r =>
    match daemonHandleDisconnect s.srv clientId true r.exchange with
    | some (true, srv) => rekey s srv r
    | _ => none

def run (x25519 : Key → Key → Key) (s : Chat N) : List ChatEvent → Option (Chat N)
  | [] => some s
  | e :: es => (s.step x25519 e).bind fun s => run x25519 s es

/-- The daemon after `init_daemon`, and no connection yet. -/
def init (srv : Server N) : Chat N :=
  ⟨srv, fun _ => ⟨⟨Vector.replicate 32 0, Vector.replicate 32 0⟩, false⟩, []⟩

end Chat

/-- A connection on a free descriptor, or the end of one that is not the last. -/
def ChatEvent.Possible (s : Chat N) : ChatEvent → Prop
  | .join fd _ _ _ _ => s.srv.Fresh fd
  | .leave clientId _ => 1 ≤ clientId ∧ clientId ≤ s.srv.cnt ∧ 2 ≤ s.srv.cnt

/-- A run of possible events in which no control cable is ambiguous to a recipient. -/
def Honest (x25519 : Key → Key → Key) (s : Chat N) : List ChatEvent → Prop
  | [] => True
  | e :: es => e.Possible s ∧ ∀ s', s.step x25519 e = some s' →
      (∀ c ∈ s'.sent, c.Unambiguous) ∧ Honest x25519 s' es

theorem connectServer_ctrl {x25519 : Key → Key → Key}
    (hagree : ∀ a b, x25519 (pointD a) (x25519 (pointD b) basepoint) =
      x25519 (pointD b) (x25519 (pointD a) basepoint))
    (serverKey clientRnd serverRnd : Key) (iv : Block) :
    connectServer x25519 serverKey clientRnd serverRnd iv =
      some ⟨⟨Vector.replicate 32 0, serverKey⟩, false⟩ := by
  have hlength : serverKey.toList.length = 32 := Vector.length_toList
  have hfit : 64 + 14 + ceil16 serverKey.toList.length < 2 ^ 64 := by
    rw [hlength]
    decide
  obtain ⟨w, hw, hdata, hdec⟩ := initWire_decoded .sessionKey iv hfit
  have hsecret : pointKx x25519 (pointD serverRnd) (twoPartyClientPublic x25519 clientRnd) =
      pointKx x25519 (pointD clientRnd) (pointQ x25519 (pointD serverRnd)) :=
    hagree serverRnd clientRnd
  generalize hkey : pointKx x25519 (pointD clientRnd) (pointQ x25519 (pointD serverRnd)) = key
    at hsecret
  obtain ⟨-, w', hopen, hdec'⟩ := openCable_initCable hfit hdec hdata
    (selectedKey_first (encryptWire_verifies w key) none)
  have hserver : twoPartyServer x25519 serverKey (twoPartyClientPublic x25519 clientRnd) serverRnd
      (some iv) =
        (pointQ x25519 (pointD serverRnd), some (initCable (encryptWire w key).bytes)) := by
    rw [twoPartyServer, initWireFromSessionKey, hw, Option.map_some, hsecret]
  have hclient : twoPartyClient x25519 clientRnd (pointQ x25519 (pointD serverRnd))
      (initCable (encryptWire w key).bytes) = some serverKey := by
    rw [twoPartyClient, hkey, hopen, if_pos ⟨rfl, hdec'.type⟩, hdec'.data, readVec_append]
  rw [connectServer, hserver, Option.bind_some, hclient, Option.map_some]

theorem recvThread_ctrl {env : Outcomes} {ctx : ClientState} {count : ℕ} {renewedKey session : Key}
    {iv : Block} {cable : Cable}
    (hcable : initCtrlKeyCable count renewedKey ctx.keys.ctrl (some iv) = some cable)
    (hother : wireVerifyInnerMac (aes128InitCmac ctx.keys.session.mac) (cabledWire cable) = false)
    (hsession : env.nPartyClient (count % 2 ^ 16) = some session) :
    (recvThread env ctx cable).keys = ⟨session, renewedKey⟩ := by
  obtain ⟨hsized, hdata, -, -⟩ := initCtrl_spec count renewedKey
  obtain ⟨w, hw, hopen⟩ := openCable_msg .ctrl iv hsized
    (by rw [hdata, Vector.length_toList]; decide)
  rw [initCtrlKeyCable, initWireFromCtrlMsg, hw, Option.map_some] at hcable
  obtain rfl := Option.some.inj hcable
  rw [cabledWire_initCable] at hother
  obtain ⟨wire, hwire, htype, hmsg⟩ :=
    hopen (selectedKey_second hother (encryptWire_verifies w ctx.keys.ctrl))
  have hhandler : handlerOf (wireGetType wire) = .ctrl := by
    rw [htype]
    decide
  rw [recvThread, decryptCabledWire, hwire, if_pos rfl]
  dsimp only
  rw [handleWire, hhandler]
  exact procCtrl_initCtrl hmsg hsession

/-- The server key after an exchange with a number of clients. -/
def Rekeying.keyAfter (r : Rekeying) (count : ℕ) (key : Key) : Key :=
  if count < 2 then key else r.renewedKey

theorem nPartyServer_rekeying {count : ℕ} (hcount : count ≠ 0) (key : Key) (r : Rekeying) :
    nPartyServer count key r.exchange = some (true, r.keyAfter count key) := by
  rw [nPartyServer, if_neg hcount, Rekeying.keyAfter, Rekeying.exchange]
  by_cases hone : count < 2
  · rw [if_pos (show count - 1 < 1 by omega), if_pos hone]
  · rw [if_neg (show ¬count - 1 < 1 by omega), if_neg hone]

section

variable {srv : Server N} {listening : ℕ}

theorem addClient_rekeying (hfull : srv.cnt + 1 ≠ N) (fd : ℕ) (r : Rekeying) :
    addClient srv ⟨some fd, true, true, r.exchange⟩ =
      some (.added, { (srv.watch fd).setSlot srv.freeSlot fd with
        serverKey := r.keyAfter (srv.cnt + 1) srv.serverKey }) := by
  have hcnt : ((srv.watch fd).setSlot (srv.watch fd).freeSlot fd).cnt = srv.cnt + 1 := rfl
  rw [addClient]
  dsimp only
  rw [if_neg hfull, Bool.not_true, if_neg Bool.false_ne_true, if_neg Bool.false_ne_true, hcnt]
  by_cases hfirst : srv.cnt + 1 > 1
  · rw [if_pos hfirst, nPartyServer_rekeying (by omega)]
    rfl
  · rw [if_neg hfirst, Rekeying.keyAfter, if_pos (by omega)]
    rfl

theorem disconnectClient_serverKey (srv : Server N) (i : ℕ) :
    (disconnectClient srv i).serverKey = srv.serverKey := by
  rw [disconnectClient]
  dsimp only
  split <;> rfl

theorem daemonHandleDisconnect_rekeying (hcnt : 2 ≤ srv.cnt) (clientId : ℕ) (r : Rekeying) :
    daemonHandleDisconnect srv clientId true r.exchange =
      some (true, { disconnectClient srv clientId with
        serverKey := r.keyAfter (srv.cnt - 1) srv.serverKey }) := by
  obtain ⟨hleft, -, -⟩ := left_fields srv clientId
  have hex : nPartyServer (disconnectClient srv clientId).cnt
      (disconnectClient srv clientId).serverKey
      r.exchange = some (true, r.keyAfter (srv.cnt - 1) srv.serverKey) := by
    rw [hleft, disconnectClient_serverKey, nPartyServer_rekeying (by omega)]
  rw [daemonHandleDisconnect, Bool.not_true, if_neg Bool.false_ne_true, hex]
  rfl

theorem mem_sockets {fd : ℕ} : fd ∈ srv.sockets ↔ fd ∈ srv.clients := by
  rw [mem_clients, Server.sockets, List.mem_map]
  constructor
  · rintro ⟨i, hi, rfl⟩
    rw [List.mem_range'_1] at hi
    exact ⟨i, hi.1, by omega, rfl⟩
  · rintro ⟨i, hi, hcnt, rfl⟩
    exact ⟨i, List.mem_range'_1.mpr ⟨hi, by omega⟩, rfl⟩

end

/-! ## Runs -/

/-- What holds between two events: the tables are in order, every connected client
has the daemon's key, and the keys of the control cables are those that were sent
before them, from the initial key on. -/
structure Synced (listening : ℕ) (initial : Key) (s : Chat N) : Prop where
  slots : SlotInvariant listening s.srv
  shared : ∀ fd ∈ s.srv.clients, (s.client fd).keys.ctrl = s.srv.serverKey
  chain : s.sent.map CtrlCable.ctrlKey ++ [s.srv.serverKey] =
    initial :: s.sent.map CtrlCable.renewedKey

/-- The renewed keys that have been sent, after an event that may have sent one. -/
def Logged (s s' : Chat N) (key : Key) : Prop :=
  ∃ keys, keys.Sublist [key] ∧
    s'.sent.map CtrlCable.renewedKey = s.sent.map CtrlCable.renewedKey ++ keys

section

variable {listening : ℕ} {initial : Key} {s : Chat N} {srv : Server N}

theorem rekey_keys {s' : Chat N} {r : Rekeying} (htwo : 2 ≤ srv.cnt)
    (hshared : ∀ fd ∈ srv.clients, (s.client fd).keys.ctrl = s.srv.serverKey)
    (h : s.rekey srv r = some s') (hunamb : ∀ c ∈ s'.sent, c.Unambiguous) :
    ∀ fd ∈ srv.clients, (s'.client fd).keys = ⟨r.session fd, r.renewedKey⟩ := by
  intro fd hfd
  have hmem : fd ∈ srv.sockets := mem_sockets.mpr hfd
  rw [Chat.rekey, if_neg (by omega)] at h
  obtain ⟨cable, hcable, rfl⟩ := Option.map_eq_some_iff.mp h
  have hother := hunamb _ (List.mem_append_right _ (List.mem_singleton_self _)) cable hcable
    (s.client fd).keys.session (List.mem_map.mpr ⟨fd, hmem, rfl⟩)
  rw [CtrlCable.cable, ← hshared fd hfd] at hcable
  dsimp only
  rw [if_pos hmem]
  exact recvThread_ctrl hcable hother rfl

/-- The end of an event: the clients of the new table had the old key, and have the new one. -/
theorem rekey_synced (r : Rekeying) (hslots : SlotInvariant listening srv)
    (hkey : srv.serverKey = r.keyAfter srv.cnt s.srv.serverKey)
    (hshared : ∀ fd ∈ srv.clients, (s.client fd).keys.ctrl = s.srv.serverKey)
    (hchain : s.sent.map CtrlCable.ctrlKey ++ [s.srv.serverKey] =
      initial :: s.sent.map CtrlCable.renewedKey) :
    ∃ s', s.rekey srv r = some s' ∧ Logged s s' r.renewedKey ∧
      ((∀ c ∈ s'.sent, c.Unambiguous) → Synced listening initial s') := by
  rw [Rekeying.keyAfter] at hkey
  -- with one client the key stays and nothing is sent
  by_cases hone : srv.cnt < 2
  · rw [if_pos hone] at hkey
    rw [Chat.rekey, if_pos hone]
    refine ⟨_, rfl, ⟨[], List.nil_sublist _, (List.append_nil _).symm⟩, fun _ => ?_⟩
    refine ⟨hslots, ?_, ?_⟩
    · intro fd hfd
      rw [hkey]
      exact hshared fd hfd
    · rw [hkey]
      exact hchain
  · rw [if_neg hone] at hkey
    obtain ⟨cable, hcable⟩ : ∃ cable, initCtrlKeyCable (srv.cnt - 1) r.renewedKey s.srv.serverKey
        (some r.iv) = some cable := ⟨_, rfl⟩
    have hkeys (s' : Chat N) := @rekey_keys N s srv s' r (by omega) hshared
    rw [Chat.rekey, if_neg hone] at hkeys ⊢
    dsimp only at hkeys ⊢
    rw [CtrlCable.cable, hcable, Option.map_some] at hkeys ⊢
    refine ⟨_, rfl, ⟨[r.renewedKey], List.Sublist.refl _, ?_⟩, ?_⟩
    · rw [List.map_append, List.map_singleton]
    · intro hunamb
      refine ⟨hslots, ?_, ?_⟩
      · intro fd hfd
        rw [hkeys _ rfl hunamb fd hfd, hkey]
      · dsimp only
        rw [List.map_append, List.map_append, hkey, ← List.cons_append, ← hchain]
        rfl

/-- An event is rejected, or ends in an exchange: it has brought the tables up to
date, and the clients in them are as before or new. -/
theorem step_rekey {x25519 : Key → Key → Key}
    (hagree : ∀ a b, x25519 (pointD a) (x25519 (pointD b) basepoint) =
      x25519 (pointD b) (x25519 (pointD a) basepoint))
    (hN : 0 < N) (hs : Synced listening initial s) {e : ChatEvent} (he : e.Possible s) :
    s.step x25519 e = some s ∨ ∃ client srv,
      s.step x25519 e = Chat.rekey { s with client := client } srv e.rekeying ∧
      SlotInvariant listening srv ∧ srv.serverKey = e.rekeying.keyAfter srv.cnt s.srv.serverKey ∧
      ∀ fd ∈ srv.clients, (fd ∈ s.srv.clients ∧ client fd = s.client fd) ∨
        (client fd).keys = ⟨Vector.replicate 32 0, s.srv.serverKey⟩ := by
  have hslots := hs.slots
  cases e with
  | join fd clientRnd serverRnd iv r =>
    rw [Chat.step]
    -- a full table turns the client away
    by_cases hfull : s.srv.cnt + 1 = N
    · rw [addClient_full rfl hfull]
      exact Or.inl rfl
    · have hroom : s.srv.cnt + 1 < N := by
        have := hslots.bounded
        omega
      rw [addClient_rekeying hfull, connectServer_ctrl hagree]
      refine Or.inr ⟨_, _, rfl, (joined_invariant hslots hroom he).withKey _, rfl, ?_⟩
      intro fd' hfd'
      have hclients := joined_clients hslots hroom fd
      have hmem : fd' ∈ insert fd s.srv.clients := hclients ▸ hfd'
      -- the new client has just received the key, the others had it
      by_cases hnew : fd' = fd
      · right
        rw [hnew, Function.update_self]
      · left
        exact ⟨Finset.mem_of_mem_insert_of_ne hmem hnew, Function.update_of_ne hnew _ _⟩
  | leave clientId r =>
    obtain ⟨hi, hcnt, hothers⟩ := he
    rw [Chat.step, daemonHandleDisconnect_rekeying hothers]
    obtain ⟨hleft, -, -⟩ := left_fields s.srv clientId
    refine Or.inr ⟨s.client, _, rfl, (disconnectClient_invariant hslots hi hcnt).withKey _, ?_, ?_⟩
    · dsimp only
      rw [hleft]
      rfl
    · intro fd hfd
      have hmem : fd ∈ s.srv.clients.erase (s.srv.slot clientId) :=
        left_clients hslots hi hcnt ▸ hfd
      exact Or.inl ⟨Finset.mem_of_mem_erase hmem, rfl⟩

theorem Synced.shared_of {client : ℕ → ClientState} (hs : Synced listening initial s)
    (hclient : ∀ fd ∈ srv.clients, (fd ∈ s.srv.clients ∧ client fd = s.client fd) ∨
      (client fd).keys = ⟨Vector.replicate 32 0, s.srv.serverKey⟩) :
    ∀ fd ∈ srv.clients, (client fd).keys.ctrl = s.srv.serverKey := by
  intro fd hfd
  rcases hclient fd hfd with ⟨hold, hsame⟩ | hnew
  · rw [hsame]
    exact hs.shared fd hold
  · rw [hnew]

/-- An event keeps daemon and clients in step. -/
theorem step_synced {x25519 : Key → Key → Key}
    (hagree : ∀ a b, x25519 (pointD a) (x25519 (pointD b) basepoint) =
      x25519 (pointD b) (x25519 (pointD a) basepoint))
    (hN : 0 < N) (hs : Synced listening initial s) {e : ChatEvent} (he : e.Possible s) :
    ∃ s', s.step x25519 e = some s' ∧ Logged s s' e.rekeying.renewedKey ∧
      ((∀ c ∈ s'.sent, c.Unambiguous) → Synced listening initial s') := by
  rcases step_rekey hagree hN hs he with hstep | ⟨client, srv, hstep, hslots, hkey, hclient⟩
  · exact ⟨s, hstep, ⟨[], List.nil_sublist _, (List.append_nil _).symm⟩, fun _ => hs⟩
  · rw [hstep]
    exact rekey_synced e.rekeying hslots hkey (hs.shared_of hclient) hs.chain

theorem run_synced {x25519 : Key → Key → Key}
    (hagree : ∀ a b, x25519 (pointD a) (x25519 (pointD b) basepoint) =
      x25519 (pointD b) (x25519 (pointD a) basepoint))
    (hN : 0 < N) {es : List ChatEvent} (hs : Synced listening initial s)
    (hes : Honest x25519 s es) :
    ∃ s', s.run x25519 es = some s' ∧ Synced listening initial s' ∧
      ∃ keys, keys.Sublist (es.map fun e => e.rekeying.renewedKey) ∧
        s'.sent.map CtrlCable.renewedKey = s.sent.map CtrlCable.renewedKey ++ keys := by
  induction es generalizing s with
  | nil => exact ⟨s, rfl, hs, [], List.Sublist.refl _, (List.append_nil _).symm⟩
  | cons e es ih =>
    obtain ⟨he, hrest⟩ := hes
    obtain ⟨s₁, hstep, ⟨key, hkey, hlog₁⟩, hsynced⟩ := step_synced hagree hN hs he
    obtain ⟨hunamb, hhonest⟩ := hrest s₁ hstep
    obtain ⟨s', hrun, hs', keys, hkeys, hlog⟩ := ih (hsynced hunamb) hhonest
    refine ⟨s', ?_, hs', key ++ keys, hkey.append hkeys, ?_⟩
    · rw [Chat.run, hstep, Option.bind_some, hrun]
    · rw [hlog, hlog₁, List.append_assoc]

theorem Honest.take {x25519 : Key → Key → Key} {es : List ChatEvent} (n : ℕ)
    (hes : Honest x25519 s es) : Honest x25519 s (es.take n) := by
  induction es generalizing s n with
  | nil => rw [List.take_nil]; exact hes
  | cons e es ih =>
    cases n with
    | zero => trivial
    | succ n =>
      obtain ⟨he, hrest⟩ := hes
      refine ⟨he, fun s' hstep => ?_⟩
      obtain ⟨hunamb, hhonest⟩ := hrest s' hstep
      exact ⟨hunamb, ih n hhonest⟩

end

theorem init_synced {listening : ℕ} {initial : Key} {srv : Server N} (hN : 0 < N)
    (hsrv : initDaemon N listening (some initial) = some srv) :
    Synced listening initial (Chat.init srv) := by
  have hcnt : srv.cnt = 0 := by rw [← Option.some.inj hsrv]
  have hkey : srv.serverKey = initial := by rw [← Option.some.inj hsrv]
  refine ⟨initDaemon_invariant hN hsrv, ?_, ?_⟩
  · intro fd hfd
    obtain ⟨i, hi, hle, -⟩ := mem_clients.mp hfd
    have : i ≤ srv.cnt := hle
    omega
  · rw [Chat.init, hkey]
    rfl

/-- Control-key synchronisation: after every event of a run all connected clients
have the daemon's key, no two control cables were encrypted under one key, and each
is encrypted under the key that the one before it carried. -/
theorem control_keys_synchronised (x25519 : Key → Key → Key)
    (hagree : ∀ a b, x25519 (pointD a) (x25519 (pointD b) basepoint) =
      x25519 (pointD b) (x25519 (pointD a) basepoint))
    (hN : 0 < N) (listening : ℕ) (initial : Key) (srv : Server N)
    (hsrv : initDaemon N listening (some initial) = some srv) (es : List ChatEvent)
    (hdistinct : (initial :: es.map fun e => e.rekeying.renewedKey).Nodup)
    (hes : Honest x25519 (Chat.init srv) es) (n : ℕ) :
    ∃ s, (Chat.init srv).run x25519 (es.take n) = some s ∧
      (∀ fd ∈ s.srv.clients, (s.client fd).keys.ctrl = s.srv.serverKey) ∧
      (s.sent.map CtrlCable.ctrlKey).Nodup ∧
      ∀ i c c', s.sent[i]? = some c → s.sent[i + 1]? = some c' → c'.ctrlKey = c.renewedKey := by
  obtain ⟨s, hrun, ⟨-, hshared, hchain⟩, keys, hkeys, hlog⟩ :=
    run_synced hagree hN (init_synced hN hsrv) (hes.take n)
  refine ⟨s, hrun, hshared, ?_, ?_⟩
  · have hsub : (initial :: s.sent.map CtrlCable.renewedKey).Sublist
        (initial :: es.map fun e => e.rekeying.renewedKey) := by
      rw [hlog]
      exact (hkeys.trans ((List.take_sublist n es).map _)).cons_cons initial
    rw [← hchain] at hsub
    exact hdistinct.sublist ((List.sublist_append_left _ _).trans hsub)
  · intro i c c' hc hc'
    have hat := congrArg (fun keys => keys[i + 1]?) hchain
    have hlt : i + 1 < (s.sent.map CtrlCable.ctrlKey).length := by
      rw [List.length_map]
      exact (List.getElem?_eq_some_iff.mp hc').1
    rw [List.getElem?_append_left hlt, List.getElem?_cons_succ, List.getElem?_map,
      List.getElem?_map, hc, hc'] at hat
    exact Option.some.inj hat

/-- An exchange that renews to a key of equal bytes, with zero for all else. -/
def renewTo (b : UInt8) : Rekeying :=
  ⟨Vector.replicate 32 b, Vector.replicate 16 0, fun _ => Vector.replicate 32 0⟩

def meeting : List ChatEvent :=
  [.join 5 (Vector.replicate 32 7) (Vector.replicate 32 8) (Vector.replicate 16 0) (renewTo 1),
    .join 6 (Vector.replicate 32 9) (Vector.replicate 32 10) (Vector.replicate 16 0) (renewTo 3),
    .leave 1 (renewTo 4)]

def twosServer : Server 4 := { fourSlots with serverKey := Vector.replicate 32 2 }

theorem unambiguous_of_zero {c : CtrlCable}
    (hmac : c.cable.all (fun cable => !wireVerifyInnerMac
      (aes128InitCmac (Key.mac (Vector.replicate 32 0))) (cabledWire cable)) = true)
    (hzero : ∀ session ∈ c.sessions, session = Vector.replicate 32 0) : c.Unambiguous := by
  intro cable hcable session hsession
  rw [hcable, Option.all_some, Bool.not_eq_true'] at hmac
  rw [hzero session hsession, hmac]

theorem CtrlCable.inner_mac_of_columns (c : CtrlCable) (other : Key)
    (h : (initWireFromCtrlMsg (initCtrl c.count c.renewedKey) (some c.iv)).all (fun w =>
      decide (cmacColumns c.ctrlKey.mac (sealedHeader w c.ctrlKey) ≠
        cmacColumns other.mac (sealedHeader w c.ctrlKey))) = true) :
    c.cable.all (fun cable => !wireVerifyInnerMac (aes128InitCmac other.mac) (cabledWire cable)) =
      true := by
  rw [CtrlCable.cable, initCtrlKeyCable]
  cases hwire : initWireFromCtrlMsg (initCtrl c.count c.renewedKey) (some c.iv) with
  | none => rfl
  | some w =>
    rw [hwire, Option.all_some] at h
    rw [Option.map_some, Option.all_some, cabledWire_initCable, Bool.not_eq_true']
    exact not_verifies_of_columns (of_decide_eq_true h)

def meetingCable : CtrlCable :=
  ⟨1, Vector.replicate 32 3, Vector.replicate 32 2, Vector.replicate 16 0,
    [Vector.replicate 32 0, Vector.replicate 32 0]⟩

theorem meetingCable_inner_mac : meetingCable.cable.all (fun cable =>
    !wireVerifyInnerMac (aes128InitCmac (Key.mac (Vector.replicate 32 0))) (cabledWire cable)) =
      true := by
  apply meetingCable.inner_mac_of_columns
  decide +kernel

/-- The zero session key, which new clients have, does not verify it. -/
theorem meetingCable_unambiguous : meetingCable.Unambiguous := by
  apply unambiguous_of_zero meetingCable_inner_mac
  intro session hsession
  have hmem : session ∈ [Vector.replicate 32 0, Vector.replicate 32 0] := hsession
  simpa using hmem

theorem meeting_honest : Honest xorKeys (Chat.init twosServer) meeting := by
  have hagree (a b : Key) : xorKeys (pointD a) (xorKeys (pointD b) basepoint) =
      xorKeys (pointD b) (xorKeys (pointD a) basepoint) :=
        xorKeys_comm (pointD a) (pointD b) basepoint
  refine ⟨⟨by decide, by decide⟩, fun s₁ h₁ => ?_⟩
  rw [Chat.step, addClient_rekeying (by decide), connectServer_ctrl hagree] at h₁
  obtain rfl := Option.some.inj h₁
  refine ⟨fun c hc => absurd hc List.not_mem_nil, ?_⟩
  refine ⟨⟨by decide, by decide⟩, fun s₂ h₂ => ?_⟩
  rw [Chat.step, addClient_rekeying (by decide), connectServer_ctrl hagree] at h₂
  obtain rfl := Option.some.inj h₂
  have hone : ∀ c ∈ [meetingCable], c.Unambiguous := by
    intro c hc
    rw [List.mem_singleton.mp hc]
    exact meetingCable_unambiguous
  refine ⟨hone, ?_⟩
  refine ⟨⟨by decide, by decide, by decide⟩, fun s₃ h₃ => ?_⟩
  rw [Chat.step, daemonHandleDisconnect_rekeying (by decide)] at h₃
  obtain rfl := Option.some.inj h₃
  exact ⟨hone, trivial⟩

theorem meeting_stays {s : Chat 4} (h : (Chat.init twosServer).run xorKeys meeting = some s) :
    6 ∈ s.srv.clients := by
  have hagree (a b : Key) : xorKeys (pointD a) (xorKeys (pointD b) basepoint) =
      xorKeys (pointD b) (xorKeys (pointD a) basepoint) :=
        xorKeys_comm (pointD a) (pointD b) basepoint
  obtain ⟨s₁, h₁, hrest⟩ := Option.bind_eq_some_iff.mp h
  rw [Chat.step, addClient_rekeying (by decide), connectServer_ctrl hagree] at h₁
  obtain rfl := Option.some.inj h₁
  obtain ⟨s₂, h₂, hlast⟩ := Option.bind_eq_some_iff.mp hrest
  rw [Chat.step, addClient_rekeying (by decide), connectServer_ctrl hagree] at h₂
  obtain rfl := Option.some.inj h₂
  obtain ⟨s₃, h₃, hend⟩ := Option.bind_eq_some_iff.mp hlast
  rw [Chat.step, daemonHandleDisconnect_rekeying (by decide)] at h₃
  obtain rfl := Option.some.inj h₃
  obtain rfl := Option.some.inj hend
  decide

/-- The client that stays is in step with the daemon after the leave as well. -/
theorem control_keys_synchronised_meeting :
    initDaemon 4 3 (some (Vector.replicate 32 2)) = some twosServer ∧
      Honest xorKeys (Chat.init twosServer) meeting ∧
      ∃ s, (Chat.init twosServer).run xorKeys meeting = some s ∧ 6 ∈ s.srv.clients ∧
        (s.client 6).keys.ctrl = s.srv.serverKey := by
  have hagree (a b : Key) : xorKeys (pointD a) (xorKeys (pointD b) basepoint) =
      xorKeys (pointD b) (xorKeys (pointD a) basepoint) :=
        xorKeys_comm (pointD a) (pointD b) basepoint
  have hsrv : initDaemon 4 3 (some (Vector.replicate 32 2)) = some twosServer := rfl
  have hdistinct : (Vector.replicate 32 2 :: meeting.map fun e => e.rekeying.renewedKey).Nodup := by
    decide
  obtain ⟨s, hrun, hshared, -⟩ := control_keys_synchronised xorKeys hagree (by decide) 3
    (Vector.replicate 32 2) twosServer hsrv meeting hdistinct meeting_honest 3
  exact ⟨hsrv, meeting_honest, s, hrun, meeting_stays hrun, hshared 6 (meeting_stays hrun)⟩

end Parcel
