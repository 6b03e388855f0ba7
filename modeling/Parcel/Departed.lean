import Parcel.ControlKey

/-!
# Departed clients

Which clients took part in the exchange that a session key comes from. After a
leave the clients that remain run an exchange among themselves, unless only one
remains: `n_party_server` then skips it, and that client keeps its session key.
-/

namespace Parcel
open Aes

variable {N : ℕ}

/-- An exchange as it is recorded: the connections that took part in it, and the
session keys that it ended with, by descriptor. -/
structure GroupExchange where
  members : Finset ℕ
  session : ℕ → Key

/-- Daemon and clients with a record of the past. Connections are numbered in the
order they are made, because a descriptor is used again after it is closed;
`connection` is the number of the connection on a descriptor, and `origin` the
exchange that the session key of the client there comes from, if any. -/
structure History (N : ℕ) where
  chat : Chat N
  joined : ℕ
  connection : ℕ → ℕ
  departed : Finset ℕ
  origin : ℕ → Option GroupExchange

namespace History

def init (srv : Server N) : History N := ⟨Chat.init srv, 0, fun _ => 0, ∅, fun _ => none⟩

def members (h : History N) : Finset ℕ := h.chat.srv.clients.image h.connection

/-- The record of an exchange, which runs between two or more clients. -/
def exchanged (h : History N) (r : Rekeying) : History N :=
  if h.chat.srv.cnt < 2 then h
  else
    { h with origin := fun fd =>
        if fd ∈ h.chat.srv.clients then some ⟨h.members, r.session⟩ else h.origin fd }

/-- The record of an event that ended in the state `s`. A connection that was
rejected leaves the number of clients as it was. -/
def record (h : History N) (s : Chat N) : ChatEvent → History N
  | .join fd _ _ _ r =>
    if s.srv.cnt = h.chat.srv.cnt then { h with chat := s }
    else
      exchanged
        { h with
          chat := s
          joined := h.joined + 1
          connection := Function.update h.connection fd h.joined
          origin := Function.update h.origin fd none } r
  | .leave clientId r =>
    exchanged
      { h with
        chat := s
        departed := insert (h.connection (h.chat.srv.slot clientId)) h.departed } r

/-- The session key of a client comes from an exchange. -/
def DerivedIn (h : History N) (fd : ℕ) (ex : GroupExchange) : Prop :=
  h.origin fd = some ex ∧ (h.chat.client fd).keys.session = ex.session fd

/-- No connected client has a session key from an exchange with a departed one. -/
def Excluded (h : History N) : Prop :=
  ∀ fd ∈ h.chat.srv.clients, ∀ ex, h.DerivedIn fd ex → Disjoint ex.members h.departed

end History

/-- The event is processed to completion: when the number of clients has changed,
and is two or more, all of them end with the keys of the exchange. -/
def ChatEvent.Completes (e : ChatEvent) (s s' : Chat N) : Prop :=
  e.Possible s ∧ (s'.srv.cnt ≠ s.srv.cnt → 2 ≤ s'.srv.cnt → ∀ fd ∈ s'.srv.clients,
    (s'.client fd).keys = ⟨e.rekeying.session fd, e.rekeying.renewedKey⟩)

/-- Runs of joins and leaves, each processed to completion. -/
inductive Processed (x25519 : Key → Key → Key) (h₀ : History N) :
    List ChatEvent → History N → Prop
  | start : Processed x25519 h₀ [] h₀
  | event {es : List ChatEvent} {h : History N} {s : Chat N} {e : ChatEvent}
      (hh : Processed x25519 h₀ es h) (hstep : h.chat.step x25519 e = some s)
      (hdone : e.Completes h.chat s) : Processed x25519 h₀ (es ++ [e]) (h.record s e)

section

variable {x25519 : Key → Key → Key} {s s' : Chat N}

theorem rekey_srv {srv : Server N} {r : Rekeying} (h : s.rekey srv r = some s') :
    s'.srv = srv ∧ (srv.cnt < 2 → s'.client = s.client) := by
  unfold Chat.rekey at h
  split at h
  · obtain rfl := Option.some.inj h
    exact ⟨rfl, fun _ => rfl⟩
  next hone =>
    obtain ⟨cable, -, rfl⟩ := Option.map_eq_some_iff.mp h
    exact ⟨rfl, fun hlt => absurd hlt hone⟩

theorem step_join {fd : ℕ} {clientRnd serverRnd : Key} {iv : Block} {r : Rekeying}
    (h : s.step x25519 (.join fd clientRnd serverRnd iv r) = some s') :
    (s.srv.cnt + 1 = N ∧ s' = s) ∨ s.srv.cnt + 1 ≠ N ∧
      s'.srv = { (s.srv.watch fd).setSlot s.srv.freeSlot fd with
        serverKey := r.keyAfter (s.srv.cnt + 1) s.srv.serverKey } := by
  rw [Chat.step] at h
  by_cases hfull : s.srv.cnt + 1 = N
  · rw [addClient_full rfl hfull] at h
    exact Or.inl ⟨hfull, (Option.some.inj h).symm⟩
  · right
    refine ⟨hfull, ?_⟩
    rw [addClient_rekeying hfull] at h
    obtain ⟨client, -, hrekey⟩ := Option.bind_eq_some_iff.mp h
    exact (rekey_srv hrekey).1

theorem step_leave {clientId : ℕ} {r : Rekeying} (hothers : 2 ≤ s.srv.cnt)
    (h : s.step x25519 (.leave clientId r) = some s') :
    (∃ key, s'.srv = { disconnectClient s.srv clientId with serverKey := key }) ∧
      (s'.srv.cnt < 2 → s'.client = s.client) := by
  rw [Chat.step, daemonHandleDisconnect_rekeying hothers] at h
  obtain ⟨hsrv, hclient⟩ := rekey_srv h
  refine ⟨⟨_, hsrv⟩, fun hlt => hclient ?_⟩
  rw [← hsrv]
  exact hlt

end

/-! ## The record over a run -/

/-- Connected clients have numbers of their own that are not among the departed. -/
structure Numbered (listening : ℕ) (h : History N) : Prop where
  slots : SlotInvariant listening h.chat.srv
  numbered : ∀ fd ∈ h.chat.srv.clients, h.connection fd < h.joined
  past : ∀ c ∈ h.departed, c < h.joined
  distinct : Set.InjOn h.connection h.chat.srv.clients
  present : ∀ fd ∈ h.chat.srv.clients, h.connection fd ∉ h.departed

/-- What holds between two events: two or more clients have the keys of one
exchange, in which they and no others took part. -/
structure Recorded (listening : ℕ) (h : History N) : Prop extends Numbered listening h where
  current : 2 ≤ h.chat.srv.cnt → ∃ session, ∀ fd ∈ h.chat.srv.clients,
    h.DerivedIn fd ⟨h.members, session⟩

section

variable {listening : ℕ} {h : History N}

theorem exchanged_fields (h : History N) (r : Rekeying) :
    (h.exchanged r).chat = h.chat ∧ (h.exchanged r).joined = h.joined ∧
      (h.exchanged r).connection = h.connection ∧ (h.exchanged r).departed = h.departed := by
  unfold History.exchanged
  split <;> exact ⟨rfl, rfl, rfl, rfl⟩

/-- The end of an event: the numbers are in order, and the exchange brings the keys. -/
theorem exchanged_recorded {r : Rekeying} (hh : Numbered listening h)
    (hkeys : 2 ≤ h.chat.srv.cnt → ∀ fd ∈ h.chat.srv.clients,
      (h.chat.client fd).keys = ⟨r.session fd, r.renewedKey⟩) :
    Recorded listening (h.exchanged r) := by
  obtain ⟨hchat, hjoined, hconnection, hdeparted⟩ := exchanged_fields h r
  refine ⟨⟨?_, ?_, ?_, ?_, ?_⟩, ?_⟩
  · rw [hchat]
    exact hh.slots
  · rw [hchat, hjoined, hconnection]
    exact hh.numbered
  · rw [hdeparted, hjoined]
    exact hh.past
  · rw [hchat, hconnection]
    exact hh.distinct
  · rw [hchat, hconnection, hdeparted]
    exact hh.present
  · intro htwo
    rw [hchat] at htwo
    refine ⟨r.session, fun fd hfd => ?_⟩
    have hmembers : (h.exchanged r).members = h.members := by
      rw [History.members, History.members, hchat, hconnection]
    rw [hchat] at hfd
    rw [History.DerivedIn, hmembers, hchat, hkeys htwo fd hfd, History.exchanged,
      if_neg (by omega)]
    exact ⟨if_pos hfd, rfl⟩

theorem join_recorded {x25519 : Key → Key → Key} {s : Chat N} {fd : ℕ} {clientRnd serverRnd : Key}
    {iv : Block} {r : Rekeying} (hN : 0 < N) (hh : Recorded listening h)
    (hstep : h.chat.step x25519 (.join fd clientRnd serverRnd iv r) = some s)
    (hdone : (ChatEvent.join fd clientRnd serverRnd iv r).Completes h.chat s) :
    Recorded listening (h.record s (.join fd clientRnd serverRnd iv r)) := by
  obtain ⟨hfresh, hkeys⟩ := hdone
  rw [History.record]
  rcases step_join hstep with ⟨-, rfl⟩ | ⟨hfull, hsrv⟩
  · rw [if_pos rfl]
    exact hh
  have hroom : h.chat.srv.cnt + 1 < N := by
    have := hh.slots.bounded
    omega
  have hcnt : s.srv.cnt = h.chat.srv.cnt + 1 := by rw [hsrv]; rfl
  have hclients : s.srv.clients = insert fd h.chat.srv.clients := by
    rw [hsrv]
    exact joined_clients hh.slots hroom fd
  have hnew : fd ∉ h.chat.srv.clients := by
    intro hmem
    obtain ⟨i, -, hi, hslot⟩ := mem_clients.mp hmem
    exact hfresh.2 i hi hslot
  -- the new connection has the next number, the others keep theirs
  have hother : ∀ fd' ∈ h.chat.srv.clients,
      Function.update h.connection fd h.joined fd' = h.connection fd' := by
    intro fd' hfd'
    apply Function.update_of_ne
    rintro rfl
    exact hnew hfd'
  rw [if_neg (by omega)]
  apply exchanged_recorded
  · constructor
    · show SlotInvariant listening s.srv
      rw [hsrv]
      exact (joined_invariant hh.slots hroom hfresh).withKey _
    · intro fd' hfd'
      show Function.update h.connection fd h.joined fd' < h.joined + 1
      rcases Finset.mem_insert.mp (hclients ▸ hfd') with rfl | hold
      · rw [Function.update_self]
        omega
      · rw [hother fd' hold]
        exact (hh.numbered fd' hold).trans (Nat.lt_succ_self _)
    · intro c hc
      exact (hh.past c hc).trans (Nat.lt_succ_self _)
    · show Set.InjOn (Function.update h.connection fd h.joined) s.srv.clients
      rw [hclients, Finset.coe_insert, Set.injOn_insert (by exact_mod_cast hnew)]
      constructor
      · intro x hx y hy hxy
        rw [hother x hx, hother y hy] at hxy
        exact hh.distinct hx hy hxy
      · rintro ⟨fd', hfd', heq⟩
        rw [Function.update_self, hother fd' hfd'] at heq
        have := hh.numbered fd' hfd'
        omega
    · intro fd' hfd'
      show Function.update h.connection fd h.joined fd' ∉ h.departed
      rcases Finset.mem_insert.mp (hclients ▸ hfd') with rfl | hold
      · rw [Function.update_self]
        intro hmem
        exact absurd (hh.past _ hmem) (lt_irrefl _)
      · rw [hother fd' hold]
        exact hh.present fd' hold
  · exact hkeys (by omega)

theorem leave_numbered {s : Chat N} {clientId : ℕ} {key : Key} (hh : Numbered listening h)
    (hi : 1 ≤ clientId) (hcnt : clientId ≤ h.chat.srv.cnt)
    (hsrv : s.srv = { disconnectClient h.chat.srv clientId with serverKey := key }) :
    Numbered listening
      { h with
        chat := s
        departed := insert (h.connection (h.chat.srv.slot clientId)) h.departed } := by
  have hclients : s.srv.clients = h.chat.srv.clients.erase (h.chat.srv.slot clientId) := by
    rw [hsrv]
    exact left_clients hh.slots hi hcnt
  have hleft : h.chat.srv.slot clientId ∈ h.chat.srv.clients :=
    mem_clients.mpr ⟨clientId, hi, hcnt, rfl⟩
  have hsub : ∀ fd ∈ s.srv.clients, fd ∈ h.chat.srv.clients := by
    intro fd hfd
    exact Finset.mem_of_mem_erase (hclients ▸ hfd)
  constructor
  · show SlotInvariant listening s.srv
    rw [hsrv]
    exact (disconnectClient_invariant hh.slots hi hcnt).withKey key
  · intro fd hfd
    exact hh.numbered fd (hsub fd hfd)
  · intro c hc
    rcases Finset.mem_insert.mp hc with rfl | hc
    · exact hh.numbered _ hleft
    · exact hh.past c hc
  · intro x hx y hy hxy
    exact hh.distinct (hsub x hx) (hsub y hy) hxy
  · intro fd hfd hmem
    -- a number is one connection's, so that of the one that left is no other's
    rcases Finset.mem_insert.mp hmem with heq | hmem
    · have hsame := hh.distinct (hsub fd hfd) hleft heq
      exact Finset.ne_of_mem_erase (hclients ▸ hfd) hsame
    · exact hh.present fd (hsub fd hfd) hmem

theorem leave_recorded {x25519 : Key → Key → Key} {s : Chat N} {clientId : ℕ} {r : Rekeying}
    (hh : Recorded listening h) (hstep : h.chat.step x25519 (.leave clientId r) = some s)
    (hdone : (ChatEvent.leave clientId r).Completes h.chat s) :
    Recorded listening (h.record s (.leave clientId r)) := by
  obtain ⟨⟨hi, hcnt, hothers⟩, hkeys⟩ := hdone
  obtain ⟨⟨key, hsrv⟩, -⟩ := step_leave hothers hstep
  have hleft : s.srv.cnt = h.chat.srv.cnt - 1 := by
    rw [hsrv]
    exact (left_fields h.chat.srv clientId).1
  exact exchanged_recorded (leave_numbered hh.toNumbered hi hcnt hsrv) (hkeys (by omega))

theorem processed_recorded {x25519 : Key → Key → Key} {h₀ : History N} (hN : 0 < N)
    {es : List ChatEvent} (hinit : Recorded listening h₀) (hh : Processed x25519 h₀ es h) :
    Recorded listening h := by
  induction hh with
  | start => exact hinit
  | @event _ h s e _ hstep hdone ih =>
    cases e with
    | join fd clientRnd serverRnd iv r => exact join_recorded hN ih hstep hdone
    | leave clientId r => exact leave_recorded ih hstep hdone

theorem init_recorded {srv : Server N} {initial : Key} (hN : 0 < N)
    (hsrv : initDaemon N listening (some initial) = some srv) :
    Recorded listening (History.init srv) := by
  have hcnt : srv.cnt = 0 := by rw [← Option.some.inj hsrv]
  have hnone : ∀ fd, fd ∉ srv.clients := by
    intro fd hfd
    obtain ⟨i, hi, hle, -⟩ := mem_clients.mp hfd
    omega
  refine ⟨⟨initDaemon_invariant hN hsrv, ?_, ?_, ?_, ?_⟩, ?_⟩
  · exact fun fd hfd => absurd hfd (hnone fd)
  · exact fun c hc => absurd hc (Finset.notMem_empty c)
  · exact fun fd hfd => absurd hfd (hnone fd)
  · exact fun fd hfd => absurd hfd (hnone fd)
  · intro htwo
    have : 2 ≤ srv.cnt := htwo
    omega

theorem excluded_of_two (hh : Recorded listening h) (htwo : 2 ≤ h.chat.srv.cnt) : h.Excluded := by
  obtain ⟨session, hcurrent⟩ := hh.current htwo
  intro fd hfd ex hex
  have hsame : ex = ⟨h.members, session⟩ := by
    apply Option.some.inj
    rw [← hex.1, (hcurrent fd hfd).1]
  rw [hsame, Finset.disjoint_left]
  intro c hc
  obtain ⟨fd', hfd', rfl⟩ := Finset.mem_image.mp hc
  exact hh.present fd' hfd'

theorem not_excluded_of_one {s : Chat N} {clientId : ℕ} {r : Rekeying} {key : Key}
    (hh : Recorded listening h) (hi : 1 ≤ clientId) (hcnt : clientId ≤ h.chat.srv.cnt)
    (htwo : h.chat.srv.cnt = 2)
    (hsrv : s.srv = { disconnectClient h.chat.srv clientId with serverKey := key })
    (hclient : s.client = h.chat.client) : ¬(h.record s (.leave clientId r)).Excluded := by
  have hleft : s.srv.cnt = 1 := by
    rw [hsrv]
    show (disconnectClient h.chat.srv clientId).cnt = 1
    rw [(left_fields h.chat.srv clientId).1, htwo]
  have hclients : s.srv.clients = h.chat.srv.clients.erase (h.chat.srv.slot clientId) := by
    rw [hsrv]
    exact left_clients hh.slots hi hcnt
  have hstays : s.srv.slot 1 ∈ s.srv.clients := mem_clients.mpr ⟨1, le_rfl, by omega, rfl⟩
  have hthere : s.srv.slot 1 ∈ h.chat.srv.clients := Finset.mem_of_mem_erase (hclients ▸ hstays)
  obtain ⟨session, hcurrent⟩ := hh.current (by omega)
  obtain ⟨horigin, hsession⟩ := hcurrent _ hthere
  have hgone : h.connection (h.chat.srv.slot clientId) ∈ h.members :=
    Finset.mem_image_of_mem _ (mem_clients.mpr ⟨clientId, hi, hcnt, rfl⟩)
  intro hexcluded
  rw [History.record, History.exchanged, if_pos (by simp only [hleft]; omega)] at hexcluded
  have hdisjoint := hexcluded _ hstays ⟨h.members, session⟩ ⟨horigin, by
    dsimp only
    rw [hclient]
    exact hsession⟩
  exact Finset.disjoint_left.mp hdisjoint hgone (Finset.mem_insert_self _ _)

end

/-- The clients that remain are without the keys of exchanges with departed ones exactly when
two or more of them remain. -/
theorem excluded_iff_of_processed {x25519 : Key → Key → Key} (hN : 0 < N) {listening : ℕ}
    {initial : Key} {srv : Server N} (hsrv : initDaemon N listening (some initial) = some srv)
    {es : List ChatEvent} {h : History N} (hh : Processed x25519 (History.init srv) es h)
    {clientId : ℕ} {r : Rekeying} {s : Chat N}
    (hstep : h.chat.step x25519 (.leave clientId r) = some s)
    (hdone : (ChatEvent.leave clientId r).Completes h.chat s) :
    (h.record s (.leave clientId r)).Excluded ↔ 2 ≤ s.srv.cnt := by
  have hrecorded := processed_recorded hN (init_recorded hN hsrv) hh
  have hafter := leave_recorded hrecorded hstep hdone
  obtain ⟨⟨hi, hcnt, hothers⟩, -⟩ := hdone
  obtain ⟨⟨key, hs⟩, hclient⟩ := step_leave hothers hstep
  have hleft : s.srv.cnt = h.chat.srv.cnt - 1 := by
    rw [hs]
    exact (left_fields h.chat.srv clientId).1
  constructor
  · intro hexcluded
    by_contra hone
    exact not_excluded_of_one hrecorded hi hcnt (by omega) hs (hclient (by omega)) hexcluded
  · intro htwo
    apply excluded_of_two hafter
    rw [History.record, (exchanged_fields _ r).1]
    exact htwo

/-! ## Honest runs -/

section

variable {x25519 : Key → Key → Key} {listening : ℕ} {initial : Key}

theorem record_chat (h : History N) (s : Chat N) (e : ChatEvent) : (h.record s e).chat = s := by
  unfold History.record
  split
  · split
    · rfl
    · exact (exchanged_fields _ _).1
  · exact (exchanged_fields _ _).1

/-- An event whose control cable no recipient mistakes is processed to completion. -/
theorem step_completes
    (hagree : ∀ a b, x25519 (pointD a) (x25519 (pointD b) basepoint) =
      x25519 (pointD b) (x25519 (pointD a) basepoint))
    (hN : 0 < N) {s s' : Chat N} (hs : Synced listening initial s) {e : ChatEvent}
    (he : e.Possible s) (hstep : s.step x25519 e = some s')
    (hunamb : ∀ c ∈ s'.sent, c.Unambiguous) : e.Completes s s' := by
  refine ⟨he, fun hchanged htwo => ?_⟩
  rcases step_rekey hagree hN hs he with hsame | ⟨client, srv, hrekey, -, -, hclient⟩
  · rw [hstep] at hsame
    rw [Option.some.inj hsame] at hchanged
    exact absurd rfl hchanged
  · rw [hstep] at hrekey
    have hsrv := (rekey_srv hrekey.symm).1
    rw [hsrv] at htwo ⊢
    have hshared := hs.shared_of hclient
    exact rekey_keys htwo hshared hrekey.symm hunamb

/-- So is every event of an honest run. -/
theorem honest_processed
    (hagree : ∀ a b, x25519 (pointD a) (x25519 (pointD b) basepoint) =
      x25519 (pointD b) (x25519 (pointD a) basepoint))
    (hN : 0 < N) {h₀ h : History N} {before es : List ChatEvent}
    (hh : Processed x25519 h₀ before h) (hs : Synced listening initial h.chat)
    (hes : Honest x25519 h.chat es) :
    ∃ h', Processed x25519 h₀ (before ++ es) h' ∧ h.chat.run x25519 es = some h'.chat ∧
      Synced listening initial h'.chat := by
  induction es generalizing before h with
  | nil => exact ⟨h, by rwa [List.append_nil], rfl, hs⟩
  | cons e es ih =>
    obtain ⟨he, hrest⟩ := hes
    obtain ⟨s, hstep, -, hsynced⟩ := step_synced hagree hN hs he
    obtain ⟨hunamb, hhonest⟩ := hrest s hstep
    have hdone := step_completes hagree hN hs he hstep hunamb
    have hnext : Processed x25519 h₀ (before ++ [e]) (h.record s e) := hh.event hstep hdone
    obtain ⟨h', hprocessed, hrun, hs'⟩ := ih hnext
      (by rw [record_chat]; exact hsynced hunamb) (by rw [record_chat]; exact hhonest)
    refine ⟨h', ?_, ?_, hs'⟩
    · rw [List.append_cons]
      exact hprocessed
    · rw [Chat.run, hstep, Option.bind_some, ← hrun, record_chat]

end

theorem honest_append {x25519 : Key → Key → Key} {s : Chat N} {es more : List ChatEvent}
    (h : Honest x25519 s (es ++ more)) :
    Honest x25519 s es ∧ ∀ s', s.run x25519 es = some s' → Honest x25519 s' more := by
  induction es generalizing s with
  | nil =>
    refine ⟨trivial, fun s' hrun => ?_⟩
    obtain rfl := Option.some.inj hrun
    exact h
  | cons e es ih =>
    obtain ⟨hpossible, hrest⟩ := h
    refine ⟨⟨hpossible, fun s' hstep => ⟨(hrest s' hstep).1, (ih (hrest s' hstep).2).1⟩⟩,
      fun s' hrun => ?_⟩
    obtain ⟨t, hstep, hrun⟩ := Option.bind_eq_some_iff.mp hrun
    exact (ih (hrest t hstep).2).2 s' hrun

/-- A leave that leaves someone, after any run of events that are processed to completion, as
those of an honest run are: the clients that remain are without the keys of exchanges with
departed ones exactly when two or more of them remain. -/
theorem departed_excluded_iff (x25519 : Key → Key → Key) (hN : 0 < N) (listening : ℕ)
    (initial : Key) (srv : Server N) (hsrv : initDaemon N listening (some initial) = some srv) :
    (∀ es h, Processed x25519 (History.init srv) es h → ∀ clientId r s,
      h.chat.step x25519 (.leave clientId r) = some s →
      (ChatEvent.leave clientId r).Completes h.chat s →
        ((h.record s (.leave clientId r)).Excluded ↔ 2 ≤ s.srv.cnt)) ∧
    ((∀ a b, x25519 (pointD a) (x25519 (pointD b) basepoint) =
      x25519 (pointD b) (x25519 (pointD a) basepoint)) → ∀ es clientId r,
        Honest x25519 (Chat.init srv) (es ++ [.leave clientId r]) →
          ∃ h s, Processed x25519 (History.init srv) es h ∧
            (Chat.init srv).run x25519 es = some h.chat ∧
            h.chat.step x25519 (.leave clientId r) = some s ∧
            ((h.record s (.leave clientId r)).Excluded ↔ 2 ≤ s.srv.cnt)) := by
  refine ⟨fun es h hh clientId r s => excluded_iff_of_processed hN hsrv hh,
    fun hagree es clientId r hes => ?_⟩
  obtain ⟨hbefore, hafter⟩ := honest_append hes
  obtain ⟨h, hprocessed, hrun, hsynced⟩ := honest_processed hagree hN (h := History.init srv) .start
    (init_synced hN hsrv) hbefore
  obtain ⟨hpossible, hlast⟩ := hafter h.chat hrun
  obtain ⟨s, hstep, -, -⟩ := step_synced hagree hN hsynced hpossible
  have hdone := step_completes hagree hN hsynced hpossible hstep (hlast s hstep).1
  exact ⟨h, s, hprocessed, hrun, hstep, excluded_iff_of_processed hN hsrv hprocessed hstep hdone⟩

/-! ## Runs with zero session keys -/

/-- A run that has given all its clients the zero session key. -/
structure ZeroRun (x25519 : Key → Key → Key) (listening : ℕ) (initial : Key) (h₀ : History N)
    (es : List ChatEvent) (h : History N) : Prop where
  processed : Processed x25519 h₀ es h
  synced : Synced listening initial h.chat
  zero : ∀ fd ∈ h.chat.srv.clients, (h.chat.client fd).keys.session = Vector.replicate 32 0
  unambiguous : ∀ c ∈ h.chat.sent, c.Unambiguous

theorem rekey_zero {s s' : Chat N} {srv : Server N} {r : Rekeying}
    (hclient : ∀ fd ∈ srv.clients, (s.client fd).keys.session = Vector.replicate 32 0)
    (hshared : ∀ fd ∈ srv.clients, (s.client fd).keys.ctrl = s.srv.serverKey)
    (hold : ∀ c ∈ s.sent, c.Unambiguous) (hzero : ∀ fd, r.session fd = Vector.replicate 32 0)
    (hmac : 2 ≤ srv.cnt → (initCtrlKeyCable (srv.cnt - 1) r.renewedKey s.srv.serverKey
      (some r.iv)).all (fun cable => !wireVerifyInnerMac
        (aes128InitCmac (Key.mac (Vector.replicate 32 0))) (cabledWire cable)) = true)
    (h : s.rekey srv r = some s') :
    (∀ c ∈ s'.sent, c.Unambiguous) ∧
      ∀ fd ∈ srv.clients, (s'.client fd).keys.session = Vector.replicate 32 0 := by
  by_cases hone : srv.cnt < 2
  · rw [Chat.rekey, if_pos hone] at h
    obtain rfl := Option.some.inj h
    exact ⟨hold, hclient⟩
  have hunamb : ∀ c ∈ s'.sent, c.Unambiguous := by
    rw [Chat.rekey, if_neg hone] at h
    obtain ⟨cable, -, rfl⟩ := Option.map_eq_some_iff.mp h
    intro c hc
    rcases List.mem_append.mp hc with hc | hc
    · exact hold c hc
    · rw [List.mem_singleton.mp hc]
      apply unambiguous_of_zero
      · rw [CtrlCable.cable]
        exact hmac (by omega)
      · intro session hsession
        obtain ⟨fd, hfd, rfl⟩ := List.mem_map.mp hsession
        exact hclient fd (mem_sockets.mp hfd)
  refine ⟨hunamb, fun fd hfd => ?_⟩
  rw [rekey_keys (by omega) hshared h hunamb fd hfd]
  exact hzero fd

theorem zeroRun_event {x25519 : Key → Key → Key} {listening : ℕ} {initial : Key} {h₀ h : History N}
    {es : List ChatEvent}
    (hagree : ∀ a b, x25519 (pointD a) (x25519 (pointD b) basepoint) =
      x25519 (pointD b) (x25519 (pointD a) basepoint))
    (hN : 0 < N) (hh : ZeroRun x25519 listening initial h₀ es h) {e : ChatEvent}
    (he : e.Possible h.chat) (hzero : ∀ fd, e.rekeying.session fd = Vector.replicate 32 0)
    (hmac : ∀ s, h.chat.step x25519 e = some s → 2 ≤ s.srv.cnt →
      (initCtrlKeyCable (s.srv.cnt - 1) e.rekeying.renewedKey h.chat.srv.serverKey
        (some e.rekeying.iv)).all (fun cable => !wireVerifyInnerMac
          (aes128InitCmac (Key.mac (Vector.replicate 32 0))) (cabledWire cable)) = true) :
    ∃ s, h.chat.step x25519 e = some s ∧ e.Completes h.chat s ∧
      ZeroRun x25519 listening initial h₀ (es ++ [e]) (h.record s e) := by
  obtain ⟨s, hstep, -, hsynced⟩ := step_synced hagree hN hh.synced he
  have hafter : (∀ c ∈ s.sent, c.Unambiguous) ∧
      ∀ fd ∈ s.srv.clients, (s.client fd).keys.session = Vector.replicate 32 0 := by
    -- an event ends without an exchange, or in one
    rcases step_rekey hagree hN hh.synced he with hsame | ⟨client, srv, hrekey, -, -, hclient⟩
    · rw [hstep] at hsame
      rw [Option.some.inj hsame]
      exact ⟨hh.unambiguous, hh.zero⟩
    · rw [hstep] at hrekey
      have hsrv := (rekey_srv hrekey.symm).1
      have hshared := hh.synced.shared_of hclient
      have hmac := hmac s hstep
      rw [hsrv] at hmac ⊢
      have hsession : ∀ fd ∈ srv.clients, (client fd).keys.session = Vector.replicate 32 0 := by
        intro fd hfd
        rcases hclient fd hfd with ⟨hthere, hsame⟩ | hnew
        · rw [hsame]
          exact hh.zero fd hthere
        · rw [hnew]
      exact @rekey_zero N { h.chat with client := client } s srv e.rekeying hsession hshared
        hh.unambiguous hzero hmac hrekey.symm
  obtain ⟨hunamb, hsession⟩ := hafter
  have hdone := step_completes hagree hN hh.synced he hstep hunamb
  refine ⟨s, hstep, hdone, hh.processed.event hstep hdone, ?_, ?_, ?_⟩
  · rw [record_chat]
    exact hsynced hunamb
  · rw [record_chat]
    exact hsession
  · rw [record_chat]
    exact hunamb

theorem zeroRun_join {x25519 : Key → Key → Key} {listening : ℕ} {initial : Key} {h₀ h : History N}
    {es : List ChatEvent} {srv : Server N} (fd : ℕ) (clientRnd serverRnd : Key) (iv : Block)
    (b : UInt8)
    (hagree : ∀ a b, x25519 (pointD a) (x25519 (pointD b) basepoint) =
      x25519 (pointD b) (x25519 (pointD a) basepoint))
    (hh : ZeroRun x25519 listening initial h₀ es h) (hsrv : h.chat.srv = srv)
    (hroom : srv.cnt + 1 < N) (hfresh : srv.Fresh fd)
    (hmac : 2 ≤ srv.cnt + 1 → (initCtrlKeyCable srv.cnt (Vector.replicate 32 b) srv.serverKey
      (some (Vector.replicate 16 0))).all (fun cable => !wireVerifyInnerMac
        (aes128InitCmac (Key.mac (Vector.replicate 32 0))) (cabledWire cable)) = true) :
    ∃ h', ZeroRun x25519 listening initial h₀
        (es ++ [.join fd clientRnd serverRnd iv (renewTo b)]) h' ∧
      h'.chat.srv = { (srv.watch fd).setSlot srv.freeSlot fd with
        serverKey := (renewTo b).keyAfter (srv.cnt + 1) srv.serverKey } := by
  subst hsrv
  have hjoined (s : Chat N)
      (hstep : h.chat.step x25519 (.join fd clientRnd serverRnd iv (renewTo b)) = some s) :
      s.srv = { (h.chat.srv.watch fd).setSlot h.chat.srv.freeSlot fd with
        serverKey := (renewTo b).keyAfter (h.chat.srv.cnt + 1) h.chat.srv.serverKey } := by
    rcases step_join hstep with ⟨hfull, -⟩ | ⟨-, hsrv⟩
    · omega
    · exact hsrv
  obtain ⟨s, hstep, -, hrun⟩ := zeroRun_event hagree (by omega) hh
    (e := .join fd clientRnd serverRnd iv (renewTo b)) hfresh (fun _ => rfl) (by
      intro s hstep htwo
      have hcnt : s.srv.cnt = h.chat.srv.cnt + 1 := by rw [hjoined s hstep]; rfl
      rw [hcnt] at htwo ⊢
      exact hmac htwo)
  exact ⟨_, hrun, by rw [record_chat]; exact hjoined s hstep⟩

def gathering : List ChatEvent :=
  [.join 5 (Vector.replicate 32 7) (Vector.replicate 32 8) (Vector.replicate 16 0) (renewTo 1),
    .join 6 (Vector.replicate 32 9) (Vector.replicate 32 10) (Vector.replicate 16 0) (renewTo 3),
    .join 7 (Vector.replicate 32 11) (Vector.replicate 32 12) (Vector.replicate 16 0) (renewTo 2)]

def gatheringCable : CtrlCable :=
  ⟨2, Vector.replicate 32 2, Vector.replicate 32 3, Vector.replicate 16 0,
    [Vector.replicate 32 0, Vector.replicate 32 0, Vector.replicate 32 0]⟩

theorem gatheringCable_inner_mac : gatheringCable.cable.all (fun cable =>
    !wireVerifyInnerMac (aes128InitCmac (Key.mac (Vector.replicate 32 0))) (cabledWire cable)) =
      true := by
  apply gatheringCable.inner_mac_of_columns
  decide +kernel

/-- The tables after the second join, and after the third. -/
def twoClients : Server 4 := ⟨#v[3, 5, 6, 0], 2, {6, 5, 3}, 6, Vector.replicate 32 3⟩

def threeClients : Server 4 :=
  ⟨twoClients.sfds.setIfInBounds 3 7, 3, {7, 6, 5, 3}, 7, Vector.replicate 32 2⟩

theorem gathering_zeroRun :
    (∃ h, ZeroRun xorKeys 3 (Vector.replicate 32 2) (History.init twosServer) (gathering.take 2) h ∧
      h.chat.srv = twoClients) ∧
    ∃ h, ZeroRun xorKeys 3 (Vector.replicate 32 2) (History.init twosServer) gathering h ∧
      h.chat.srv = threeClients := by
  have hagree (a b : Key) : xorKeys (pointD a) (xorKeys (pointD b) basepoint) =
      xorKeys (pointD b) (xorKeys (pointD a) basepoint) :=
        xorKeys_comm (pointD a) (pointD b) basepoint
  have hinit : ZeroRun xorKeys 3 (Vector.replicate 32 2) (History.init twosServer) []
      (History.init twosServer) := by
    refine ⟨.start, ⟨initDaemon_invariant (by decide) rfl, ?_, rfl⟩, ?_, ?_⟩
    · exact fun fd hfd => absurd hfd (Finset.notMem_empty fd)
    · exact fun fd hfd => absurd hfd (Finset.notMem_empty fd)
    · exact fun c hc => absurd hc List.not_mem_nil
  have hsecond := meetingCable_inner_mac
  have hthird := gatheringCable_inner_mac
  rw [CtrlCable.cable] at hsecond hthird
  obtain ⟨h₁, hrun₁, hsrv₁⟩ := zeroRun_join 5 (Vector.replicate 32 7) (Vector.replicate 32 8)
    (Vector.replicate 16 0) 1 hagree hinit rfl (by decide) ⟨by decide, by decide⟩
    (fun h => absurd h (by decide))
  have hone : h₁.chat.srv = ⟨#v[3, 5, 0, 0], 1, {5, 3}, 5, Vector.replicate 32 2⟩ := hsrv₁
  obtain ⟨h₂, hrun₂, hsrv₂⟩ := zeroRun_join 6 (Vector.replicate 32 9) (Vector.replicate 32 10)
    (Vector.replicate 16 0) 3 hagree hrun₁ hone (by decide) ⟨by decide, by decide⟩
      (fun _ => hsecond)
  have htwo : h₂.chat.srv = twoClients := hsrv₂
  obtain ⟨h₃, hrun₃, hsrv₃⟩ := zeroRun_join 7 (Vector.replicate 32 11) (Vector.replicate 32 12)
    (Vector.replicate 16 0) 2 hagree hrun₂ htwo (by decide) ⟨by decide, by decide⟩ (fun _ => hthird)
  exact ⟨⟨h₂, hrun₂, hsrv₂⟩, h₃, hrun₃, hsrv₃⟩

/-- Three clients join and one leaves: the two that remain have excluded it. -/
theorem departed_excluded_gathering :
    ∃ h s, Processed xorKeys (History.init twosServer) gathering h ∧
      h.chat.step xorKeys (.leave 1 (renewTo 3)) = some s ∧ s.srv.clients = {6, 7} ∧
      (h.record s (.leave 1 (renewTo 3))).Excluded := by
  have hagree (a b : Key) : xorKeys (pointD a) (xorKeys (pointD b) basepoint) =
      xorKeys (pointD b) (xorKeys (pointD a) basepoint) :=
        xorKeys_comm (pointD a) (pointD b) basepoint
  obtain ⟨-, h, hrun, hthree⟩ := gathering_zeroRun
  have hpossible : (ChatEvent.leave 1 (renewTo 3)).Possible h.chat := by
    rw [ChatEvent.Possible, hthree]
    decide
  have hsrv (s : Chat 4) (hstep : h.chat.step xorKeys (.leave 1 (renewTo 3)) = some s) :
      ∃ key, s.srv = { disconnectClient threeClients 1 with serverKey := key } := by
    rw [← hthree]
    exact (step_leave hpossible.2.2 hstep).1
  -- no client of the meeting takes the cable for one under the group key
  obtain ⟨s, hstep, hdone, -⟩ := zeroRun_event hagree (by decide) hrun hpossible (fun _ => rfl) (by
    intro s hstep _
    obtain ⟨key, hs⟩ := hsrv s hstep
    have hcnt : s.srv.cnt = 2 := by rw [hs]; rfl
    have hmac := meetingCable_inner_mac
    rw [CtrlCable.cable] at hmac
    rw [hcnt, hthree]
    exact hmac)
  obtain ⟨key, hs⟩ := hsrv s hstep
  refine ⟨h, s, hrun.processed, hstep, ?_, ?_⟩
  · rw [hs]
    show (disconnectClient threeClients 1).clients = {6, 7}
    decide
  · apply ((departed_excluded_iff xorKeys (by decide) 3 (Vector.replicate 32 2) twosServer rfl).1
      gathering h hrun.processed 1 (renewTo 3) s hstep hdone).mpr
    rw [hs]
    show 2 ≤ (disconnectClient threeClients 1).cnt
    decide

/-- Two clients join and one leaves: the other keeps the key that they shared. -/
theorem departed_not_excluded :
    ∃ h s, Processed xorKeys (History.init twosServer) (gathering.take 2) h ∧
      h.chat.step xorKeys (.leave 1 (renewTo 4)) = some s ∧
      (ChatEvent.leave 1 (renewTo 4)).Completes h.chat s ∧ s.srv.clients = {6} ∧
      ¬(h.record s (.leave 1 (renewTo 4))).Excluded := by
  have hagree (a b : Key) : xorKeys (pointD a) (xorKeys (pointD b) basepoint) =
      xorKeys (pointD b) (xorKeys (pointD a) basepoint) :=
        xorKeys_comm (pointD a) (pointD b) basepoint
  obtain ⟨⟨h, hrun, htwo⟩, -⟩ := gathering_zeroRun
  have hpossible : (ChatEvent.leave 1 (renewTo 4)).Possible h.chat := by
    rw [ChatEvent.Possible, htwo]
    decide
  have hcnt : h.chat.srv.cnt = 2 := by rw [htwo]; rfl
  obtain ⟨s, hstep, -, -⟩ := step_synced hagree (by decide) hrun.synced hpossible
  obtain ⟨⟨key, hs⟩, hclient⟩ := step_leave hpossible.2.2 hstep
  have hleft : s.srv.cnt = 1 := by
    rw [hs]
    show (disconnectClient h.chat.srv 1).cnt = 1
    rw [(left_fields h.chat.srv 1).1, hcnt]
  have hdone : (ChatEvent.leave 1 (renewTo 4)).Completes h.chat s :=
    ⟨hpossible, fun _ hmore => absurd hmore (by omega)⟩
  have hrecorded := processed_recorded (by decide) (init_recorded (N := 4) (by decide) rfl)
    hrun.processed
  refine ⟨h, s, hrun.processed, hstep, hdone, ?_, ?_⟩
  · rw [hs, htwo]
    show (disconnectClient twoClients 1).clients = {6}
    decide
  · exact not_excluded_of_one hrecorded (by decide) (by omega) hcnt hs (hclient (by omega))

end Parcel
