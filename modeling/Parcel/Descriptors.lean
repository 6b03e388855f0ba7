import Parcel.SlotTable

/-!
# Descriptors

The numbers of the descriptors that the daemon puts into its `fd_set`. `add_client` counts
the clients, while the set has room for the numbers below `FD_SETSIZE`, and some of these
belong to descriptors that are no clients.
-/

namespace Parcel

variable {N : ℕ}

theorem exists_free (s : Finset ℕ) : ∃ n, n ∉ s := Infinite.exists_notMem_finset s

def lowestFree (s : Finset ℕ) : ℕ := Nat.find (exists_free s)

theorem lowestFree_notMem (s : Finset ℕ) : lowestFree s ∉ s := Nat.find_spec (exists_free s)

/-- There is a free number below a bound exactly if fewer numbers than that are taken below it. -/
theorem lowestFree_lt_iff (s : Finset ℕ) (n : ℕ) :
    lowestFree s < n ↔ (s.filter (· < n)).card < n := by
  have hsubset : s.filter (· < n) ⊆ Finset.range n := by
    intro x hx
    exact Finset.mem_range.mpr (Finset.mem_filter.mp hx).2
  constructor
  · intro hlt
    refine (Finset.card_lt_card (hsubset.ssubset_of_ne fun heq => ?_)).trans_eq
      (Finset.card_range n)
    have hmem : lowestFree s ∈ s.filter (· < n) := heq ▸ Finset.mem_range.mpr hlt
    exact lowestFree_notMem s (Finset.mem_filter.mp hmem).1
  · intro hcard
    -- Otherwise all numbers below the bound are taken.
    by_contra hge
    have hall : Finset.range n ⊆ s.filter (· < n) := by
      intro x hx
      have hlt := Finset.mem_range.mp hx
      refine Finset.mem_filter.mpr ⟨?_, hlt⟩
      exact not_not.mp (Nat.find_min (exists_free s) (hlt.trans_le (not_lt.mp hge)))
    exact absurd ((Finset.card_range n).symm.trans_le (Finset.card_le_card hall)) hcard.not_ge

/-- The daemon with the descriptors that its process has open. -/
structure DaemonProcess (N : ℕ) where
  srv : Server N
  opened : Finset ℕ

/-- What happens at the sockets: a connection, with whether `accept` succeeds and how the
handshake with the client goes, or the end of the one in a slot. -/
inductive SocketEvent
  | connection (accepted peerAddr twoParty : Bool) (exchange : Exchange)
  | disconnect (clientIndex : ℕ)

namespace DaemonProcess

/-- The call of `accept` gives the lowest free descriptor. -/
def joining (p : DaemonProcess N) (accepted peerAddr twoParty : Bool) (exchange : Exchange) :
    Joining :=
  ⟨if accepted then some (lowestFree p.opened) else none, peerAddr, twoParty, exchange⟩

/-- One event, unless `main_thread` returns. A rejected connection is not closed. -/
def step (p : DaemonProcess N) : SocketEvent → Option (DaemonProcess N)
  | .connection accepted peerAddr twoParty exchange =>
    match addClient p.srv (p.joining accepted peerAddr twoParty exchange) with
    | none | some (.failed, _) => none
    | some (.rejected, srv) | some (.added, srv) =>
        some ⟨srv, insert (lowestFree p.opened) p.opened⟩
  | .disconnect clientIndex =>
    if 1 ≤ clientIndex ∧ clientIndex ≤ p.srv.cnt then
      some ⟨disconnectClient p.srv clientIndex, p.opened.erase (p.srv.slot clientIndex)⟩
    else some p

/-- The descriptor that `add_client` passes to `FD_SET`. -/
def watches (p : DaemonProcess N) : SocketEvent → Option ℕ
  | .connection accepted _ _ _ =>
    if accepted ∧ p.srv.cnt + 1 ≠ N then some (lowestFree p.opened) else none
  | .disconnect _ => none

/-- All descriptors of a run that are passed to `FD_SET` are below `FD_SETSIZE`. -/
def Within (p : DaemonProcess N) : List SocketEvent → Prop
  | [] => True
  | e :: es => (∀ fd, p.watches e = some fd → fd < N) ∧ ∀ p', p.step e = some p' → Within p' es

/-- Whenever a connection is accepted into the table, the clients and the descriptors in
`base` leave a number below `FD_SETSIZE`. -/
def RoomLeft (base : Finset ℕ) (p : DaemonProcess N) : List SocketEvent → Prop
  | [] => True
  | e :: es => (p.watches e ≠ none → p.srv.cnt + (base.filter (· < N)).card < N) ∧
      ∀ p', p.step e = some p' → RoomLeft base p' es

end DaemonProcess

theorem DaemonProcess.watches_eq {p : DaemonProcess N} {e : SocketEvent} {fd : ℕ}
    (h : p.watches e = some fd) : fd = lowestFree p.opened := by
  cases e with
  | connection accepted peerAddr twoParty exchange =>
    rw [watches] at h
    split at h
    · exact (Option.some.inj h).symm
    · cases h
  | disconnect => cases h

theorem addClient_fds {p : DaemonProcess N} {accepted peerAddr twoParty : Bool}
    {exchange : Exchange} {result : AddResult} {srv : Server N}
    (h : addClient p.srv (p.joining accepted peerAddr twoParty exchange) = some (result, srv)) :
    srv.fds = (p.watches (.connection accepted peerAddr twoParty exchange)).elim p.srv.fds
      fun fd => insert fd p.srv.fds := by
  rw [addClient, DaemonProcess.joining] at h
  rw [DaemonProcess.watches]
  cases accepted with
  | false =>
    rw [← (Prod.mk.inj (Option.some.inj h)).2]
    rfl
  | true =>
    by_cases hfull : p.srv.cnt + 1 = N
    · simp only [↓reduceIte, if_pos hfull] at h
      rw [if_neg (fun hjoin => hjoin.2 hfull), ← (Prod.mk.inj (Option.some.inj h)).2]
      rfl
    · rw [if_pos ⟨rfl, hfull⟩]
      simp only [↓reduceIte, if_neg hfull] at h
      split at h
      · rw [← (Prod.mk.inj (Option.some.inj h)).2]
        rfl
      · split at h
        · rw [← (Prod.mk.inj (Option.some.inj h)).2]
          rfl
        · split at h
          · obtain ⟨r, -, hr⟩ := Option.map_eq_some_iff.mp h
            rw [← (Prod.mk.inj hr).2]
            rfl
          · rw [← (Prod.mk.inj (Option.some.inj h)).2]
            rfl

/-- Up to here every client is below `FD_SETSIZE`, and beside the clients only the
descriptors in `base` are open. -/
structure Tracked (listening : ℕ) (base : Finset ℕ) (p : DaemonProcess N) : Prop where
  slots : SlotInvariant listening p.srv
  opened : p.opened = base ∪ p.srv.clients
  apart : Disjoint base p.srv.clients
  below : ∀ fd ∈ p.srv.clients, fd < N

section

variable {listening : ℕ} {base : Finset ℕ} {p : DaemonProcess N}

theorem SlotInvariant.card_clients {srv : Server N} (h : SlotInvariant listening srv) :
    srv.clients.card = srv.cnt := by
  rw [Server.clients, Finset.card_image_of_injOn, Nat.card_Icc, Nat.add_sub_cancel]
  intro i hi j hj heq
  have hi' := Finset.mem_Icc.mp hi
  have hj' := Finset.mem_Icc.mp hj
  exact h.distinct i j hi'.1 hi'.2 hj'.1 hj'.2 heq

theorem Tracked.mem_opened (h : Tracked listening base p) {fd : ℕ} :
    fd ∈ p.opened ↔ fd ∈ base ∨ fd ∈ p.srv.clients := by
  rw [h.opened, Finset.mem_union]

theorem Tracked.card_opened (h : Tracked listening base p) :
    (p.opened.filter (· < N)).card = p.srv.cnt + (base.filter (· < N)).card := by
  have hclients : p.srv.clients.filter (· < N) = p.srv.clients :=
    Finset.filter_true_of_mem h.below
  rw [h.opened, Finset.filter_union, hclients, Finset.card_union_of_disjoint, Nat.add_comm,
    h.slots.card_clients]
  exact h.apart.mono_left (Finset.filter_subset _ _)

theorem Tracked.lowestFree_lt_iff (h : Tracked listening base p) :
    lowestFree p.opened < N ↔ p.srv.cnt + (base.filter (· < N)).card < N := by
  rw [Parcel.lowestFree_lt_iff, h.card_opened]

theorem Tracked.cnt_lt (h : Tracked listening base p) (hN : 5 ≤ N) (hbase : {0, 1, 2} ⊆ base) :
    p.srv.cnt + 1 < N := by
  have hstd : ({0, 1, 2} : Finset ℕ) ⊆ base.filter (· < N) := by
    intro x hx
    refine Finset.mem_filter.mpr ⟨hbase hx, ?_⟩
    simp only [Finset.mem_insert, Finset.mem_singleton] at hx
    omega
  have hthree : 3 ≤ (base.filter (· < N)).card := Finset.card_le_card hstd
  have hle : (p.opened.filter (· < N)).card ≤ (Finset.range N).card := by
    apply Finset.card_le_card
    intro x hx
    exact Finset.mem_range.mpr (Finset.mem_filter.mp hx).2
  rw [h.card_opened, Finset.card_range] at hle
  omega

theorem Tracked.fresh (h : Tracked listening base p) (hzero : 0 ∈ base)
    (hlisten : listening ∈ base) :
    p.srv.Fresh (lowestFree p.opened) := by
  have hfree := not_or.mp (mt h.mem_opened.mpr (lowestFree_notMem p.opened))
  refine ⟨Nat.pos_of_ne_zero fun heq => hfree.1 (heq ▸ hzero), fun i hi heq => ?_⟩
  by_cases hpos : i = 0
  · rw [hpos, h.slots.listens] at heq
    exact hfree.1 (heq ▸ hlisten)
  · exact hfree.2 (mem_clients.mpr ⟨i, Nat.pos_of_ne_zero hpos, hi, heq⟩)

theorem Tracked.joined (h : Tracked listening base p) (hroom : p.srv.cnt + 1 < N)
    (hzero : 0 ∈ base) (hlisten : listening ∈ base) {c : Joining} {srv : Server N}
    (haccept : c.accept = some (lowestFree p.opened)) (hlt : lowestFree p.opened < N)
    (hadd : addClient p.srv c = some (.added, srv)) :
    Tracked listening base ⟨srv, insert (lowestFree p.opened) p.opened⟩ := by
  have hfree := lowestFree_notMem p.opened
  have hfresh := h.fresh hzero hlisten
  have hslots := addClient_invariant h.slots haccept hfresh (by omega) hadd
  obtain ⟨-, key, rfl⟩ := addClient_added haccept hadd
  have hclients := joined_clients h.slots hroom (lowestFree p.opened)
  refine ⟨hslots, ?_, ?_, ?_⟩
  · change insert _ p.opened = base ∪ ((p.srv.watch _).setSlot p.srv.freeSlot _).clients
    rw [hclients, Finset.union_insert, ← h.opened]
  · change Disjoint base ((p.srv.watch _).setSlot p.srv.freeSlot _).clients
    rw [hclients, Finset.disjoint_insert_right]
    exact ⟨fun hmem => hfree (h.mem_opened.mpr (Or.inl hmem)), h.apart⟩
  · change ∀ fd ∈ ((p.srv.watch _).setSlot p.srv.freeSlot _).clients, fd < N
    rw [hclients]
    exact Finset.forall_mem_insert _ _ _ |>.mpr ⟨hlt, h.below⟩

theorem Tracked.left (h : Tracked listening base p) {i : ℕ} (hi : 1 ≤ i) (hcnt : i ≤ p.srv.cnt) :
    Tracked listening base ⟨disconnectClient p.srv i, p.opened.erase (p.srv.slot i)⟩ := by
  have hclients := left_clients h.slots hi hcnt
  have hslot : p.srv.slot i ∉ base := fun hmem =>
    Finset.disjoint_left.mp h.apart hmem (mem_clients.mpr ⟨i, hi, hcnt, rfl⟩)
  refine ⟨disconnectClient_invariant h.slots hi hcnt, ?_, ?_, ?_⟩
  · change p.opened.erase _ = base ∪ (disconnectClient p.srv i).clients
    rw [hclients, h.opened, Finset.erase_union_distrib, Finset.erase_eq_of_notMem hslot]
  · change Disjoint base (disconnectClient p.srv i).clients
    rw [hclients]
    exact h.apart.mono_right (Finset.erase_subset _ _)
  · change ∀ fd ∈ (disconnectClient p.srv i).clients, fd < N
    rw [hclients]
    exact fun fd hfd => h.below fd (Finset.mem_of_mem_erase hfd)

end

section

variable {listening : ℕ} {base : Finset ℕ} {p p' : DaemonProcess N}

/-- One event whose descriptor is below `FD_SETSIZE`. -/
theorem Tracked.step (h : Tracked listening base p) (hN : 5 ≤ N)
    (hbase : {0, 1, 2, listening} ⊆ base) {e : SocketEvent}
    (hwithin : ∀ fd, p.watches e = some fd → fd < N) (hstep : p.step e = some p') :
    Tracked listening base p' := by
  have hzero : 0 ∈ base := hbase (by simp)
  have hlisten : listening ∈ base := hbase (by simp)
  cases e with
  | connection accepted peerAddr twoParty exchange =>
    have hroom := h.cnt_lt hN fun x hx => hbase (by simp at hx ⊢; tauto)
    rw [DaemonProcess.step] at hstep
    cases accepted with
    | false =>
      -- A failed `accept` ends the run.
      rw [addClient, DaemonProcess.joining] at hstep
      cases hstep
    | true =>
      have haccept : (p.joining true peerAddr twoParty exchange).accept =
        some (lowestFree p.opened) := rfl
      have hlt : lowestFree p.opened < N := hwithin _ (if_pos ⟨rfl, hroom.ne⟩)
      split at hstep
      · cases hstep
      · cases hstep
      · -- The table is never full, so that no connection is rejected.
        rename_i hadd
        exact absurd (addClient_rejected hadd) hroom.ne
      · rename_i hadd
        obtain rfl := Option.some.inj hstep
        exact h.joined hroom hzero hlisten haccept hlt hadd
  | disconnect clientIndex =>
    rw [DaemonProcess.step] at hstep
    split at hstep
    · rename_i hclient
      obtain rfl := Option.some.inj hstep
      exact h.left hclient.1 hclient.2
    · obtain rfl := Option.some.inj hstep
      exact h

theorem Tracked.within_iff (h : Tracked listening base p) (hN : 5 ≤ N)
    (hbase : {0, 1, 2, listening} ⊆ base) (es : List SocketEvent) :
    p.Within es ↔ p.RoomLeft base es := by
  induction es generalizing p with
  | nil => rfl
  | cons e es ih =>
    have hhead : (∀ fd, p.watches e = some fd → fd < N) ↔
        (p.watches e ≠ none → p.srv.cnt + (base.filter (· < N)).card < N) := by
      rw [← h.lowestFree_lt_iff]
      cases hwatch : p.watches e with
      | none => exact iff_of_true nofun fun hne => absurd rfl hne
      | some fd =>
        obtain rfl := DaemonProcess.watches_eq hwatch
        exact ⟨fun hlt _ => hlt _ rfl, fun hlt fd heq => Option.some.inj heq ▸ hlt nofun⟩
    rw [DaemonProcess.Within, DaemonProcess.RoomLeft, ← hhead]
    -- The rest of the run has the invariant only after a step within the set.
    apply and_congr_right
    intro hwithin
    exact forall₂_congr fun p' hstep => ih (h.step hN hbase hwithin hstep)

end

/-- In every run the descriptors of `FD_SET` stay below `FD_SETSIZE` exactly as long as the
clients and the descriptors that were open before them leave a number below it. -/
theorem descriptors_within_iff (hN : 5 ≤ N) (listening : ℕ) (base : Finset ℕ)
    (hbase : {0, 1, 2, listening} ⊆ base) (key : Key) (srv : Server N)
    (hinit : initDaemon N listening (some key) = some srv) (es : List SocketEvent) :
    DaemonProcess.Within ⟨srv, base⟩ es ↔ DaemonProcess.RoomLeft base ⟨srv, base⟩ es := by
  have hslots := initDaemon_invariant (by omega) hinit
  have hclients : srv.clients = ∅ := by
    rw [Server.clients, ← Option.some.inj hinit]
    rfl
  have htracked : Tracked listening base ⟨srv, base⟩ := by
    refine ⟨hslots, ?_, ?_, ?_⟩
    · change base = base ∪ srv.clients
      rw [hclients, Finset.union_empty]
    · change Disjoint base srv.clients
      rw [hclients]
      exact Finset.disjoint_empty_right base
    · change ∀ fd ∈ srv.clients, fd < N
      rw [hclients]
      exact fun fd hfd => absurd hfd (Finset.notMem_empty fd)
  exact htracked.within_iff hN hbase es

/-- The tables for an `FD_SETSIZE` of five, with the listening socket on descriptor 3. -/
def fiveSlots : Server 5 := ⟨#v[3, 0, 0, 0, 0], 0, {3}, 3, Vector.replicate 32 0⟩

/-- A client joins, with a renewed key where there are others. -/
def joinsFive : SocketEvent := .connection true true true ⟨some (Vector.replicate 32 1), true⟩

theorem lowestFree_eq {s : Finset ℕ} {n : ℕ} (hbelow : Finset.range n ⊆ s) (hn : n ∉ s) :
    lowestFree s = n :=
  (Nat.find_eq_iff _).mpr ⟨hn, fun _ hm => not_not.mpr (hbelow (Finset.mem_range.mpr hm))⟩

theorem lowestFree_four : lowestFree {0, 1, 2, 3} = 4 := lowestFree_eq (by decide) (by decide)

/-- The tables for an `FD_SETSIZE` of eight. -/
def eightSlots : Server 8 := ⟨#v[3, 0, 0, 0, 0, 0, 0, 0], 0, {3}, 3, Vector.replicate 32 0⟩

/-- Two clients join, the first of them leaves, and one more joins. -/
theorem descriptors_within_first :
    initDaemon 8 3 (some (Vector.replicate 32 0)) = some eightSlots ∧
      DaemonProcess.Within ⟨eightSlots, {0, 1, 2, 3}⟩
        [joinsFive, joinsFive, .disconnect 1, joinsFive] := by
  have hfirst : DaemonProcess.step ⟨eightSlots, {0, 1, 2, 3}⟩ joinsFive =
      some ⟨⟨#v[3, 4, 0, 0, 0, 0, 0, 0], 1, {4, 3}, 4, Vector.replicate 32 0⟩,
        {4, 0, 1, 2, 3}⟩ := by
    rw [joinsFive, DaemonProcess.step, DaemonProcess.joining, lowestFree_four]
    rfl
  have hfive : lowestFree {4, 0, 1, 2, 3} = 5 := lowestFree_eq (by decide) (by decide)
  have hsecond : DaemonProcess.step
      ⟨⟨#v[3, 4, 0, 0, 0, 0, 0, 0], 1, {4, 3}, 4, Vector.replicate 32 0⟩, {4, 0, 1, 2, 3}⟩
        joinsFive =
      some ⟨⟨#v[3, 4, 5, 0, 0, 0, 0, 0], 2, {5, 4, 3}, 5, Vector.replicate 32 1⟩,
        {5, 4, 0, 1, 2, 3}⟩ := by
    rw [joinsFive, DaemonProcess.step, DaemonProcess.joining, hfive]
    rfl
  have hleave : DaemonProcess.step ⟨⟨#v[3, 4, 5, 0, 0, 0, 0, 0], 2, {5, 4, 3}, 5,
      Vector.replicate 32 1⟩, {5, 4, 0, 1, 2, 3}⟩ (.disconnect 1) =
      some ⟨⟨#v[3, 5, 0, 0, 0, 0, 0, 0], 1, {5, 3}, 5, Vector.replicate 32 1⟩,
        {5, 0, 1, 2, 3}⟩ := by
    rfl
  refine ⟨rfl, (descriptors_within_iff (by decide) 3 {0, 1, 2, 3} (by decide)
    (Vector.replicate 32 0) eightSlots rfl _).mpr ⟨fun _ => by decide, fun p₁ h₁ => ?_⟩⟩
  obtain rfl := Option.some.inj (hfirst.symm.trans h₁)
  refine ⟨fun _ => by decide, fun p₂ h₂ => ?_⟩
  obtain rfl := Option.some.inj (hsecond.symm.trans h₂)
  refine ⟨fun _ => by decide, fun p₃ h₃ => ?_⟩
  obtain rfl := Option.some.inj (hleave.symm.trans h₃)
  exact ⟨fun _ => by decide, fun _ _ => trivial⟩

/-- With an `FD_SETSIZE` of five the second client is outside the set. -/
theorem second_client_outside :
    initDaemon 5 3 (some (Vector.replicate 32 0)) = some fiveSlots ∧
      ¬DaemonProcess.Within ⟨fiveSlots, {0, 1, 2, 3}⟩ [joinsFive, joinsFive] := by
  refine ⟨rfl, fun h => ?_⟩
  have hstep : DaemonProcess.step ⟨fiveSlots, {0, 1, 2, 3}⟩ joinsFive =
      some ⟨⟨#v[3, 4, 0, 0, 0], 1, {4, 3}, 4, Vector.replicate 32 0⟩, {4, 0, 1, 2, 3}⟩ := by
    rw [joinsFive, DaemonProcess.step, DaemonProcess.joining, lowestFree_four]
    rfl
  have hfree : lowestFree {4, 0, 1, 2, 3} = 5 := lowestFree_eq (by decide) (by decide)
  have hsecond := (h.2 _ hstep).1
  rw [joinsFive, DaemonProcess.watches, if_pos ⟨rfl, by decide⟩, hfree] at hsecond
  exact absurd (hsecond 5 rfl) (lt_irrefl 5)

end Parcel
