import Parcel.Daemon

/-!
# The slot table

Slots, count, descriptor set and its maximum stay in step over every history of
joins and leaves: the clients occupy the slots from one to the count.
-/

namespace Parcel

variable {N : ℕ}

def Server.clients (srv : Server N) : Finset ℕ := (Finset.Icc 1 srv.cnt).image srv.slot

/-- What holds of the tables between two events; `listening` is the daemon's own socket. -/
structure SlotInvariant (listening : ℕ) (srv : Server N) : Prop where
  occupied : ∀ i, 1 ≤ i → i ≤ srv.cnt → srv.slot i ≠ 0
  distinct : ∀ i j, 1 ≤ i → i ≤ srv.cnt → 1 ≤ j → j ≤ srv.cnt → srv.slot i = srv.slot j → i = j
  free : ∀ i, srv.cnt < i → i < N → srv.slot i = 0
  listens : srv.slot 0 = listening
  bounded : srv.cnt ≤ N - 1
  watched : srv.fds = insert listening srv.clients
  unshared : listening ∉ srv.clients
  maximum : ∀ fd ∈ srv.fds, fd ≤ srv.nfds

/-- A descriptor that `accept` can return: positive, and neither the listening
socket nor that of a client. -/
def Server.Fresh (srv : Server N) (fd : ℕ) : Prop := 0 < fd ∧ ∀ i ≤ srv.cnt, srv.slot i ≠ fd

/-- Successful joins and leaves from `init_daemon` on. -/
inductive Reachable (listening : ℕ) : Server N → Prop
  | init {srv : Server N} {k : Key} (h : initDaemon N listening (some k) = some srv) :
      Reachable listening srv
  | add {srv srv' : Server N} {c : Joining} {fd : ℕ} (hsrv : Reachable listening srv)
      (haccept : c.accept = some fd) (hfresh : srv.Fresh fd)
      (h : addClient srv c = some (.added, srv')) : Reachable listening srv'
  | disconnect {srv : Server N} {i : ℕ} (hsrv : Reachable listening srv) (hi : 1 ≤ i)
      (hcnt : i ≤ srv.cnt) : Reachable listening (disconnectClient srv i)

theorem mem_clients {srv : Server N} {fd : ℕ} :
    fd ∈ srv.clients ↔ ∃ i, 1 ≤ i ∧ i ≤ srv.cnt ∧ srv.slot i = fd := by
  simp only [Server.clients, Finset.mem_image, Finset.mem_Icc, and_assoc]

theorem slot_eq_getElem (srv : Server N) {i : ℕ} (hi : i < srv.sfds.toList.length) :
    srv.slot i = srv.sfds.toList[i] := by
  have hN : i < N := by simpa using hi
  rw [Server.slot, Vector.getElem?_eq_getElem hN, Option.getD_some, Vector.getElem_toList]

/-- A successful `add_client` has watched the descriptor and stored it in the
first free slot. -/
theorem addClient_added {srv srv' : Server N} {c : Joining} {fd : ℕ}
    (haccept : c.accept = some fd) (h : addClient srv c = some (.added, srv')) :
    srv.cnt + 1 ≠ N ∧
      ∃ key, srv' = { (srv.watch fd).setSlot srv.freeSlot fd with serverKey := key } := by
  rw [addClient, haccept] at h
  dsimp only at h
  by_cases hfull : srv.cnt + 1 = N
  · rw [if_pos hfull] at h
    cases h
  refine ⟨hfull, ?_⟩
  rw [if_neg hfull] at h
  cases hpeer : c.peerAddr with
  | false =>
    rw [hpeer] at h
    cases h
  | true =>
    rw [hpeer, Bool.not_true, if_neg Bool.false_ne_true] at h
    cases htwo : c.twoParty with
    | false =>
      rw [htwo] at h
      cases h
    | true =>
      rw [htwo, Bool.not_true, if_neg Bool.false_ne_true] at h
      split at h
      · obtain ⟨r, -, hr⟩ := Option.map_eq_some_iff.mp h
        exact ⟨r.2, (Prod.mk.inj hr).2.symm⟩
      · exact ⟨srv.serverKey, (Prod.mk.inj (Option.some.inj h)).2.symm⟩

theorem addClient_full {srv : Server N} {c : Joining} {fd : ℕ} (haccept : c.accept = some fd)
    (hfull : srv.cnt + 1 = N) : addClient srv c = some (.rejected, srv) := by
  rw [addClient, haccept]
  exact if_pos hfull

theorem addClient_rejected {srv srv' : Server N} {c : Joining}
    (h : addClient srv c = some (.rejected, srv')) : srv.cnt + 1 = N := by
  by_contra hroom
  rw [addClient] at h
  split at h
  · cases h
  · rw [if_neg hroom] at h
    dsimp only at h
    split at h
    · cases h
    · split at h
      · cases h
      · split at h
        · obtain ⟨r, -, hr⟩ := Option.map_eq_some_iff.mp h
          have hresult := (Prod.mk.inj hr).1
          split at hresult <;> cases hresult
        · cases h

section

variable {listening : ℕ} {srv : Server N}

theorem freeSlot_eq (hinv : SlotInvariant listening srv) (hroom : srv.cnt + 1 < N) :
    srv.freeSlot = srv.cnt + 1 := by
  have hlen : srv.cnt < (srv.sfds.toList.drop 1).length := by
    rw [List.length_drop, Vector.length_toList]
    omega
  have hslot (j : ℕ) (hj : j < (srv.sfds.toList.drop 1).length) :
      (srv.sfds.toList.drop 1)[j] = srv.slot (1 + j) := by
    rw [List.getElem_drop, slot_eq_getElem]
  have hfind : (srv.sfds.toList.drop 1).findIdx (· == 0) = srv.cnt := by
    rw [List.findIdx_eq hlen]
    constructor
    · rw [hslot, hinv.free (1 + srv.cnt) (by omega) (by omega)]
      rfl
    · intro j hj
      rw [hslot]
      simpa using hinv.occupied (1 + j) (by omega) (by omega)
  rw [Server.freeSlot, hfind, Nat.add_comm]

theorem joined_slot (hinv : SlotInvariant listening srv) (hroom : srv.cnt + 1 < N) (fd j : ℕ) :
    ((srv.watch fd).setSlot srv.freeSlot fd).slot j =
      if j = srv.cnt + 1 then fd else srv.slot j := by
  rw [freeSlot_eq hinv hroom, setSlot_slot]
  by_cases hj : j = srv.cnt + 1
  · rw [if_pos ⟨hj.symm, by omega⟩, if_pos hj]
  · rw [if_neg (fun h => hj h.1.symm), if_neg hj]
    rfl

theorem joined_clients (hinv : SlotInvariant listening srv) (hroom : srv.cnt + 1 < N) (fd : ℕ) :
    ((srv.watch fd).setSlot srv.freeSlot fd).clients = insert fd srv.clients := by
  ext x
  rw [Finset.mem_insert, mem_clients, mem_clients]
  simp only [joined_slot hinv hroom]
  constructor
  · rintro ⟨i, hi, hcnt, hx⟩
    by_cases hlast : i = srv.cnt + 1
    · rw [if_pos hlast] at hx
      exact Or.inl hx.symm
    · rw [if_neg hlast] at hx
      have hle : i ≤ srv.cnt + 1 := hcnt
      exact Or.inr ⟨i, hi, by omega, hx⟩
  · rintro (rfl | ⟨i, hi, hcnt, hx⟩)
    · exact ⟨srv.cnt + 1, by omega, le_rfl, if_pos rfl⟩
    · exact ⟨i, hi, hcnt.trans (Nat.le_succ _), by rw [if_neg (by omega)]; exact hx⟩

theorem SlotInvariant.withKey (hinv : SlotInvariant listening srv) (key : Key) :
    SlotInvariant listening { srv with serverKey := key } :=
  ⟨hinv.occupied, hinv.distinct, hinv.free, hinv.listens, hinv.bounded, hinv.watched,
    hinv.unshared, hinv.maximum⟩

theorem joined_invariant (hinv : SlotInvariant listening srv) (hroom : srv.cnt + 1 < N) {fd : ℕ}
    (hfresh : srv.Fresh fd) :
    SlotInvariant listening ((srv.watch fd).setSlot srv.freeSlot fd) := by
  obtain ⟨hpos, hnew⟩ := hfresh
  have hcnt : ((srv.watch fd).setSlot srv.freeSlot fd).cnt = srv.cnt + 1 := rfl
  have hfds : ((srv.watch fd).setSlot srv.freeSlot fd).fds = insert fd srv.fds := rfl
  have hnfds : ((srv.watch fd).setSlot srv.freeSlot fd).nfds = xfdCount fd srv.nfds := rfl
  have hslot := joined_slot hinv hroom fd
  have hclients := joined_clients hinv hroom fd
  constructor
  · intro i hi hle
    rw [hcnt] at hle
    rw [hslot]
    by_cases hlast : i = srv.cnt + 1
    · rw [if_pos hlast]
      exact hpos.ne'
    · rw [if_neg hlast]
      exact hinv.occupied i hi (by omega)
  · intro i j hi hile hj hjle heq
    rw [hcnt] at hile hjle
    rw [hslot, hslot] at heq
    -- two slots with one descriptor: one of them would be the new client's
    by_cases hilast : i = srv.cnt + 1
    · by_cases hjlast : j = srv.cnt + 1
      · omega
      · rw [if_pos hilast, if_neg hjlast] at heq
        exact absurd heq.symm (hnew j (by omega))
    · by_cases hjlast : j = srv.cnt + 1
      · rw [if_neg hilast, if_pos hjlast] at heq
        exact absurd heq (hnew i (by omega))
      · rw [if_neg hilast, if_neg hjlast] at heq
        exact hinv.distinct i j hi (by omega) hj (by omega) heq
  · intro i hlt hiN
    rw [hcnt] at hlt
    rw [hslot, if_neg (by omega)]
    exact hinv.free i (by omega) hiN
  · rw [hslot, if_neg (by omega)]
    exact hinv.listens
  · rw [hcnt]
    omega
  · rw [hfds, hclients, hinv.watched, Finset.insert_comm]
  · rw [hclients, Finset.mem_insert, not_or]
    refine ⟨?_, hinv.unshared⟩
    rw [← hinv.listens]
    exact hnew 0 (by omega)
  · intro x hx
    rw [hnfds, xfdCount]
    rw [hfds, Finset.mem_insert] at hx
    rcases hx with rfl | hx
    · split <;> omega
    · have := hinv.maximum x hx
      split <;> omega

theorem addClient_invariant (hinv : SlotInvariant listening srv) {srv' : Server N} {c : Joining}
    {fd : ℕ} (haccept : c.accept = some fd) (hfresh : srv.Fresh fd) (hN : 0 < N)
    (h : addClient srv c = some (.added, srv')) : SlotInvariant listening srv' := by
  obtain ⟨hfull, key, rfl⟩ := addClient_added haccept h
  have hroom : srv.cnt + 1 < N := by
    have := hinv.bounded
    omega
  exact (joined_invariant hinv hroom hfresh).withKey key

/-- A leave in the terms of the table: the last client takes the place of the
one that left. -/
theorem left_slot (hinv : SlotInvariant listening srv) {i : ℕ} (hi : 1 ≤ i)
    (hcnt : i ≤ srv.cnt) (j : ℕ) :
    (disconnectClient srv i).slot j =
      if j = srv.cnt then 0 else if j = i then srv.slot srv.cnt else srv.slot j := by
  have hN : srv.cnt < N := by
    have := hinv.bounded
    omega
  rw [disconnectClient]
  dsimp only
  by_cases hone : srv.cnt = 1
  · rw [if_pos hone]
    change (Server.setSlot _ i 0).slot j = _
    rw [setSlot_slot]
    by_cases hj : j = srv.cnt
    · rw [if_pos ⟨by omega, by omega⟩, if_pos hj]
    · rw [if_neg (by omega), if_neg hj, if_neg (by omega)]
      rfl
  · rw [if_neg hone]
    change ((Server.setSlot _ i _).setSlot srv.cnt 0).slot j = _
    rw [setSlot_slot]
    by_cases hj : j = srv.cnt
    · rw [if_pos ⟨hj.symm, by omega⟩, if_pos hj]
    · rw [if_neg (fun h => hj h.1.symm), if_neg hj, setSlot_slot]
      by_cases hji : j = i
      · rw [if_pos ⟨hji.symm, by omega⟩, if_pos hji]
        rfl
      · rw [if_neg (fun h => hji h.1.symm), if_neg hji]
        rfl

theorem left_fields (srv : Server N) (i : ℕ) :
    (disconnectClient srv i).cnt = srv.cnt - 1 ∧
      (disconnectClient srv i).fds = srv.fds.erase (srv.slot i) ∧
      (disconnectClient srv i).nfds = srv.nfds := by
  rw [disconnectClient]
  dsimp only
  split <;> exact ⟨rfl, rfl, rfl⟩

theorem left_clients (hinv : SlotInvariant listening srv) {i : ℕ} (hi : 1 ≤ i)
    (hcnt : i ≤ srv.cnt) : (disconnectClient srv i).clients = srv.clients.erase (srv.slot i) := by
  obtain ⟨hcnt', -, -⟩ := left_fields srv i
  ext x
  rw [Finset.mem_erase, mem_clients, mem_clients, hcnt']
  simp only [left_slot hinv hi hcnt]
  constructor
  · rintro ⟨j, hj, hle, hx⟩
    rw [if_neg (by omega)] at hx
    by_cases hji : j = i
    · rw [if_pos hji] at hx
      refine ⟨?_, srv.cnt, by omega, le_rfl, hx⟩
      rintro rfl
      exact absurd (hinv.distinct _ _ (by omega) le_rfl hi hcnt hx) (by omega)
    · rw [if_neg hji] at hx
      refine ⟨?_, j, hj, by omega, hx⟩
      rintro rfl
      exact hji (hinv.distinct j i hj (by omega) hi hcnt hx)
  · rintro ⟨hne, k, hk, hle, hx⟩
    have hki : k ≠ i := fun h => hne (by rw [← hx, h])
    by_cases hlast : k = srv.cnt
    · refine ⟨i, hi, by omega, ?_⟩
      rw [if_neg (by omega), if_pos rfl, ← hlast]
      exact hx
    · refine ⟨k, hk, by omega, ?_⟩
      rw [if_neg hlast, if_neg hki]
      exact hx

theorem disconnectClient_invariant (hinv : SlotInvariant listening srv) {i : ℕ} (hi : 1 ≤ i)
    (hcnt : i ≤ srv.cnt) : SlotInvariant listening (disconnectClient srv i) := by
  obtain ⟨hcnt', hfds, hnfds⟩ := left_fields srv i
  have hslot := left_slot hinv hi hcnt
  have hclients := left_clients hinv hi hcnt
  have hbounded := hinv.bounded
  have hne : listening ≠ srv.slot i := by
    intro h
    exact hinv.unshared (mem_clients.mpr ⟨i, hi, hcnt, h.symm⟩)
  constructor
  · intro j hj hle
    rw [hcnt'] at hle
    rw [hslot, if_neg (by omega)]
    split
    · exact hinv.occupied srv.cnt (by omega) le_rfl
    · exact hinv.occupied j hj (by omega)
  · intro j k hj hjle hk hkle heq
    rw [hcnt'] at hjle hkle
    rw [hslot, hslot, if_neg (show ¬j = srv.cnt by omega),
      if_neg (show ¬k = srv.cnt by omega)] at heq
    -- the hole has the last client's descriptor, which no other slot had
    by_cases hji : j = i
    · by_cases hki : k = i
      · omega
      · rw [if_pos hji, if_neg hki] at heq
        have := hinv.distinct srv.cnt k (by omega) le_rfl hk (by omega) heq
        omega
    · by_cases hki : k = i
      · rw [if_neg hji, if_pos hki] at heq
        have := hinv.distinct j srv.cnt hj (by omega) (by omega) le_rfl heq
        omega
      · rw [if_neg hji, if_neg hki] at heq
        exact hinv.distinct j k hj (by omega) hk (by omega) heq
  · intro j hlt hjN
    rw [hcnt'] at hlt
    rw [hslot]
    by_cases hj : j = srv.cnt
    · rw [if_pos hj]
    · rw [if_neg hj, if_neg (by omega)]
      exact hinv.free j (by omega) hjN
  · rw [hslot, if_neg (by omega), if_neg (by omega)]
    exact hinv.listens
  · rw [hcnt']
    omega
  · rw [hfds, hclients, hinv.watched, Finset.erase_insert_of_ne hne]
  · rw [hclients]
    exact fun h => hinv.unshared (Finset.mem_of_mem_erase h)
  · intro x hx
    rw [hfds] at hx
    rw [hnfds]
    exact hinv.maximum x (Finset.mem_of_mem_erase hx)

end

theorem initDaemon_invariant {listening : ℕ} {srv : Server N} {key : Key} (hN : 0 < N)
    (h : initDaemon N listening (some key) = some srv) : SlotInvariant listening srv := by
  have hsfds : srv.sfds = (Vector.replicate N 0).setIfInBounds 0 listening := by
    rw [← Option.some.inj h]
  have hcnt : srv.cnt = 0 := by rw [← Option.some.inj h]
  have hfds : srv.fds = {listening} := by rw [← Option.some.inj h]
  have hnfds : srv.nfds = listening := by rw [← Option.some.inj h, xfdInitCount]
  have hslot (j : ℕ) : srv.slot j = if j = 0 then listening else 0 := by
    rw [Server.slot, hsfds, Vector.getElem?_setIfInBounds]
    by_cases hj : j = 0
    · rw [if_pos hj.symm, if_pos hj, if_pos hN]
      rfl
    · rw [if_neg (Ne.symm hj), if_neg hj, Vector.getElem?_replicate]
      split <;> rfl
  have hclients : srv.clients = ∅ := by
    rw [Server.clients, hcnt]
    rfl
  constructor
  · intro i hi hle
    omega
  · intro i j hi hile
    omega
  · intro i hi _
    rw [hslot, if_neg (by omega)]
  · rw [hslot, if_pos rfl]
  · omega
  · rw [hfds, hclients, insert_empty_eq]
  · rw [hclients]
    exact Finset.notMem_empty _
  · intro fd hfd
    rw [hfds, Finset.mem_singleton] at hfd
    rw [hfd, hnfds]

theorem reachable_invariant {listening : ℕ} {srv : Server N} (hN : 0 < N)
    (h : Reachable listening srv) : SlotInvariant listening srv := by
  induction h with
  | init h => exact initDaemon_invariant hN h
  | add _ haccept hfresh h ih => exact addClient_invariant ih haccept hfresh hN h
  | disconnect _ hi hcnt ih => exact disconnectClient_invariant ih hi hcnt

/-- The slot table over every history of joins and leaves: the invariant holds,
the next leave removes exactly its client, and a connection to a full table
changes nothing. -/
theorem slot_table_invariant (listening : ℕ) (srv : Server N) (hN : 0 < N)
    (h : Reachable listening srv) :
    SlotInvariant listening srv ∧
      (∀ i, 1 ≤ i → i ≤ srv.cnt →
        (disconnectClient srv i).cnt = srv.cnt - 1 ∧
          (disconnectClient srv i).clients = srv.clients.erase (srv.slot i)) ∧
      (∀ c fd, c.accept = some fd → srv.cnt + 1 = N →
        addClient srv c = some (.rejected, srv)) := by
  have hinv := reachable_invariant hN h
  refine ⟨hinv, ?_, ?_⟩
  · intro i hi hcnt
    exact ⟨(left_fields srv i).1, left_clients hinv hi hcnt⟩
  · intro c fd haccept hfull
    exact addClient_full haccept hfull

/-- Clients join at 5, 6 and 7 and the one at 5 leaves, so that the last one fills its slot; one
more joins at 8, and the table of four slots is full. -/
theorem slot_table_first_client :
    ∃ srv : Server 4, Reachable 3 srv ∧ srv.sfds.toList = [3, 7, 6, 8] ∧ srv.clients = {6, 7, 8} ∧
      SlotInvariant 3 srv ∧ (disconnectClient srv 2).clients = srv.clients.erase 6 ∧
      addClient srv ⟨some 9, true, true, ⟨some (Vector.replicate 32 0), true⟩⟩ =
        some (.rejected, srv) := by
  let joining (fd : ℕ) : Joining := ⟨some fd, true, true, ⟨some (Vector.replicate 32 0), true⟩⟩
  have hinit : Reachable (N := 4) 3 _ := .init (k := Vector.replicate 32 0) rfl
  have hfive := Reachable.add hinit (c := joining 5) rfl ⟨by decide, by decide⟩ rfl
  have hsix := Reachable.add hfive (c := joining 6) rfl ⟨by decide, by decide⟩ rfl
  have hseven := Reachable.add hsix (c := joining 7) rfl ⟨by decide, by decide⟩ rfl
  have hleft := Reachable.disconnect hseven (i := 1) le_rfl (by decide)
  have height := Reachable.add hleft (c := joining 8) rfl ⟨by decide, by decide⟩ rfl
  obtain ⟨hinv, hleaves, hfull⟩ := slot_table_invariant 3 _ (by decide) height
  exact ⟨_, height, by decide, by decide, hinv, (hleaves 2 (by decide) (by decide)).2,
    hfull (joining 9) 9 rfl (by decide)⟩

end Parcel
