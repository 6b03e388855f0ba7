import Parcel.Client

/-!
# The receiving thread

The loop of `recv_thread`, one access to shared state at a time, against the thread that
sends: `cmd_exit` clears `keep_alive` at any moment. A receive that fails while the flag is
set is reported, and then the loop goes on with the cable that it does not have.
-/

namespace Parcel
open Aes

/-- Where the thread is: before the receive, before the load and the store of `keep_alive`
after a failed one, before `decrypt_cabled_wire` and before `handle_wire`; and where it is
no more. -/
inductive RecvPoint
  | receive
  | check
  | store
  | decrypt (cable : Option Cable)
  | handle (wire : Wire)
  | returned
  | crashed

/-- The thread and what it shares. Three fields are not in the program: the cables that were
received, the wires that were handled, and whether a receive failed with the flag cleared. -/
structure RecvState where
  point : RecvPoint
  keepAlive : Bool
  client : ClientState
  received : List Cable
  handled : List Wire
  failedAfterExit : Bool

inductive RecvAction
  /-- The store in `cmd_exit`. -/
  | exit
  /-- The result of `client_recv_cable`. -/
  | recv (cable : Option Cable)
  /-- The next step of the thread. -/
  | turn

def RecvState.start (client : ClientState) : RecvState :=
  ⟨.receive, true, client, [], [], false⟩

/-- The outcomes are those of the handlers of each wire, by its number. -/
def RecvState.step (env : ℕ → Outcomes) (s : RecvState) : RecvAction → Option RecvState
  | .exit => some { s with keepAlive := false }
  | .recv cable =>
    match s.point, cable with
    | .receive, some cable =>
      some { s with point := .decrypt (some cable), received := s.received ++ [cable] }
    | .receive, none => some { s with point := .check, failedAfterExit := !s.keepAlive }
    | _, _ => none
  | .turn =>
    match s.point with
    | .check => some { s with point := if s.keepAlive then .store else .returned }
    | .store => some { s with point := .decrypt none, keepAlive := false }
    -- The header of no cable is read.
    | .decrypt none => some { s with point := .crashed }
    | .decrypt (some cable) =>
      match decryptCabledWire s.client cable with
      | none => some { s with point := .receive }
      | some wire => some { s with point := .handle wire }
    | .handle wire => some { s with
        point := .receive
        client := (handleWire (env s.handled.length) s.client wire).2
        handled := s.handled ++ [wire] }
    | .receive | .returned | .crashed => none

def RecvState.run (env : ℕ → Outcomes) (s : RecvState) : List RecvAction → Option RecvState
  | [] => some s
  | a :: acts => (s.step env a).bind fun s => s.run env acts

/-- One cable: its wire is handled if it can be decrypted, and dropped otherwise. -/
def takeCable (env : ℕ → Outcomes) (st : ClientState × List Wire) (cable : Cable) :
    ClientState × List Wire :=
  match decryptCabledWire st.1 cable with
  | none => st
  | some wire => ((handleWire (env st.2.length) st.1 wire).2, st.2 ++ [wire])

/-- The client and the handled wires after some cables. -/
def takeCables (env : ℕ → Outcomes) (client : ClientState) (cables : List Cable) :
    ClientState × List Wire :=
  cables.foldl (takeCable env) (client, [])

theorem takeCables_append (env : ℕ → Outcomes) (client : ClientState) (cables : List Cable)
    (cable : Cable) :
    takeCables env client (cables ++ [cable]) =
      takeCable env (takeCables env client cables) cable := by
  rw [takeCables, List.foldl_append]
  rfl

section

variable {env : ℕ → Outcomes} {client ctx : ClientState} {cables : List Cable} {cable : Cable}
  {handled : List Wire}

theorem takeCables_dropped (h : takeCables env client cables = (ctx, handled))
    (hwire : decryptCabledWire ctx cable = none) :
    takeCables env client (cables ++ [cable]) = (ctx, handled) := by
  rw [takeCables_append, h, takeCable, hwire]

theorem takeCables_handled {wire : Wire} (h : takeCables env client cables = (ctx, handled))
    (hwire : decryptCabledWire ctx cable = some wire) :
    takeCables env client (cables ++ [cable]) =
      ((handleWire (env handled.length) ctx wire).2, handled ++ [wire]) := by
  rw [takeCables_append, h, takeCable, hwire]

end

/-- Every cable is taken once and in order, but for the one that the thread is at. -/
def RecvState.InOrder (env : ℕ → Outcomes) (client : ClientState) (s : RecvState) : Prop :=
  match s.point with
  | .decrypt (some cable) => ∃ cables, s.received = cables ++ [cable] ∧
      takeCables env client cables = (s.client, s.handled)
  | .handle wire => ∃ cables cable, s.received = cables ++ [cable] ∧
      takeCables env client cables = (s.client, s.handled) ∧
      decryptCabledWire s.client cable = some wire
  | _ => takeCables env client s.received = (s.client, s.handled)

/-- No NULL is passed on, the cables are taken in order, and a receive that fails with the
flag cleared is the last one. -/
structure RecvState.Survives (env : ℕ → Outcomes) (client : ClientState) (s : RecvState) :
    Prop where
  nonnull : s.point ≠ .decrypt none
  alive : s.point ≠ .crashed
  inOrder : s.InOrder env client
  returns : s.failedAfterExit = true → s.point = .returned ∨
    ∃ s', s.step env .turn = some s' ∧ s'.point = .returned

/-- Whenever the thread looks at the flag after a failed receive, it is cleared. -/
def RecvState.ChecksAfterExit (env : ℕ → Outcomes) (s : RecvState) : List RecvAction → Prop
  | [] => True
  | .turn :: acts => (s.point = .check → s.keepAlive = false) ∧
      ∀ s', s.step env .turn = some s' → s'.ChecksAfterExit env acts
  | a :: acts => ∀ s', s.step env a = some s' → s'.ChecksAfterExit env acts

/-- The thread has gone past its check without a cable. -/
def RecvState.Doomed (s : RecvState) : Prop :=
  s.point = .store ∨ s.point = .decrypt none ∨ s.point = .crashed

section

variable {env : ℕ → Outcomes} {client : ClientState} {s s' : RecvState}

/-- There is no way back, whatever the other thread does. -/
theorem RecvState.Doomed.step (h : s.Doomed) {a : RecvAction} (hstep : s.step env a = some s') :
    s'.Doomed := by
  cases a with
  | exit =>
    obtain rfl := Option.some.inj hstep
    exact h
  | recv cable =>
    rcases h with hp | hp | hp <;> simp only [RecvState.step, hp, reduceCtorEq] at hstep
  | turn =>
    rcases h with hp | hp | hp <;> simp only [RecvState.step, hp] at hstep
    · obtain rfl := Option.some.inj hstep
      exact Or.inr (Or.inl rfl)
    · obtain rfl := Option.some.inj hstep
      exact Or.inr (Or.inr rfl)
    · cases hstep

theorem RecvState.Doomed.run (h : s.Doomed) {acts : List RecvAction}
    (hrun : s.run env acts = some s') : s'.Doomed := by
  induction acts generalizing s with
  | nil =>
    obtain rfl := Option.some.inj hrun
    exact h
  | cons a acts ih =>
    obtain ⟨t, hstep, hrest⟩ := Option.bind_eq_some_iff.mp hrun
    exact ih (h.step hstep) hrest

theorem doomed_of_check (hpoint : s.point = .check) (halive : s.keepAlive ≠ false)
    (hstep : s.step env .turn = some s') : s'.Doomed := by
  simp only [RecvState.step, hpoint, eq_true_of_ne_false halive] at hstep
  obtain rfl := Option.some.inj hstep
  exact Or.inl rfl

/-- The states of a thread that has a cable wherever it needs one. -/
def RecvState.Sound (env : ℕ → Outcomes) (client : ClientState) (s : RecvState) : Prop :=
  s.Survives env client ∧ s.point ≠ .store

theorem RecvState.Sound.not_doomed (h : s.Sound env client) : ¬s.Doomed := by
  rintro (hp | hp | hp)
  · exact h.2 hp
  · exact h.1.nonnull hp
  · exact h.1.alive hp

theorem turn_returned_iff :
    (∃ s', s.step env .turn = some s' ∧ s'.point = .returned) ↔
      s.point = .check ∧ s.keepAlive = false := by
  obtain ⟨point, keepAlive, client, received, handled, failedAfterExit⟩ := s
  cases point with
  | check => cases keepAlive <;> simp [RecvState.step]
  | decrypt cable =>
    cases cable with
    | none => simp [RecvState.step]
    | some cable =>
      cases hwire : decryptCabledWire client cable <;> simp [RecvState.step, hwire]
  | _ => simp [RecvState.step]

theorem RecvState.Survives.returns_or (h : s.Survives env client)
    (hfailed : s.failedAfterExit = true) :
    s.point = .returned ∨ s.point = .check ∧ s.keepAlive = false :=
  (h.returns hfailed).imp id turn_returned_iff.mp

theorem RecvState.Survives.not_failed (h : s.Survives env client) (hreturned : s.point ≠ .returned)
    (hcheck : s.point ≠ .check) : s.failedAfterExit ≠ true := by
  intro hfailed
  rcases h.returns_or hfailed with hp | hp
  · exact hreturned hp
  · exact hcheck hp.1

theorem RecvState.start_sound (client : ClientState) : (start client).Sound env client :=
  ⟨⟨nofun, nofun, rfl, nofun⟩, nofun⟩

theorem RecvState.Sound.recv (h : s.Sound env client) {cable : Option Cable}
    (hstep : s.step env (.recv cable) = some s') : s'.Sound env client := by
  have hfailed := h.1.not_failed
  have horder := h.1.inOrder
  obtain ⟨point, keepAlive, ctx, received, handled, failedAfterExit⟩ := s
  cases point <;> simp only [RecvState.step, reduceCtorEq] at hstep
  cases cable with
  | none =>
    obtain rfl := Option.some.inj hstep
    refine ⟨⟨nofun, nofun, horder, fun hexit => Or.inr (turn_returned_iff.mpr ⟨rfl, ?_⟩)⟩, nofun⟩
    simpa using hexit
  | some cable =>
    obtain rfl := Option.some.inj hstep
    exact ⟨⟨nofun, nofun, ⟨received, rfl, horder⟩, fun hf => absurd hf (hfailed nofun nofun)⟩,
      nofun⟩

theorem RecvState.Sound.turn (h : s.Sound env client)
    (hcheck : s.point = .check → s.keepAlive = false) (hstep : s.step env .turn = some s') :
    s'.Sound env client := by
  have hfailed := h.1.not_failed
  have horder := h.1.inOrder
  obtain ⟨point, keepAlive, ctx, received, handled, failedAfterExit⟩ := s
  cases point with
  | receive => cases hstep
  | returned => cases hstep
  | crashed => cases hstep
  | store => exact absurd rfl h.2
  | check =>
    obtain rfl : keepAlive = false := hcheck rfl
    obtain rfl := Option.some.inj hstep
    exact ⟨⟨nofun, nofun, horder, fun _ => Or.inl rfl⟩, nofun⟩
  | decrypt cable =>
    specialize hfailed nofun nofun
    cases cable with
    | none => exact absurd rfl h.1.nonnull
    | some cable =>
      obtain ⟨cables, hreceived, htaken⟩ := horder
      obtain rfl : received = cables ++ [cable] := hreceived
      simp only [RecvState.step] at hstep
      -- A cable that cannot be decrypted is dropped, another one is handled next.
      cases hwire : decryptCabledWire ctx cable with
      | none =>
        rw [hwire] at hstep
        obtain rfl := Option.some.inj hstep
        exact ⟨⟨nofun, nofun, takeCables_dropped htaken hwire, fun hf => absurd hf hfailed⟩, nofun⟩
      | some wire =>
        rw [hwire] at hstep
        obtain rfl := Option.some.inj hstep
        exact ⟨⟨nofun, nofun, ⟨cables, cable, rfl, htaken, hwire⟩, fun hf => absurd hf hfailed⟩,
          nofun⟩
  | handle wire =>
    specialize hfailed nofun nofun
    obtain ⟨cables, cable, hreceived, htaken, hwire⟩ := horder
    obtain rfl : received = cables ++ [cable] := hreceived
    obtain rfl := Option.some.inj hstep
    exact ⟨⟨nofun, nofun, takeCables_handled htaken hwire, fun hf => absurd hf hfailed⟩, nofun⟩

theorem RecvState.Sound.exit (h : s.Sound env client) :
    RecvState.Sound env client { s with keepAlive := false } := by
  have hreturns := h.1.returns_or
  refine ⟨⟨h.1.nonnull, h.1.alive, h.1.inOrder, fun hfailed => ?_⟩, h.2⟩
  exact (hreturns hfailed).imp id fun hp => turn_returned_iff.mpr ⟨hp.1, rfl⟩

end

/-- The thread survives a run exactly if every check after a failed receive finds the flag
cleared. Past another one it has not passed on the NULL yet, but does so next. -/
theorem RecvState.Sound.run_iff {env : ℕ → Outcomes} {client : ClientState} {s s' : RecvState}
    (h : s.Sound env client) {acts : List RecvAction} (hrun : s.run env acts = some s') :
    s'.Sound env client ↔ s.ChecksAfterExit env acts := by
  induction acts generalizing s with
  | nil =>
    obtain rfl := Option.some.inj hrun
    exact iff_of_true h trivial
  | cons a acts ih =>
    obtain ⟨t, hstep, hrest⟩ := Option.bind_eq_some_iff.mp hrun
    have hnext {q : RecvState → Prop} : (∀ t', s.step env a = some t' → q t') ↔ q t := by
      rw [hstep]
      exact ⟨fun hq => hq t rfl, fun hq t' heq => Option.some.inj heq ▸ hq⟩
    cases a with
    | exit =>
      rw [ChecksAfterExit, hnext]
      · obtain rfl := Option.some.inj hstep
        exact ih h.exit hrest
      · exact nofun
    | recv cable =>
      rw [ChecksAfterExit, hnext]
      · exact ih (h.recv hstep) hrest
      · exact nofun
    | turn =>
      rw [ChecksAfterExit, hnext]
      by_cases hcheck : s.point = .check → s.keepAlive = false
      · rw [and_iff_right hcheck]
        exact ih (h.turn hcheck hstep) hrest
      · -- The check lets the NULL pass, and the thread is lost for the rest of the run.
        obtain ⟨hpoint, halive⟩ := Classical.not_imp.mp hcheck
        refine iff_of_false (fun hsound => ?_) fun hchecks => hcheck hchecks.1
        exact hsound.not_doomed ((doomed_of_check hpoint halive hstep).run hrest)

/-- The client survives the runs in which no failed receive is checked with the flag set. -/
theorem recv_thread_survives_iff (env : ℕ → Outcomes) (client : ClientState)
    (acts : List RecvAction) (s : RecvState)
    (hrun : (RecvState.start client).run env acts = some s) :
    (s.Survives env client ∧ s.point ≠ .store) ↔
      (RecvState.start client).ChecksAfterExit env acts :=
  (RecvState.start_sound client).run_iff hrun

theorem tampered_dropped (ctx : ClientState) {w : Wire}
    (h : wireVerifyInnerMac (aes128InitCmac ctx.keys.session.mac) w = true) :
    ∃ outer, decryptCabledWire ctx (initCable { w with macOuter := outer }.bytes) = none := by
  obtain ⟨outer, hne⟩ : ∃ outer, outer ≠ aes128Cmac (aes128InitCmac ctx.keys.session.mac)
      w.authBytes (sizeSub (headerGetLength
        (wireDecryptHeader (aes128Init w.iv ctx.keys.session.cipher) w).2) wireOffsetMacInner) := by
    by_cases hzero : Vector.replicate 16 0 = aes128Cmac (aes128InitCmac ctx.keys.session.mac)
        w.authBytes (sizeSub (headerGetLength
          (wireDecryptHeader (aes128Init w.iv ctx.keys.session.cipher) w).2) wireOffsetMacInner)
    · rw [← hzero]
      exact ⟨Vector.replicate 16 1, by decide⟩
    · exact ⟨_, hzero⟩
  refine ⟨outer, ?_⟩
  have hselected : selectedKey { w with macOuter := outer } ctx.keys.session
      (some ctx.keys.ctrl) = some ctx.keys.session := selectedKey_first h _
  have hrejects : wireVerifyOuterMac (aes128InitCmac ctx.keys.session.mac)
      { w with macOuter := outer } (headerGetLength (wireDecryptHeader
        (aes128Init w.iv ctx.keys.session.cipher) { w with macOuter := outer }).2) = false :=
    (wireVerifyOuterMac_mk _ w outer _).trans (decide_eq_false hne)
  rw [decryptCabledWire, openCable, ← cabledWire, cabledWire_initCable,
    decryptWire_of_selected hselected, decryptVerified]
  dsimp only
  split
  · exact if_neg Bool.false_ne_true
  · rw [hrejects, Bool.not_false, if_pos rfl]
    exact if_neg Bool.false_ne_true

/-- The receive of a dropped cable and of an accepted one, and a failing one behind the exit. -/
def dropHandleExit (dropped accepted : Cable) : List RecvAction :=
  [.recv (some dropped), .turn, .recv (some accepted), .turn, .turn, .exit, .recv none, .turn]

section

variable (env : ℕ → Outcomes) {client : ClientState} {dropped accepted : Cable} {wire : Wire}
  (hdropped : decryptCabledWire client dropped = none)
  (haccepted : decryptCabledWire client accepted = some wire)
include hdropped haccepted

theorem run_dropHandleExit :
    (RecvState.start client).run env (dropHandleExit dropped accepted) =
      some ⟨.returned, false, (handleWire (env 0) client wire).2, [dropped, accepted], [wire],
        true⟩ := by
  simp [dropHandleExit, RecvState.run, RecvState.step, RecvState.start, hdropped, haccepted]

theorem checks_dropHandleExit :
    (RecvState.start client).ChecksAfterExit env (dropHandleExit dropped accepted) := by
  simp [dropHandleExit, RecvState.ChecksAfterExit, RecvState.step, RecvState.start, hdropped,
    haccepted]

end

/-- A cable is dropped and another one handled, the user leaves, the receive fails, and the
thread ends. -/
theorem recv_thread_survives_exit :
    ∃ dropped accepted wire s,
      (RecvState.start onesClient).run (fun _ => sevens) (dropHandleExit dropped accepted) =
        some s ∧
      s.handled = [wire] ∧ s.point = .returned ∧ s.Survives (fun _ => sevens) onesClient := by
  have hfit : 64 + 14 + ceil16 [(1 : UInt8), 2, 3].length < 2 ^ 64 := by decide
  obtain ⟨w, -, hdata, hdec⟩ := initWire_decoded .text (Vector.replicate 16 0) hfit
  have hverifies := encryptWire_verifies w onesClient.keys.session
  obtain ⟨-, wire, hopen, -⟩ := openCable_initCable hfit hdec hdata
    (selectedKey_first hverifies (some onesClient.keys.ctrl))
  obtain ⟨outer, hdropped⟩ := tampered_dropped onesClient hverifies
  have haccepted : decryptCabledWire onesClient
      (initCable (encryptWire w onesClient.keys.session).bytes) = some wire := by
    rw [decryptCabledWire, hopen]
    rfl
  have hrun := run_dropHandleExit (fun _ => sevens) hdropped haccepted
  have hchecks := checks_dropHandleExit (fun _ => sevens) hdropped haccepted
  exact ⟨_, _, wire, _, hrun, rfl, rfl,
    ((recv_thread_survives_iff _ onesClient _ _ hrun).mpr hchecks).1⟩

/-- A receive fails for a client that has not left. -/
theorem closed_connection_crashes :
    ∃ s, (RecvState.start onesClient).run (fun _ => sevens) [.recv none, .turn, .turn] = some s ∧
      s.point = .decrypt none ∧ ¬s.Survives (fun _ => sevens) onesClient :=
  ⟨_, rfl, rfl, fun h => h.nonnull rfl⟩

end Parcel
