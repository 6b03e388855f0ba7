import Parcel.Broadcast
import Parcel.Client
import Parcel.FileMessages

/-!
# A conversation

What the clients print of each other's messages while they share a session key: the
messages as they were sent, under the names they were sent with, in one order.
-/

namespace Parcel
open ByteStrings Aes Function

/-- A line that `proc_text` or `proc_stat` prints. -/
inductive Shown
  | text (line : ShownText)
  | stat (line : ShownStat)

def Sent.shown (user : List UInt8) : Sent → Option Shown
  | .text t => some (.text ⟨user, some t⟩)
  | .conn .userConnect => some (.stat (.online user))
  | .conn .userDisconnect => some (.stat (.offline user))
  | .conn .userRename => none
  | .rename newName => some (.stat (.renamed user (some newName)))
  | .file .. => none

/-- Messages whose last block has room for a terminator, and files that can be sent. -/
def Sent.Terminated : Sent → Prop
  | .text t => 0 ∉ t ∧ 64 + 14 + ceil16 (73 + t.length) < 2 ^ 64 ∧ t.length % 16 ≠ 7
  | .conn type => type ≠ .userRename
  | .rename newName => 0 ∉ newName ∧ newName.length ≤ 63 ∧ newName.length % 16 ≠ 7
  | .file _ disk => ∃ contents, Readable disk contents

/-- What `recv_thread` prints of a cable. -/
def shows (keys : Keys) (cable : Cable) : Option Shown :=
  (decryptCabledWire ⟨keys, true⟩ cable).bind fun wire =>
    match handlerOf (wireGetType wire) with
    | .text => (procText wire.data).toOption.map .text
    | .stat => (procStat wire.data).toOption.map .stat
    | _ => none

/-- What `transmit_wire` sends of a message. -/
def Transmits (session : Key) (user : List UInt8) (sent : Sent) (wire : List UInt8) : Prop :=
  ∃ iv w, sent.wire user (some iv) = some w ∧ wire = (encryptWire w session).bytes

section

variable {session ctrl : Key} {user : List UInt8}

theorem shows_of_accepted {cable : Cable} {w' : Wire}
    (h : openCable cable session (some ctrl) = (true, w')) : shows ⟨session, ctrl⟩ cable =
      match handlerOf (wireGetType w') with
      | .text => (procText w'.data).toOption.map .text
      | .stat => (procStat w'.data).toOption.map .stat
      | _ => none := by
  rw [shows, decryptCabledWire, h, if_pos rfl, Option.bind_some]

theorem cString_padded {t : List UInt8} (ht : 0 ∉ t) (hlen : t.length % 16 ≠ 7) :
    cString (t ++ List.replicate (padding (73 + t.length)) 0) = some t := by
  rw [cString_pad_iff ht, padding_ne_zero_iff]
  omega

theorem conn_type (type : StatMsgType) : (initStatConnMsg type (cStr user)).type = type.code := by
  rw [initStatConnMsg, setUser_type]
  rfl

theorem stat_shown {m : Msg 64} (hsized : m.Sized)
    (hfit : 64 + 14 + ceil16 (Msg.size 64 + m.data.length) < 2 ^ 64) {line : ShownStat}
    (hproc : ∀ data, Msg.ofBytes 64 data = { m with
      data := m.data ++ List.replicate (padding (73 + m.data.length)) 0 } →
        procStat data = .ok line) (iv : Block) (session : Key) :
    ∃ w, initWireFromStatMsg m (some iv) = some w ∧ ∀ ctrl,
      shows ⟨session, ctrl⟩ (initCable (encryptWire w session).bytes) = some (.stat line) := by
  obtain ⟨w, hw, hopen⟩ := openCable_msg .stat iv hsized hfit
  refine ⟨w, hw, fun ctrl => ?_⟩
  obtain ⟨w', hw', hcode, hmsg⟩ :=
    hopen (selectedKey_first (encryptWire_verifies w session) (some ctrl))
  have hhandler : handlerOf (wireGetType w') = .stat := by
    rw [hcode]
    rfl
  rw [shows_of_accepted hw', hhandler, hproc _ hmsg]
  rfl

variable (hnul : 0 ∉ user) (hlen : user.length ≤ 63) (huser : user ≠ [])
include hnul hlen huser

theorem text_shown {t : List UInt8} (ht : 0 ∉ t)
    (hfit : 64 + 14 + ceil16 (73 + t.length) < 2 ^ 64) (hroom : t.length % 16 ≠ 7) (iv : Block)
    (session : Key) :
    ∃ w, (Sent.text t).wire user (some iv) = some w ∧ ∀ ctrl,
      shows ⟨session, ctrl⟩ (initCable (encryptWire w session).bytes) =
        (Sent.text t).shown user := by
  obtain ⟨hsized, hdata, htype, hget⟩ := textMsgFromText_spec hnul hlen (t := t)
    (by have := le_ceil16 (73 + t.length); omega)
  obtain ⟨w, hw, hopen⟩ := openCable_msg .text iv hsized (by rw [hdata]; exact hfit)
  refine ⟨w, hw, fun ctrl => ?_⟩
  obtain ⟨w', hw', hcode, hmsg⟩ :=
    hopen (selectedKey_first (encryptWire_verifies w session) (some ctrl))
  have hproc : procText w'.data = .ok ⟨user, some t⟩ := by
    rw [procText, hmsg, getUser_withData, hget, hdata, if_neg (not_not.mpr htype), if_neg huser]
    exact congrArg (fun body => Except.ok (ShownText.mk user body)) (cString_padded ht hroom)
  have hhandler : handlerOf (wireGetType w') = .text := by
    rw [hcode]
    rfl
  rw [shows_of_accepted hw', hhandler, hproc]
  rfl

theorem sent_shown {sent : Sent} (h : sent.Terminated) (iv : Block) (session : Key) :
    ∃ w, sent.wire user (some iv) = some w ∧ ∀ ctrl,
      shows ⟨session, ctrl⟩ (initCable (encryptWire w session).bytes) = sent.shown user := by
  -- each kind of message has its own fields and its own handler
  cases sent with
  | text t =>
    obtain ⟨ht, hfit, hroom⟩ := h
    exact text_shown hnul hlen huser ht hfit hroom iv session
  | conn type =>
    obtain ⟨hsized, hdata, hget⟩ := initStatConnMsg_spec hnul hlen type
    have htype := @conn_type user type
    cases type with
    | userConnect =>
      refine stat_shown hsized (by rw [hdata]; decide) (fun data hmsg => ?_) iv session
      rw [procStat, hmsg, getUser_withData, hget, if_neg huser, htype]
      rfl
    | userDisconnect =>
      refine stat_shown hsized (by rw [hdata]; decide) (fun data hmsg => ?_) iv session
      rw [procStat, hmsg, getUser_withData, hget, if_neg huser, htype]
      rfl
    -- a rename has a message of its own
    | userRename => exact absurd rfl h
  | rename newName =>
    obtain ⟨hnew, hnewLen, hroom⟩ := h
    obtain ⟨hsized, hdata, htype, hget⟩ := initStatRenameMsg_spec hnul hlen hnew hnewLen
    refine stat_shown hsized (by rw [hdata, Msg.size, ceil16]; omega) (fun data hmsg => ?_) iv
      session
    rw [procStat, hmsg, getUser_withData, hget, if_neg huser, htype, hdata]
    exact congrArg (fun aux => Except.ok (ShownStat.renamed user aux)) (cString_padded hnew hroom)
  | file path disk =>
    obtain ⟨contents, hreadable⟩ := h
    obtain ⟨fm, hfm, hsized, hlength, -⟩ := fileMsgFromFile_spec (cStr user) path hreadable
    have hsmall := hreadable.small
    have hfit : 64 + 14 + ceil16 (Msg.size 4170 + fm.data.length) < 2 ^ 64 := by
      rw [fileDataMaxSize] at hsmall
      rw [hlength, Msg.size, ceil16]
      omega
    obtain ⟨w, hw, hopen⟩ := openCable_msg .file iv hsized hfit
    refine ⟨w, ?_, fun ctrl => ?_⟩
    · rw [Sent.wire, hfm, Option.bind_some]
      exact hw
    · obtain ⟨w', hw', hcode, -⟩ :=
        hopen (selectedKey_first (encryptWire_verifies w session) (some ctrl))
      have hhandler : handlerOf (wireGetType w') = .file := by
        rw [hcode]
        rfl
      rw [shows_of_accepted hw', hhandler]
      rfl

end

structure Utters (session : Key) (m : List UInt8 × Sent) (wire : List UInt8) : Prop where
  nonNul : 0 ∉ m.1
  short : m.1.length ≤ 63
  named : m.1 ≠ []
  terminated : m.2.Terminated
  transmits : Transmits session m.1 m.2 wire

section

variable {session : Key} {messages : List (List UInt8 × Sent)} {wires : List (List UInt8)}

theorem Utters.shown {m : List UInt8 × Sent} {wire : List UInt8} (h : Utters session m wire)
    (ctrl : Key) : shows ⟨session, ctrl⟩ (initCable wire) = m.2.shown m.1 := by
  obtain ⟨hnul, hlen, huser, hterminated, iv, w, hw, rfl⟩ := h
  obtain ⟨w', hw', hshown⟩ := sent_shown hnul hlen huser hterminated iv session
  rw [Option.some.inj (hw.symm.trans hw')]
  exact hshown ctrl

theorem shown_all (h : List.Forall₂ (Utters session) messages wires) (ctrl : Key) :
    (wires.map initCable).map (shows ⟨session, ctrl⟩) = messages.map fun m => m.2.shown m.1 := by
  induction h with
  | nil => rfl
  | cons hhead _ ih => rw [List.map_cons, List.map_cons, List.map_cons, ih, hhead.shown ctrl]

theorem shown_of_mem (h : List.Forall₂ (Utters session) messages wires) {cable : Cable}
    (hcable : cable ∈ wires.map initCable) (ctrl : Key) :
    shows ⟨session, ctrl⟩ cable = shows ⟨session, session⟩ cable := by
  induction h with
  | nil => exact absurd hcable List.not_mem_nil
  | cons hhead _ ih =>
    rw [List.map_cons, List.mem_cons] at hcable
    rcases hcable with rfl | hcable
    · rw [hhead.shown, hhead.shown]
    · exact ih hcable

end

def lines (session : Key) (log : List (ℕ × Cable)) : List (ℕ × Option Shown) :=
  log.map fun e => (e.1, shows ⟨session, session⟩ e.2)

theorem sentBy_lines (session : Key) (log : List (ℕ × Cable)) (fd : ℕ) :
    sentBy (lines session log) fd = (sentBy log fd).map (shows ⟨session, session⟩) := by
  rw [sentBy, lines, List.filter_map, List.map_map, sentBy, List.map_map]
  rfl

theorem sentTo_lines (session : Key) (log : List (ℕ × Cable)) (fd : ℕ) :
    sentTo (lines session log) fd = (sentTo log fd).map (shows ⟨session, session⟩) := by
  rw [sentTo, lines, List.filter_map, List.map_map, sentTo, List.map_map]
  rfl

section

variable {N : ℕ} {srv : Server N} {s : Traffic} {session : Key}
  {uttered : ℕ → List (List UInt8 × Sent)} (hinv : s.Invariant srv)
  (hsaid : ∀ fd, List.Forall₂ (Utters session) (uttered fd) (s.said fd))
include hinv hsaid

theorem sentBy_lines_said (fd : ℕ) :
    sentBy (lines session s.log) fd <+: (uttered fd).map fun m => m.2.shown m.1 := by
  rw [sentBy_lines, ← shown_all (hsaid fd) session]
  exact (hinv.up fd).done_initial.map _

theorem sentBy_lines_quiet (hquiet : s.Quiet srv) {fd : ℕ} (hfd : fd ∈ srv.clients) :
    sentBy (lines session s.log) fd = (uttered fd).map fun m => m.2.shown m.1 := by
  have hup := hinv.up fd
  rw [hquiet.uplink fd hfd, hquiet.outgoing fd hfd] at hup
  rw [sentBy_lines, ← shown_all (hsaid fd) session, hup.eq_of_nil]

theorem shows_log {e : ℕ × Cable} (he : e ∈ s.log) (ctrl : Key) :
    shows ⟨session, ctrl⟩ e.2 = shows ⟨session, session⟩ e.2 := by
  have hmem : e.2 ∈ sentBy s.log e.1 :=
    List.mem_map.mpr ⟨e, List.mem_filter.mpr ⟨he, decide_eq_true rfl⟩, rfl⟩
  exact shown_of_mem (hsaid e.1) ((hinv.up e.1).done_initial.subset hmem) ctrl

theorem sentTo_lines_ctrl (fd : ℕ) (ctrl : Key) :
    sentTo (lines session s.log) fd = (sentTo s.log fd).map (shows ⟨session, ctrl⟩) := by
  rw [sentTo_lines]
  refine List.map_congr_left fun cable hcable => ?_
  obtain ⟨e, he, rfl⟩ := List.mem_map.mp hcable
  exact (shows_log hinv hsaid (List.mem_filter.mp he).1 ctrl).symm

theorem heard_lines {fd : ℕ} (hfd : fd ∈ srv.clients) (ctrl : Key) :
    (s.heard fd).map (shows ⟨session, ctrl⟩) <+: sentTo (lines session s.log) fd := by
  rw [sentTo_lines_ctrl hinv hsaid fd ctrl]
  exact (hinv.down fd hfd).done_initial.map _

theorem heard_lines_quiet (hquiet : s.Quiet srv) {fd : ℕ} (hfd : fd ∈ srv.clients) (ctrl : Key) :
    (s.heard fd).map (shows ⟨session, ctrl⟩) = sentTo (lines session s.log) fd := by
  have hdown := hinv.down fd hfd
  rw [hquiet.downlink fd hfd, hquiet.fanout] at hdown
  rw [sentTo_lines_ctrl hinv hsaid fd ctrl, hdown.eq_of_nil]

end

/-- While the clients share a session key there is one conversation: it has the messages of
each client as they were sent and in that order, and every client prints those of the
others in the order of the conversation, up to what is still under way. -/
theorem conversation_shown {N : ℕ} (listening beyond : ℕ) (srv : Server N)
    (hslots : SlotInvariant listening srv) (s : Traffic) (hs : s.Reached srv beyond)
    (session : Key) (ctrl : ℕ → Key) (uttered : ℕ → List (List UInt8 × Sent))
    (hsaid : ∀ fd, List.Forall₂ (Utters session) (uttered fd) (s.said fd)) :
    ∃ conversation : List (ℕ × Option Shown),
      (∀ fd ∈ srv.clients,
        sentBy conversation fd <+: (uttered fd).map (fun m => m.2.shown m.1) ∧
        (s.heard fd).map (shows ⟨session, ctrl fd⟩) <+: sentTo conversation fd) ∧
      (s.Quiet srv → ∀ fd ∈ srv.clients,
        sentBy conversation fd = (uttered fd).map (fun m => m.2.shown m.1) ∧
        (s.heard fd).map (shows ⟨session, ctrl fd⟩) = sentTo conversation fd) := by
  have hinv := hs.invariant hslots
  refine ⟨lines session s.log, fun fd hfd => ⟨?_, ?_⟩, fun hquiet fd hfd => ⟨?_, ?_⟩⟩
  · exact sentBy_lines_said hinv hsaid fd
  · exact heard_lines hinv hsaid hfd (ctrl fd)
  · exact sentBy_lines_quiet hinv hsaid hquiet hfd
  · exact heard_lines_quiet hinv hsaid hquiet hfd (ctrl fd)

theorem initWireFromMsg_length {n : ℕ} {m : Msg n} (type : WireType) (hsized : m.Sized)
    (hfit : 64 + 14 + ceil16 (Msg.size n + m.data.length) < 2 ^ 64) (iv : Block) (session : Key) :
    ∃ w, initWireFromMsg type m (some iv) = some w ∧
      14 + (encryptWire w session).bytes.length < 2 ^ 64 := by
  have htake : m.bytes.take m.getWireLength = m.bytes :=
    List.take_of_length_le (by rw [m.bytes_length, hsized])
  rw [← m.bytes_length] at hfit
  obtain ⟨w, hw, hwdata, hdec⟩ := initWire_decoded type iv hfit
  have hlength := encryptWire_initWire_length session hfit hdec hwdata
  refine ⟨w, by rw [initWireFromMsg, htake, hw], ?_⟩
  rw [hlength, wireSize]
  omega

theorem conn_transmits {session : Key} {user : List UInt8} (hnul : 0 ∉ user)
    (hlen : user.length ≤ 63) (type : StatMsgType) :
    ∃ wire, Transmits session user (.conn type) wire ∧ 14 + wire.length < 2 ^ 64 := by
  obtain ⟨hsized, hdata, -⟩ := initStatConnMsg_spec hnul hlen type
  obtain ⟨w, hw, hlength⟩ := initWireFromMsg_length .stat hsized
    (by rw [hdata]; decide) (Vector.replicate 16 0) session
  exact ⟨_, ⟨Vector.replicate 16 0, w, hw, rfl⟩, hlength⟩

/-- A client that announces itself to another one. -/
theorem conversation_shown_connect : ∃ wire, (Traffic.begun wire).Reached twoSlots 0 ∧
    ∃ conversation : List (ℕ × Option Shown),
      sentBy conversation 7 <+: [some (.stat (.online [97]))] ∧
      ((Traffic.begun wire).heard 6).map (shows ⟨Vector.replicate 32 0, Vector.replicate 32 0⟩) <+:
        sentTo conversation 6 := by
  obtain ⟨wire, htransmits, hfit⟩ :=
    @conn_transmits (Vector.replicate 32 0) [97] (by decide) (by decide) .userConnect
  have hbegun := begun_reached hfit
  have hterminated : (Sent.conn .userConnect).Terminated := by
    intro h
    cases h
  have huttered (fd : ℕ) : List.Forall₂ (Utters (Vector.replicate 32 0))
      (if fd = 7 then [([97], .conn .userConnect)] else []) ((Traffic.begun wire).said fd) := by
    by_cases hfd : fd = 7
    · rw [if_pos hfd, Traffic.begun, hfd]
      dsimp only
      rw [update_self]
      exact .cons ⟨by decide, by decide, by decide, hterminated, htransmits⟩ .nil
    · rw [if_neg hfd, Traffic.begun]
      dsimp only
      rw [update_of_ne hfd]
      exact .nil
  obtain ⟨conversation, hparts, -⟩ := conversation_shown 3 0 twoSlots twoSlots_invariant _ hbegun
    (Vector.replicate 32 0) (fun _ => Vector.replicate 32 0) _ huttered
  have hseven := (hparts 7 (by decide)).1
  rw [if_pos rfl] at hseven
  exact ⟨wire, hbegun, conversation, hseven, (hparts 6 (by decide)).2⟩

end Parcel
