import Parcel.Framing

/-!
# Runs without confusion

In a run of careful steps the frames on the way from a client, followed by those
that it still owes for the control cables on the way to it, are the frames that
the daemon still has to read from it, and cables come after them.
-/

namespace Parcel.Framing
open ByteStrings

/-! ## What a client owes and what it waits for -/

def sends (script : List ClientAct) : List KeyType :=
  script.filterMap fun
    | .send type => some type
    | _ => none

def receives (script : List ClientAct) : List Delivery :=
  script.filterMap fun
    | .recv d => some d
    | _ => none

/-- The frames that a client sends when it receives the deliveries. -/
def answers (ds : List Delivery) : List KeyType :=
  ds.flatMap fun
    | .ctrl rounds => sends (procCtrl rounds)
    | _ => []

/-- A client that waits for some deliveries finds them first, and cables between
exchanges. -/
def Follows : List Delivery → List Delivery → Prop
  | expected, [] => expected = []
  | expected, d :: ds =>
    match expected with
    | e :: es => d = e ∧ answers [d] = [] ∧ Follows es ds
    | [] =>
      match d with
      | .ctrl rounds => Follows (receives (procCtrl rounds)) ds
      | .forwarded => Follows [] ds
      | _ => False

theorem answers_append (ds ds' : List Delivery) : answers (ds ++ ds') = answers ds ++ answers ds' :=
  List.flatMap_append

theorem answers_cons (d : Delivery) (ds : List Delivery) :
    answers (d :: ds) = answers [d] ++ answers ds := answers_append [d] ds

theorem answers_replicate {d : Delivery} (h : answers [d] = []) (n : ℕ) :
    answers (List.replicate n d) = [] := by
  induction n with
  | zero => rfl
  | succ n ih => rw [List.replicate_succ, answers_cons, h, ih, List.nil_append]

theorem sends_clientLoop (rounds : ℕ) :
    sends (clientLoop (rounds + 1)) = List.replicate rounds .exIntermediate := by
  induction rounds with
  | zero => rfl
  | succ rounds ih =>
    rw [clientLoop, if_neg (Nat.succ_ne_zero rounds), List.replicate_succ, ← ih]
    rfl

theorem receives_clientLoop (rounds : ℕ) :
    receives (clientLoop rounds) = List.replicate rounds .intermediate := by
  induction rounds with
  | zero => rfl
  | succ rounds ih =>
    rw [clientLoop, List.replicate_succ, ← ih]
    by_cases hlast : rounds = 0
    · rw [if_pos hlast, hlast]
      rfl
    · rw [if_neg hlast]
      rfl

/-- For a control message with at least one round, a client sends as many frames
as it receives. -/
theorem sends_procCtrl {rounds : ℕ} (h : 1 ≤ rounds) :
    sends (procCtrl rounds) = List.replicate rounds .exIntermediate := by
  obtain ⟨n, rfl⟩ : ∃ n, rounds = n + 1 := ⟨rounds - 1, by omega⟩
  have hsplit : sends (procCtrl (n + 1)) = .exIntermediate :: sends (clientLoop (n + 1)) := by
    rw [procCtrl, nPartyClient, sends, sends, List.filterMap_append, List.filterMap_cons]
    exact List.append_nil _
  rw [hsplit, sends_clientLoop, List.replicate_succ]

theorem receives_procCtrl (rounds : ℕ) :
    receives (procCtrl rounds) = List.replicate rounds .intermediate := by
  have hsplit : receives (procCtrl rounds) = receives (clientLoop rounds) := by
    rw [procCtrl, nPartyClient, receives, receives, List.filterMap_append, List.filterMap_cons]
    exact List.append_nil _
  rw [hsplit, receives_clientLoop]

theorem Follows.append {expected ds ds' : List Delivery} (h : Follows expected ds)
    (h' : Follows [] ds') : Follows expected (ds ++ ds') := by
  induction ds generalizing expected with
  | nil =>
    rw [Follows] at h
    rw [h, List.nil_append]
    exact h'
  | cons d ds ih =>
    cases expected with
    | cons e es => exact ⟨h.1, h.2.1, ih h.2.2⟩
    | nil =>
      cases d with
      | ctrl rounds =>
        have hrest : Follows (receives (procCtrl rounds)) ds := h
        exact ih hrest
      | forwarded =>
        have hrest : Follows [] ds := h
        exact ih hrest
      | publicKey => exact h.elim
      | sessionKey => exact h.elim
      | intermediate => exact h.elim

theorem follows_forwarded (n : ℕ) : Follows [] (List.replicate n .forwarded) := by
  induction n with
  | zero => exact rfl
  | succ n ih => exact ih

theorem follows_exchange (rounds : ℕ) :
    Follows [] (.ctrl rounds :: List.replicate rounds .intermediate) := by
  have hframes (n : ℕ) :
      Follows (List.replicate n .intermediate) (List.replicate n .intermediate) := by
    induction n with
    | zero => exact rfl
    | succ n ih => exact ⟨rfl, rfl, ih⟩
  change Follows (receives (procCtrl rounds)) _
  rw [receives_procCtrl]
  exact hframes rounds

/-! ## The daemon's activities -/

def writesTo (sock : ℕ) (work : List DaemonAct) : List Delivery :=
  work.filterMap fun
    | .rcvPublic _ => none
    | .relay _ next => if next = sock then some .intermediate else none
    | .send dst d => if dst = sock then some d else none

section

variable (sock : ℕ)

theorem readsOn_append (work work' : List DaemonAct) :
    readsOn sock (work ++ work') = readsOn sock work ++ readsOn sock work' :=
  List.filterMap_append

theorem writesTo_append (work work' : List DaemonAct) :
    writesTo sock (work ++ work') = writesTo sock work ++ writesTo sock work' :=
  List.filterMap_append

theorem sendAll_work (sockets : List ℕ) (d : Delivery) :
    readsOn sock (sockets.map fun dst => .send dst d) = [] ∧
      writesTo sock (sockets.map fun dst => .send dst d) =
        List.replicate (sockets.count sock) d := by
  induction sockets with
  | nil => exact ⟨rfl, rfl⟩
  | cons dst sockets ih =>
    refine ⟨ih.1, ?_⟩
    by_cases hdst : dst = sock
    · rw [List.count_cons, if_pos (beq_iff_eq.mpr hdst), List.replicate_succ, ← ih.2]
      simp only [writesTo, List.map_cons, List.filterMap_cons, if_pos hdst]
    · rw [List.count_cons, if_neg (fun h => hdst (beq_iff_eq.mp h)), Nat.add_zero, ← ih.2]
      simp only [writesTo, List.map_cons, List.filterMap_cons, if_neg hdst]

theorem relays_work {sockets nexts : List ℕ} (h : sockets.length = nexts.length) :
    readsOn sock (List.zipWith .relay sockets nexts) =
        List.replicate (sockets.count sock) .exIntermediate ∧
      writesTo sock (List.zipWith .relay sockets nexts) =
        List.replicate (nexts.count sock) .intermediate := by
  induction sockets generalizing nexts with
  | nil =>
    obtain rfl := List.eq_nil_of_length_eq_zero h.symm
    exact ⟨rfl, rfl⟩
  | cons src sockets ih =>
    cases nexts with
    | nil => cases h
    | cons next nexts =>
      obtain ⟨hreads, hwrites⟩ := ih (Nat.succ.inj h)
      rw [List.zipWith_cons_cons, List.count_cons, List.count_cons]
      constructor
      · by_cases hsrc : src = sock
        · rw [if_pos (beq_iff_eq.mpr hsrc), List.replicate_succ, ← hreads]
          simp only [readsOn, List.filterMap_cons, DaemonAct.reads, Option.bind_some, if_pos hsrc]
        · rw [if_neg (fun h => hsrc (beq_iff_eq.mp h)), Nat.add_zero, ← hreads]
          simp only [readsOn, List.filterMap_cons, DaemonAct.reads, Option.bind_some, if_neg hsrc]
      · by_cases hnext : next = sock
        · rw [if_pos (beq_iff_eq.mpr hnext), List.replicate_succ, ← hwrites]
          simp only [writesTo, List.filterMap_cons, if_pos hnext]
        · rw [if_neg (fun h => hnext (beq_iff_eq.mp h)), Nat.add_zero, ← hwrites]
          simp only [writesTo, List.filterMap_cons, if_neg hnext]

theorem rotateIntermediates_work (sockets : List ℕ) :
    readsOn sock (rotateIntermediates sockets) =
        List.replicate (sockets.count sock) .exIntermediate ∧
      writesTo sock (rotateIntermediates sockets) =
        List.replicate (sockets.count sock) .intermediate := by
  obtain ⟨hreads, hwrites⟩ := relays_work sock (List.length_rotate sockets 1).symm
  refine ⟨hreads, ?_⟩
  rw [rotateIntermediates, hwrites, (List.rotate_perm sockets 1).count_eq]

theorem nPartyServer_work {sockets : List ℕ} (h : 2 ≤ sockets.length) :
    readsOn sock (nPartyServer sockets) =
        List.replicate ((sockets.length - 1) * sockets.count sock) .exIntermediate ∧
      writesTo sock (nPartyServer sockets) =
        List.replicate (sockets.count sock) (.ctrl (sockets.length - 1)) ++
          List.replicate ((sockets.length - 1) * sockets.count sock) .intermediate := by
  obtain ⟨hreads, hwrites⟩ := rotateIntermediates_work sock sockets
  obtain ⟨hnone, hctrl⟩ := sendAll_work sock sockets (.ctrl (sockets.length - 1))
  have hread := readsOn_append sock (serverSendCtrlKey sockets)
    (List.replicate (sockets.length - 1) (rotateIntermediates sockets)).flatten
  have hwrite := writesTo_append sock (serverSendCtrlKey sockets)
    (List.replicate (sockets.length - 1) (rotateIntermediates sockets)).flatten
  rw [nPartyServer, if_neg (by omega), hread, hwrite]
  constructor
  · have hnone' : readsOn sock (serverSendCtrlKey sockets) = [] := hnone
    rw [hnone', List.nil_append, readsOn, List.filterMap_flatten, List.map_replicate]
    rw [readsOn] at hreads
    rw [hreads, List.flatten_replicate_replicate]
  · have hctrl' : writesTo sock (serverSendCtrlKey sockets) =
        List.replicate (sockets.count sock) (.ctrl (sockets.length - 1)) := hctrl
    congr 1
    rw [writesTo, List.filterMap_flatten, List.map_replicate]
    rw [writesTo] at hwrites
    rw [hwrites, List.flatten_replicate_replicate]

end

/-! ## One client's channels -/

/-- A client's channels against what the daemon still reads from it and writes to
it. A client that is gone sends nothing more. -/
structure Tracked (reads : List KeyType) (writes : List Delivery) (script : List ClientAct)
    (connected : Bool) (up : List Packet) (down : List Delivery) : Prop where
  ordered : up.Pairwise fun p q => q.isFrame = true → p.isFrame = true
  awaited : frames up <+: reads
  settled : (∃ p ∈ up, p.isFrame = false) → frames up = reads
  owed : connected = true → frames up ++ (sends script ++ answers (down ++ writes)) = reads
  expected : connected = true → Follows (receives script) (down ++ writes)

theorem frames_append (ps qs : List Packet) : frames (ps ++ qs) = frames ps ++ frames qs :=
  List.filterMap_append

theorem frames_cables {ps : List Packet} (h : ∀ p ∈ ps, p.isFrame = false) : frames ps = [] := by
  rw [frames, List.filterMap_eq_nil_iff]
  intro p hp
  cases p with
  | frame type key => cases h _ hp
  | cable wire => rfl

namespace Tracked

variable {reads : List KeyType} {writes : List Delivery} {script : List ClientAct}
  {connected : Bool} {up : List Packet} {down : List Delivery}

theorem start : Tracked [.clientPublic] [.publicKey, .sessionKey] twoPartyClient true [] [] :=
  ⟨.nil, List.nil_prefix, fun ⟨_, hp, _⟩ => absurd hp List.not_mem_nil, fun _ => rfl,
    fun _ => ⟨rfl, rfl, rfl, rfl, rfl⟩⟩

theorem frames_of_cable {wire : List UInt8}
    (h : Tracked reads writes script connected (.cable wire :: up) down) :
    frames (.cable wire :: up) = [] ∧ reads = [] := by
  have hnone : frames (.cable wire :: up) = [] := by
    refine frames_cables fun p hp => ?_
    rcases List.mem_cons.mp hp with rfl | hp
    · rfl
    · have hp' := (List.pairwise_cons.mp h.ordered).1 p hp
      by_contra hframe
      cases hp' (Bool.eq_true_of_not_eq_false hframe)
  have hreads := h.settled ⟨.cable wire, List.mem_cons_self, rfl⟩
  exact ⟨hnone, hreads.symm.trans hnone⟩

theorem first_frame {type : KeyType} (h : Tracked (type :: reads) writes script connected up down)
    (hup : up ≠ []) : ∃ key rest, up = .frame type key :: rest := by
  cases up with
  | nil => exact absurd rfl hup
  | cons p rest =>
    cases p with
    | frame t key =>
      have htype : t = type := (List.cons_prefix_cons.mp h.awaited).1
      exact ⟨key, rest, by rw [htype]⟩
    | cable wire => cases h.frames_of_cable.2

theorem first_cable (h : Tracked [] writes script connected up down) (hup : up ≠ []) :
    ∃ wire rest, up = .cable wire :: rest := by
  cases up with
  | nil => exact absurd rfl hup
  | cons p rest =>
    cases p with
    | frame type key => cases List.prefix_nil.mp h.awaited
    | cable wire => exact ⟨wire, rest, rfl⟩

theorem read_frame {type : KeyType} {key : Key}
    (h : Tracked (type :: reads) writes script connected (.frame type key :: up) down) :
    Tracked reads writes script connected up down := by
  refine ⟨(List.pairwise_cons.mp h.ordered).2, (List.cons_prefix_cons.mp h.awaited).2, ?_, ?_,
    h.expected⟩
  · rintro ⟨p, hp, hcable⟩
    exact (List.cons.inj (h.settled ⟨p, List.mem_cons_of_mem _ hp, hcable⟩)).2
  · intro hconn
    exact (List.cons.inj (h.owed hconn)).2

theorem read_cable {wire : List UInt8}
    (h : Tracked reads writes script connected (.cable wire :: up) down) :
    Tracked reads writes script connected up down := by
  have hframes : frames up = reads := h.settled ⟨.cable wire, List.mem_cons_self, rfl⟩
  exact ⟨(List.pairwise_cons.mp h.ordered).2, h.awaited, fun _ => hframes, h.owed, h.expected⟩

theorem deliver {d : Delivery} (h : Tracked reads (d :: writes) script connected up down) :
    Tracked reads writes script connected up (down ++ [d]) := by
  have hassoc : down ++ [d] ++ writes = down ++ d :: writes := by
    rw [List.append_assoc, List.singleton_append]
  refine ⟨h.ordered, h.awaited, h.settled, ?_, ?_⟩
  · rw [hassoc]
    exact h.owed
  · rw [hassoc]
    exact h.expected

theorem forward (h : Tracked reads writes script connected up down) (n : ℕ) :
    Tracked reads (writes ++ List.replicate n .forwarded) script connected up down := by
  refine ⟨h.ordered, h.awaited, h.settled, ?_, ?_⟩
  · rw [← List.append_assoc down, answers_append, answers_replicate rfl, List.append_nil]
    exact h.owed
  · intro hconn
    rw [← List.append_assoc]
    exact (h.expected hconn).append (follows_forwarded n)

theorem exchange (h : Tracked reads writes script connected up down) {rounds : ℕ}
    (hrounds : 1 ≤ rounds) (hup : ∀ p ∈ up, p.isFrame = true) :
    Tracked (reads ++ List.replicate rounds .exIntermediate)
      (writes ++ .ctrl rounds :: List.replicate rounds .intermediate) script connected up down := by
  have hanswers : answers (.ctrl rounds :: List.replicate rounds .intermediate) =
      List.replicate rounds .exIntermediate := by
    rw [answers_cons, answers_replicate rfl, List.append_nil, ← sends_procCtrl hrounds]
    exact List.append_nil _
  refine ⟨h.ordered, h.awaited.trans (List.prefix_append _ _), ?_, ?_, ?_⟩
  · rintro ⟨p, hp, hcable⟩
    cases hcable.symm.trans (hup p hp)
  · intro hconn
    rw [← List.append_assoc down, answers_append, hanswers, ← List.append_assoc (sends script),
      ← List.append_assoc (frames up), h.owed hconn]
  · intro hconn
    rw [← List.append_assoc]
    exact (h.expected hconn).append (follows_exchange rounds)

theorem send_frame {type : KeyType}
    (h : Tracked reads writes (.send type :: script) connected up down) (hconn : connected = true)
    (key : Key) : Tracked reads writes script connected (up ++ [.frame type key]) down := by
  have howed : frames up ++ type :: (sends script ++ answers (down ++ writes)) = reads :=
    h.owed hconn
  have hup : ∀ p ∈ up, p.isFrame = true := by
    intro p hp
    by_contra hframe
    have hall := h.settled ⟨p, hp, Bool.eq_false_of_not_eq_true hframe⟩
    rw [hall, List.append_right_eq_self] at howed
    cases howed
  have hframes : frames (up ++ [.frame type key]) = frames up ++ [type] := frames_append up _
  refine ⟨?_, ?_, ?_, ?_, h.expected⟩
  · refine List.pairwise_append.mpr ⟨h.ordered, List.pairwise_singleton _ _, ?_⟩
    intro p hp q _ _
    exact hup p hp
  · rw [hframes, ← howed]
    exact List.prefix_append_right_inj (frames up) |>.mpr (List.prefix_append [type] _)
  · rintro ⟨p, hp, hcable⟩
    rcases List.mem_append.mp hp with hp | hp
    · cases hcable.symm.trans (hup p hp)
    · rw [List.mem_singleton.mp hp] at hcable
      cases hcable
  · intro _
    rw [hframes, List.append_assoc, List.singleton_append]
    exact howed

theorem send_cable (h : Tracked reads writes script connected up down)
    (hsettled : reads.length ≤ (frames up).length) (wire : List UInt8) :
    Tracked reads writes script connected (up ++ [.cable wire]) down := by
  have hall : frames up = reads := h.awaited.eq_of_length_le hsettled
  have hframes : frames (up ++ [.cable wire]) = frames up :=
    (frames_append up _).trans (List.append_nil _)
  refine ⟨?_, ?_, ?_, ?_, h.expected⟩
  · refine List.pairwise_append.mpr ⟨h.ordered, List.pairwise_singleton _ _, ?_⟩
    intro p _ q hq hframe
    rw [List.mem_singleton.mp hq] at hframe
    cases hframe
  · rw [hframes]
    exact h.awaited
  · intro _
    rw [hframes, hall]
  · rw [hframes]
    exact h.owed

theorem receive {d : Delivery}
    (h : Tracked reads writes (.recv d :: script) connected up (d :: down)) :
    Tracked reads writes script connected up down := by
  have hexpected (hconn : connected = true) :
      answers [d] = [] ∧ Follows (receives script) (down ++ writes) := (h.expected hconn).2
  refine ⟨h.ordered, h.awaited, h.settled, ?_, fun hconn => (hexpected hconn).2⟩
  intro hconn
  have howed := h.owed hconn
  rw [List.cons_append, answers_cons, (hexpected hconn).1, List.nil_append] at howed
  exact howed

theorem announce (h : Tracked reads writes (.announce :: script) connected up down) :
    Tracked reads writes script connected up down :=
  ⟨h.ordered, h.awaited, h.settled, h.owed, h.expected⟩

theorem control {rounds : ℕ} (h : Tracked reads writes [] connected up (.ctrl rounds :: down)) :
    Tracked reads writes (procCtrl rounds) connected up down := by
  refine ⟨h.ordered, h.awaited, h.settled, ?_, h.expected⟩
  intro hconn
  have howed := h.owed hconn
  have hanswers : answers [.ctrl rounds] = sends (procCtrl rounds) := List.append_nil _
  rw [List.cons_append, answers_cons, hanswers] at howed
  exact howed

theorem forwarded (h : Tracked reads writes [] connected up (.forwarded :: down)) :
    Tracked reads writes [] connected up down :=
  ⟨h.ordered, h.awaited, h.settled, h.owed, h.expected⟩

theorem leave (h : Tracked reads writes script connected up down) :
    Tracked reads writes script false up down :=
  ⟨h.ordered, h.awaited, h.settled, fun hconn => Bool.noConfusion hconn,
    fun hconn => Bool.noConfusion hconn⟩

end Tracked

def System.Tracks (s : System) (sock : ℕ) (reads : List KeyType) (writes : List Delivery) : Prop :=
  Tracked reads writes (s.client sock).script (s.client sock).connected (s.up sock) (s.down sock)

/-- A connection that waits for `accept`: the client may have sent its key. -/
structure System.Waits (s : System) (sock : ℕ) : Prop where
  tracked : s.Tracks sock [.clientPublic] [.publicKey, .sessionKey]
  script : (s.client sock).script = twoPartyClient ∨
    (s.client sock).script = twoPartyClient.tail
  unannounced : (s.client sock).announced = false
  idle : s.down sock = []
  noCable : s.NoCable sock

structure Orderly (work : List DaemonAct) (s : System) : Prop where
  nodup : (s.sockets ++ s.backlog).Nodup
  members : ∀ sock ∈ s.sockets, s.Tracks sock (readsOn sock work) (writesTo sock work)
  waiting : ∀ sock ∈ s.backlog, s.Waits sock
  others : ∀ sock, sock ∉ s.sockets → readsOn sock work = [] ∧ writesTo sock work = []

def Invariant (s : System) : Prop :=
  match s.daemon with
  | .running work => Orderly work s
  | .stopped why => why ≠ .framing

theorem invariant_running {s : System} {work : List DaemonAct} (hs : Invariant s)
    (hd : s.daemon = .running work) : Orderly work s := by
  rw [Invariant, hd] at hs
  exact hs

theorem invariant_of_orderly {s : System} {work : List DaemonAct} (hd : s.daemon = .running work)
    (hs : Orderly work s) : Invariant s := by
  rw [Invariant, hd]
  exact hs

theorem invariant_of_stopped {s : System} {why : Stop} (hd : s.daemon = .stopped why)
    (hwhy : why ≠ .framing) : Invariant s := by
  rw [Invariant, hd]
  exact hwhy

theorem Orderly.not_backlog {s : System} {work : List DaemonAct} (h : Orderly work s) {sock : ℕ}
    (hsock : sock ∈ s.sockets) : sock ∉ s.backlog := fun hback =>
  (List.nodup_append.mp h.nodup).2.2 sock hsock sock hback rfl

theorem initial_invariant : Invariant initial :=
  invariant_of_orderly rfl ⟨List.nodup_nil, fun _ h => absurd h List.not_mem_nil,
    fun _ h => absurd h List.not_mem_nil, fun _ _ => ⟨rfl, rfl⟩⟩

theorem invariant_framed {s : System} (hs : Invariant s) : Framed s := by
  have hup (sock : ℕ) (hstream : s.stream sock ≠ []) : s.up sock ≠ [] := by
    intro hnil
    rw [System.stream, hnil] at hstream
    exact hstream rfl
  refine ⟨?_, ?_, ?_⟩
  · intro act work sock type hd hact hstream
    have horderly := invariant_running hs hd
    have hreads : readsOn sock (act :: work) = type :: readsOn sock work := by
      simp only [readsOn, List.filterMap_cons, hact, Option.bind_some, if_true]
    have hmem : sock ∈ s.sockets := by
      by_contra hnot
      cases hreads.symm.trans (horderly.others sock hnot).1
    have htracked := horderly.members sock hmem
    rw [hreads] at htracked
    obtain ⟨key, rest, hpackets⟩ := htracked.first_frame (hup sock hstream)
    refine ⟨key, rest.flatMap Packet.bytes, ?_⟩
    rw [System.stream, hpackets, List.flatMap_cons]
    rfl
  · intro hd sock hmem hstream
    have htracked := (invariant_running hs hd).members sock hmem
    obtain ⟨wire, rest, hpackets⟩ := Tracked.first_cable htracked (hup sock hstream)
    refine ⟨wire, rest.flatMap Packet.bytes, ?_⟩
    rw [System.stream, hpackets, List.flatMap_cons]
    rfl
  · intro hd
    rw [Invariant, hd] at hs
    exact hs rfl

/-! ## Steps of a client -/

def System.Agrees (s s' : System) (sock : ℕ) : Prop :=
  s'.client sock = s.client sock ∧ s'.up sock = s.up sock ∧ s'.down sock = s.down sock

section

variable {s s' : System} {sock : ℕ}

theorem System.Agrees.tracks (h : s.Agrees s' sock) {reads : List KeyType} {writes : List Delivery}
    (ht : s.Tracks sock reads writes) : s'.Tracks sock reads writes := by
  obtain ⟨hclient, hup, hdown⟩ := h
  rw [System.Tracks, hclient, hup, hdown]
  exact ht

theorem System.Agrees.waits (h : s.Agrees s' sock) (hw : s.Waits sock) : s'.Waits sock := by
  obtain ⟨hclient, hup, hdown⟩ := h
  refine ⟨System.Agrees.tracks ⟨hclient, hup, hdown⟩ hw.tracked, ?_, ?_, ?_, ?_⟩
  · rw [hclient]
    exact hw.script
  · rw [hclient]
    exact hw.unannounced
  · rw [hdown]
    exact hw.idle
  · rw [System.NoCable, hup]
    exact hw.noCable

theorem invariant_client (hs : Invariant s) (hdaemon : s'.daemon = s.daemon)
    (hsockets : s'.sockets = s.sockets) (hbacklog : s'.backlog = s.backlog)
    (hother : ∀ other, other ≠ sock → s.Agrees s' other)
    (hmember : ∀ reads writes, reads = readsOn sock s.work → s.Tracks sock reads writes →
      s'.Tracks sock reads writes)
    (hwaiting : s.Waits sock → s'.Waits sock) : Invariant s' := by
  cases hd : s.daemon with
  | stopped why =>
    rw [Invariant, hd] at hs
    exact invariant_of_stopped (hdaemon.trans hd) hs
  | running work =>
    have horderly := invariant_running hs hd
    have hwork : s.work = work := by rw [System.work, hd]
    refine invariant_of_orderly (hdaemon.trans hd) ⟨?_, ?_, ?_, ?_⟩
    · rw [hsockets, hbacklog]
      exact horderly.nodup
    · intro other hmem
      rw [hsockets] at hmem
      by_cases heq : other = sock
      · rw [heq] at hmem ⊢
        exact hmember _ _ (by rw [hwork]) (horderly.members sock hmem)
      · exact (hother other heq).tracks (horderly.members other hmem)
    · intro other hmem
      rw [hbacklog] at hmem
      by_cases heq : other = sock
      · rw [heq] at hmem ⊢
        exact hwaiting (horderly.waiting sock hmem)
      · exact (hother other heq).waits (horderly.waiting other hmem)
    · rw [hsockets]
      exact horderly.others

end

/-- What a step of a receive thread does to the client and its channels. -/
inductive ThreadStep (key : Key) (wire : List UInt8) :
    Client → List Packet → List Delivery → Client → List Packet → List Delivery → Prop
  | send {type script a c up down} :
      ThreadStep key wire ⟨.send type :: script, a, c⟩ up down
        ⟨script, a, c⟩ (up ++ [.frame type key]) down
  | recv {d script a c up down} :
      ThreadStep key wire ⟨.recv d :: script, a, c⟩ up (d :: down) ⟨script, a, c⟩ up down
  | announced {script c up down} :
      ThreadStep key wire ⟨.announce :: script, true, c⟩ up down ⟨script, true, c⟩ up down
  | announce {script c up down} :
      ThreadStep key wire ⟨.announce :: script, false, c⟩ up down
        ⟨script, true, c⟩ (up ++ [.cable wire]) down
  | control {rounds a c up down} :
      ThreadStep key wire ⟨[], a, c⟩ up (.ctrl rounds :: down) ⟨procCtrl rounds, a, c⟩ up down
  | forwarded {a c up down} :
      ThreadStep key wire ⟨[], a, c⟩ up (.forwarded :: down) ⟨[], a, c⟩ up down
  | lost {script a c up d down} :
      ThreadStep key wire ⟨script, a, c⟩ up (d :: down) ⟨script, a, false⟩ up (d :: down)

/-- The state with one client and its channels replaced. -/
def System.replace (s : System) (sock : ℕ) (c : Client) (up : List Packet) (down : List Delivery) :
    System :=
  { s with
    client := Function.update s.client sock c
    up := Function.update s.up sock up
    down := Function.update s.down sock down }

section

variable {s s' : System} {sock : ℕ}

theorem recvThread_cases {key : Key} {wire : List UInt8}
    (h : s.recvThread sock key wire = some s') :
    ∃ c up down, ThreadStep key wire (s.client sock) (s.up sock) (s.down sock) c up down ∧
      s' = s.replace sock c up down := by
  -- every way out through `lose` is the constructor `lost`
  have hlost (d : Delivery) (rest : List Delivery) (hdown : s.down sock = d :: rest) :
      ∃ c up down, ThreadStep key wire (s.client sock) (s.up sock) (s.down sock) c up down ∧
        s.lose sock = s.replace sock c up down := by
    rw [hdown]
    refine ⟨_, _, _, .lost, ?_⟩
    simp only [System.lose, System.setClient, System.replace, ← hdown, Function.update_eq_self]
  rcases hc : s.client sock with ⟨script, announced, connected⟩
  rw [hc] at hlost
  rw [System.recvThread, hc] at h
  cases script with
  | nil =>
    cases hdown : s.down sock with
    | nil =>
      rw [hdown] at h
      cases h
    | cons d rest =>
      rw [hdown] at h
      cases d with
      | ctrl rounds =>
        obtain rfl := Option.some.inj h
        refine ⟨_, _, _, .control, ?_⟩
        simp only [System.setDown, System.setClient, System.replace, Function.update_eq_self]
      | forwarded =>
        obtain rfl := Option.some.inj h
        refine ⟨_, _, _, .forwarded, ?_⟩
        simp only [System.setDown, System.replace, ← hc, Function.update_eq_self]
      -- a frame outside of a handshake has no handler
      | publicKey =>
        obtain rfl := Option.some.inj h
        exact hdown ▸ hlost _ _ hdown
      | sessionKey =>
        obtain rfl := Option.some.inj h
        exact hdown ▸ hlost _ _ hdown
      | intermediate =>
        obtain rfl := Option.some.inj h
        exact hdown ▸ hlost _ _ hdown
  | cons act script =>
    cases act with
    | send type =>
      obtain rfl := Option.some.inj h
      refine ⟨_, _, _, .send, ?_⟩
      simp only [System.put, System.setClient, System.replace, Function.update_eq_self]
    | recv d =>
      cases hdown : s.down sock with
      | nil =>
        rw [hdown] at h
        cases h
      | cons d' rest =>
        rw [hdown] at h
        dsimp only at h
        by_cases heq : d' = d
        · rw [if_pos heq] at h
          obtain rfl := Option.some.inj h
          rw [heq]
          refine ⟨_, _, _, .recv, ?_⟩
          simp only [System.setDown, System.setClient, System.replace, Function.update_eq_self]
        · rw [if_neg heq] at h
          obtain rfl := Option.some.inj h
          exact hdown ▸ hlost _ _ hdown
    | announce =>
      dsimp only at h
      cases announced with
      | true =>
        obtain rfl := Option.some.inj h
        refine ⟨_, _, _, .announced, ?_⟩
        simp only [System.setClient, System.replace, Function.update_eq_self]
      | false =>
        obtain rfl := Option.some.inj h
        refine ⟨_, _, _, .announce, ?_⟩
        simp only [System.put, System.setClient, System.replace, Function.update_eq_self]

theorem replace_agrees (s : System) (sock : ℕ) (c : Client) (up : List Packet)
    (down : List Delivery) {other : ℕ} (hne : other ≠ sock) :
    s.Agrees (s.replace sock c up down) other :=
  ⟨Function.update_of_ne hne _ _, Function.update_of_ne hne _ _, Function.update_of_ne hne _ _⟩

theorem replace_tracks (s : System) (sock : ℕ) {c : Client} {up : List Packet}
    {down : List Delivery} {reads : List KeyType} {writes : List Delivery}
    (h : Tracked reads writes c.script c.connected up down) :
    (s.replace sock c up down).Tracks sock reads writes := by
  simp only [System.Tracks, System.replace, Function.update_self]
  exact h

theorem ThreadStep.tracked {key : Key} {wire : List UInt8} {c c' : Client} {up up' : List Packet}
    {down down' : List Delivery} (h : ThreadStep key wire c up down c' up' down')
    {reads : List KeyType} {writes : List Delivery} (hconn : c.connected = true)
    (ht : Tracked reads writes c.script c.connected up down)
    (hsettled : c.script.head? = some .announce → c.announced = false →
      reads.length ≤ (frames up).length) :
    Tracked reads writes c'.script c'.connected up' down' := by
  cases h with
  | send => exact ht.send_frame hconn key
  | recv => exact ht.receive
  | announced => exact ht.announce
  | announce => exact (ht.send_cable (hsettled rfl rfl) wire).announce
  | control => exact ht.control
  | forwarded => exact ht.forwarded
  | lost => exact ht.leave

theorem ThreadStep.waits {key : Key} {wire : List UInt8} {c : Client} {up : List Packet}
    {down : List Delivery}
    (h : ThreadStep key wire (s.client sock) (s.up sock) (s.down sock) c up down)
    (hconn : (s.client sock).connected = true) (hw : s.Waits sock) :
    (s.replace sock c up down).Waits sock := by
  have htracked : (s.replace sock c up down).Tracks sock [.clientPublic]
      [.publicKey, .sessionKey] := by
    refine replace_tracks s sock (h.tracked hconn hw.tracked ?_)
    intro hhead
    rcases hw.script with hscript | hscript
    · rw [hscript] at hhead
      cases hhead
    · rw [hscript] at hhead
      cases hhead
  have hidle := hw.idle
  have hannounced := hw.unannounced
  have hnoCable := hw.noCable
  rw [System.NoCable] at hnoCable
  have hscript := hw.script
  generalize s.client sock = c₀ at h hscript hannounced
  generalize s.up sock = up₀ at h hnoCable
  rw [hidle] at h
  -- a client that waits to be accepted has sent at most its public key
  cases h with
  | @send type script a conn =>
    have htail : script = twoPartyClient.tail := by
      rcases hscript with hscript | hscript
      · exact (List.cons.inj hscript).2
      · cases (List.cons.inj hscript).1
    refine ⟨htracked, ?_, ?_, ?_, ?_⟩
    · simp only [System.replace, Function.update_self]
      exact .inr htail
    · simp only [System.replace, Function.update_self]
      exact hannounced
    · simp only [System.replace, Function.update_self]
    · simp only [System.NoCable, System.replace, Function.update_self]
      intro p hp
      rcases List.mem_append.mp hp with hp | hp
      · exact hnoCable p hp
      · rw [List.mem_singleton.mp hp]
        rfl
  | announced =>
    rcases hscript with hscript | hscript
    · cases (List.cons.inj hscript).1
    · cases (List.cons.inj hscript).1
  | announce =>
    rcases hscript with hscript | hscript
    · cases (List.cons.inj hscript).1
    · cases (List.cons.inj hscript).1

theorem recvThread_invariant {key : Key} {wire : List UInt8} (hs : Invariant s)
    (hcareful : Careful s (.recvThread sock key wire))
    (h : s.step (.recvThread sock key wire) = some s') : Invariant s' := by
  rw [System.step] at h
  by_cases hconn : (s.client sock).connected = true
  · rw [if_pos hconn] at h
    obtain ⟨c, up, down, hstep, rfl⟩ := recvThread_cases h
    refine invariant_client hs rfl rfl rfl (fun other hne => replace_agrees s sock c up down hne)
      ?_ (fun hw => hstep.waits hconn hw)
    intro reads writes hreads ht
    refine replace_tracks s sock (hstep.tracked hconn ht ?_)
    rw [hreads]
    exact hcareful
  · rw [if_neg hconn] at h
    cases h

theorem sendThread_invariant {wire : List UInt8} (hs : Invariant s)
    (hcareful : Careful s (.sendThread sock wire))
    (h : s.step (.sendThread sock wire) = some s') : Invariant s' := by
  rw [System.step] at h
  by_cases hmay : (s.client sock).connected ∧ (s.client sock).announced
  · rw [if_pos hmay] at h
    obtain rfl := Option.some.inj h
    refine invariant_client hs rfl rfl rfl
      (fun other hne => ⟨rfl, Function.update_of_ne hne _ _, rfl⟩) ?_ ?_
    · intro reads writes hreads ht
      simp only [System.Tracks, System.put, Function.update_self]
      refine ht.send_cable ?_ wire
      rw [hreads]
      exact hcareful
    · intro hw
      cases hw.unannounced.symm.trans hmay.2
  · rw [if_neg hmay] at h
    cases h

theorem quit_invariant (hs : Invariant s) (h : s.step (.quit sock) = some s') : Invariant s' := by
  obtain rfl := Option.some.inj h
  refine invariant_client hs rfl rfl rfl
    (fun other hne => ⟨Function.update_of_ne hne _ _, rfl, rfl⟩) ?_ ?_
  · intro reads writes _ ht
    simp only [System.Tracks, System.lose, System.setClient, Function.update_self]
    exact Tracked.leave ht
  · intro hw
    refine ⟨?_, ?_, ?_, hw.idle, hw.noCable⟩
    · simp only [System.Tracks, System.lose, System.setClient, Function.update_self]
      exact Tracked.leave hw.tracked
    · simp only [System.lose, System.setClient, Function.update_self]
      exact hw.script
    · simp only [System.lose, System.setClient, Function.update_self]
      exact hw.unannounced

end

/-! ## Steps of the daemon -/

section

variable {s s' : System} {sock : ℕ} {act : DaemonAct} {work work' : List DaemonAct}

theorem readsOn_cons (sock : ℕ) (act : DaemonAct) (work : List DaemonAct) :
    readsOn sock (act :: work) = readsOn sock [act] ++ readsOn sock work :=
  readsOn_append sock [act] work

theorem writesTo_cons (sock : ℕ) (act : DaemonAct) (work : List DaemonAct) :
    writesTo sock (act :: work) = writesTo sock [act] ++ writesTo sock work :=
  writesTo_append sock [act] work

theorem orderly_daemon (h : Orderly work s) (hmem : sock ∈ s.sockets)
    (hsockets : s'.sockets = s.sockets) (hbacklog : s'.backlog = s.backlog)
    (hother : ∀ other, other ≠ sock → s.Agrees s' other ∧
      readsOn other work' = readsOn other work ∧ writesTo other work' = writesTo other work)
    (hsock : s'.Tracks sock (readsOn sock work') (writesTo sock work')) : Orderly work' s' := by
  have hne (other : ℕ) (hnot : other ∉ s.sockets) : other ≠ sock := fun heq => hnot (heq ▸ hmem)
  refine ⟨?_, ?_, ?_, ?_⟩
  · rw [hsockets, hbacklog]
    exact h.nodup
  · intro other hin
    rw [hsockets] at hin
    by_cases heq : other = sock
    · rw [heq]
      exact hsock
    · obtain ⟨hagrees, hreads, hwrites⟩ := hother other heq
      rw [hreads, hwrites]
      exact hagrees.tracks (h.members other hin)
  · intro other hin
    rw [hbacklog] at hin
    have heq : other ≠ sock := fun heq => h.not_backlog hmem (heq ▸ hin)
    exact (hother other heq).1.waits (h.waiting other hin)
  · intro other hnot
    rw [hsockets] at hnot
    obtain ⟨-, hreads, hwrites⟩ := hother other (hne other hnot)
    rw [hreads, hwrites]
    exact h.others other hnot

theorem keRcv_invariant {type : KeyType} (h : Orderly (act :: work) s)
    (hact : act.reads = some (sock, type))
    (hreads : ∀ other, readsOn other work' = readsOn other work)
    (hwrites : ∀ other, writesTo other work' = writesTo other (act :: work))
    (hrcv : s.keRcv sock type work' = some s') : Invariant s' := by
  have hhead (other : ℕ) : readsOn other [act] = if sock = other then [type] else [] := by
    simp only [readsOn, List.filterMap_cons, List.filterMap_nil, hact, Option.bind_some]
    by_cases heq : sock = other
    · simp only [if_pos heq]
    · simp only [if_neg heq]
  -- the daemon reads from its members only
  have hmem : sock ∈ s.sockets := by
    by_contra hnot
    have hnone := (h.others sock hnot).1
    rw [readsOn_cons, hhead, if_pos rfl] at hnone
    cases hnone
  have htracked := h.members sock hmem
  rw [readsOn_cons, hhead, if_pos rfl, ← hwrites, System.Tracks] at htracked
  rw [System.keRcv] at hrcv
  cases hup : s.up sock with
  | nil =>
    rw [hup] at hrcv
    cases hrcv
  | cons p rest =>
    rw [hup] at hrcv htracked
    -- the invariant names the type of the first frame
    obtain ⟨key, rest', hfirst⟩ := Tracked.first_frame htracked (List.cons_ne_nil p rest)
    obtain ⟨rfl, rfl⟩ := List.cons.inj hfirst
    dsimp only at hrcv
    rw [if_pos rfl] at hrcv
    obtain rfl := Option.some.inj hrcv
    refine invariant_of_orderly rfl (orderly_daemon h hmem rfl rfl ?_ ?_)
    · intro other hne
      rw [hreads, hwrites, readsOn_cons, hhead, if_neg (fun heq => hne heq.symm)]
      exact ⟨⟨rfl, Function.update_of_ne hne _ _, rfl⟩, rfl, rfl⟩
    · simp only [System.Tracks, Function.update_self, hreads]
      exact htracked.read_frame

theorem send_invariant {d : Delivery} (h : Orderly (.send sock d :: work) s) :
    Invariant { s with
      daemon := .running work, down := Function.update s.down sock (s.down sock ++ [d]) } := by
  have hhead (other : ℕ) : writesTo other [.send sock d] = if sock = other then [d] else [] := by
    simp only [writesTo, List.filterMap_cons, List.filterMap_nil]
    by_cases heq : sock = other
    · simp only [if_pos heq]
    · simp only [if_neg heq]
  -- the daemon sends to its members only
  have hmem : sock ∈ s.sockets := by
    by_contra hnot
    have hnone := (h.others sock hnot).2
    rw [writesTo_cons, hhead, if_pos rfl] at hnone
    cases hnone
  have htracked := h.members sock hmem
  rw [writesTo_cons, hhead, if_pos rfl, System.Tracks] at htracked
  refine invariant_of_orderly rfl (orderly_daemon h hmem rfl rfl ?_ ?_)
  · intro other hne
    rw [writesTo_cons, hhead, if_neg (fun heq => hne heq.symm)]
    exact ⟨⟨rfl, rfl, Function.update_of_ne hne _ _⟩, rfl, rfl⟩
  · simp only [System.Tracks, Function.update_self]
    exact htracked.deliver

theorem perform_invariant (h : Orderly (act :: work) s) (hstep : s.perform work act = some s') :
    Invariant s' := by
  cases act with
  | rcvPublic src => exact keRcv_invariant h rfl (fun _ => rfl) (fun _ => rfl) hstep
  | relay src next =>
    have hrcv : s.keRcv src .exIntermediate (.send next .intermediate :: work) = some s' := hstep
    refine keRcv_invariant h rfl ?_ ?_ hrcv
    · intro other
      rfl
    · intro other
      rfl
  | send dst d =>
    obtain rfl := Option.some.inj hstep
    exact send_invariant h

theorem recvClient_invariant (h : Orderly [] s) (hmem : sock ∈ s.sockets)
    (hrecv : s.recvClient sock = some s') : Invariant s' := by
  have htracked := h.members sock hmem
  rw [System.Tracks] at htracked
  rw [System.recvClient] at hrecv
  have hwork (other : ℕ) := sendAll_work other (s.sockets.filter (· ≠ sock)) .forwarded
  cases hup : s.up sock with
  | nil =>
    rw [hup] at hrecv
    cases hrecv
  | cons p rest =>
    rw [hup] at hrecv htracked
    obtain ⟨wire, rest', hfirst⟩ := Tracked.first_cable htracked (List.cons_ne_nil p rest)
    obtain ⟨rfl, rfl⟩ := List.cons.inj hfirst
    obtain rfl := Option.some.inj hrecv
    have hagrees (other : ℕ) (heq : other ≠ sock) : s.Agrees { s with
        daemon := .running (transferMessage s.sockets sock)
        up := Function.update s.up sock rest } other :=
      ⟨rfl, Function.update_of_ne heq _ _, rfl⟩
    refine invariant_of_orderly rfl ⟨h.nodup, ?_, ?_, ?_⟩
    -- the others get the wire, the sender has one cable less
    · intro other hin
      rw [transferMessage, (hwork other).1, (hwork other).2]
      by_cases heq : other = sock
      · subst heq
        simp only [System.Tracks, Function.update_self]
        exact htracked.read_cable.forward _
      · exact (hagrees other heq).tracks (Tracked.forward (h.members other hin) _)
    · intro other hin
      have heq : other ≠ sock := fun heq => h.not_backlog hmem (heq ▸ hin)
      exact (hagrees other heq).waits (h.waiting other hin)
    · intro other hnot
      have hcount : (s.sockets.filter (· ≠ sock)).count other = 0 :=
        List.count_eq_zero.mpr fun hin => hnot (List.mem_of_mem_filter hin)
      rw [transferMessage, (hwork other).1, (hwork other).2, hcount]
      exact ⟨rfl, rfl⟩

theorem nPartyServer_member {sockets : List ℕ} (hnodup : sockets.Nodup) (hlen : 2 ≤ sockets.length)
    (hmem : sock ∈ sockets) :
    readsOn sock (nPartyServer sockets) =
        List.replicate (sockets.length - 1) .exIntermediate ∧
      writesTo sock (nPartyServer sockets) = .ctrl (sockets.length - 1) ::
        List.replicate (sockets.length - 1) .intermediate := by
  obtain ⟨hreads, hwrites⟩ := nPartyServer_work sock hlen
  rw [List.count_eq_one_of_mem hnodup hmem, Nat.mul_one] at hreads hwrites
  exact ⟨hreads, hwrites⟩

theorem nPartyServer_other {sockets : List ℕ} (hnot : sock ∉ sockets) :
    readsOn sock (nPartyServer sockets) = [] ∧ writesTo sock (nPartyServer sockets) = [] := by
  by_cases hlen : 2 ≤ sockets.length
  · obtain ⟨hreads, hwrites⟩ := nPartyServer_work sock hlen
    rw [List.count_eq_zero.mpr hnot, Nat.mul_zero] at hreads hwrites
    exact ⟨hreads, hwrites⟩
  · rw [nPartyServer, if_pos (by omega)]
    exact ⟨rfl, rfl⟩

theorem twoPartyServer_work (sock other : ℕ) :
    readsOn other (twoPartyServer sock) = (if sock = other then [.clientPublic] else []) ∧
      writesTo other (twoPartyServer sock) =
        if sock = other then [.publicKey, .sessionKey] else [] := by
  by_cases heq : sock = other
  · simp [twoPartyServer, readsOn, writesTo, DaemonAct.reads, heq]
  · simp [twoPartyServer, readsOn, writesTo, DaemonAct.reads, heq]

theorem addClient_invariant (h : Orderly [] s) (hback : sock ∈ s.backlog)
    (hcareful : ∀ other ∈ s.sockets, s.NoCable other) : Invariant (s.addClient sock) := by
  have hperm : ((s.sockets ++ [sock]) ++ s.backlog.erase sock).Perm (s.sockets ++ s.backlog) := by
    rw [List.append_assoc, List.singleton_append]
    exact (List.perm_cons_erase hback).symm.append_left s.sockets
  have hnodup := hperm.nodup_iff.mpr h.nodup
  have hsockets : (s.sockets ++ [sock]).Nodup := (List.nodup_append.mp hnodup).1
  have hlen : (s.sockets ++ [sock]).length = s.sockets.length + 1 := List.length_append
  have hnew : sock ∉ s.sockets := fun hin => h.not_backlog hin hback
  refine invariant_of_orderly rfl ⟨hnodup, ?_, ?_, ?_⟩
  · intro other hin
    obtain ⟨hreads, hwrites⟩ := twoPartyServer_work sock other
    rw [readsOn_append, writesTo_append, hreads, hwrites]
    change s.Tracks other _ _
    rcases List.mem_append.mp hin with hmem | hmem
    · -- a client that was there before: it has the exchange only
      have hne : ¬sock = other := fun heq => hnew (heq ▸ hmem)
      have hmany : 2 ≤ (s.sockets ++ [sock]).length := by
        have := List.length_pos_of_mem hmem
        omega
      obtain ⟨hreads', hwrites'⟩ := nPartyServer_member hsockets hmany hin
      rw [if_neg hne, if_neg hne, if_pos (by omega), hreads', hwrites']
      exact Tracked.exchange (h.members other hmem) (by omega) (hcareful other hmem)
    -- the new client: the key agreement of two comes before the exchange
    · have heq : sock = other := (List.mem_singleton.mp hmem).symm
      subst heq
      have hw := h.waiting sock hback
      rw [if_pos rfl, if_pos rfl]
      by_cases hmany : (s.sockets ++ [sock]).length > 1
      · obtain ⟨hreads', hwrites'⟩ := nPartyServer_member hsockets hmany hin
        rw [if_pos hmany, hreads', hwrites']
        exact Tracked.exchange hw.tracked (by omega) hw.noCable
      · rw [if_neg hmany]
        exact hw.tracked
  · intro other hin
    have hagrees : s.Agrees (s.addClient sock) other := ⟨rfl, rfl, rfl⟩
    exact hagrees.waits (h.waiting other (List.mem_of_mem_erase hin))
  · intro other hnot
    have hne : ¬sock = other := by
      intro heq
      exact hnot (List.mem_append_right _ (List.mem_singleton.mpr heq.symm))
    obtain ⟨hreads, hwrites⟩ := twoPartyServer_work sock other
    rw [readsOn_append, writesTo_append, hreads, hwrites, if_neg hne, if_neg hne]
    by_cases hmany : (s.sockets ++ [sock]).length > 1
    · rw [if_pos hmany]
      exact nPartyServer_other hnot
    · rw [if_neg hmany]
      exact ⟨rfl, rfl⟩

theorem disconnectClient_perm {sockets : List ℕ} (hmem : sock ∈ sockets) :
    (disconnectClient sockets sock).Perm (sockets.erase sock) := by
  have hidx : sockets.idxOf sock < sockets.length := List.idxOf_lt_length_iff.mpr hmem
  rw [disconnectClient, ← List.eraseIdx_idxOf_eq_erase]
  generalize sockets.idxOf sock = i at hidx ⊢
  rcases List.eq_nil_or_concat sockets with rfl | ⟨init, last, rfl⟩
  · cases hidx
  rw [List.concat_eq_append, List.getLastD_concat]
  rw [List.concat_eq_append, List.length_append, List.length_singleton] at hidx
  -- the last socket fills the hole, unless it is the one that leaves
  by_cases hi : i < init.length
  · rw [List.set_append_left i last hi, List.dropLast_concat, List.eraseIdx_append_of_lt_length hi]
    exact (List.set_perm_cons_eraseIdx hi last).trans (List.perm_append_singleton last _).symm
  · have heq : i = init.length := by omega
    rw [heq, List.set_append_right init.length last le_rfl, Nat.sub_self, List.set_cons_zero,
      List.dropLast_concat, List.eraseIdx_append_of_length_le le_rfl, Nat.sub_self,
      List.eraseIdx_zero, List.tail_cons, List.append_nil]

theorem daemonHandleDisconnect_invariant (h : Orderly [] s) (hmem : sock ∈ s.sockets)
    (hcareful : Careful s (.hangup sock)) : Invariant (s.daemonHandleDisconnect sock) := by
  have hperm := disconnectClient_perm hmem
  have hsub (other : ℕ) (hin : other ∈ disconnectClient s.sockets sock) : other ∈ s.sockets :=
    List.mem_of_mem_erase (hperm.mem_iff.mp hin)
  obtain ⟨hsockets, hbacklog, hdisjoint⟩ := List.nodup_append.mp h.nodup
  have hleft : (disconnectClient s.sockets sock).Nodup :=
    hperm.nodup_iff.mpr (hsockets.erase sock)
  -- the daemon ends with its last client
  by_cases hnone : (disconnectClient s.sockets sock).length = 0
  · refine invariant_of_stopped (if_pos hnone) ?_
    intro hstop
    cases hstop
  · refine invariant_of_orderly (if_neg hnone) ⟨?_, ?_, ?_, ?_⟩
    · refine List.nodup_append.mpr ⟨hleft, hbacklog, ?_⟩
      intro a ha b hb
      exact hdisjoint a (hsub a ha) b hb
    · intro other hin
      have htracked := h.members other (hsub other hin)
      change s.Tracks other _ _
      -- one client alone has no exchange
      by_cases hmany : 2 ≤ (disconnectClient s.sockets sock).length
      · obtain ⟨hreads, hwrites⟩ := nPartyServer_member hleft hmany hin
        rw [hreads, hwrites]
        exact Tracked.exchange htracked (by omega) (hcareful hmany other hin)
      · rw [nPartyServer, if_pos (by omega)]
        exact htracked
    · intro other hin
      have hagrees : s.Agrees (s.daemonHandleDisconnect sock) other := ⟨rfl, rfl, rfl⟩
      exact hagrees.waits (h.waiting other hin)
    · intro other hnot
      exact nPartyServer_other hnot

theorem connect_invariant (hs : Invariant s) (hfree : sock ∉ s.sockets ++ s.backlog) :
    Invariant (s.connect sock) := by
  have hagrees (other : ℕ) (hne : other ≠ sock) : s.Agrees (s.connect sock) other :=
    ⟨Function.update_of_ne hne _ _, Function.update_of_ne hne _ _, Function.update_of_ne hne _ _⟩
  cases hd : s.daemon with
  | stopped why =>
    rw [Invariant, hd] at hs
    exact invariant_of_stopped hd hs
  | running work =>
    have h := invariant_running hs hd
    refine invariant_of_orderly hd ⟨?_, ?_, ?_, h.others⟩
    -- the socket is at the end of the backlog
    · change (s.sockets ++ (s.backlog ++ [sock])).Nodup
      rw [← List.append_assoc]
      refine List.nodup_append.mpr ⟨h.nodup, List.nodup_singleton sock, ?_⟩
      intro a ha b hb
      rw [List.mem_singleton.mp hb]
      exact fun heq => hfree (heq ▸ ha)
    · intro other hin
      have hne : other ≠ sock := fun heq => hfree (List.mem_append_left _ (heq ▸ hin))
      exact (hagrees other hne).tracks (h.members other hin)
    · intro other hin
      rcases List.mem_append.mp hin with hin | hin
      · have hne : other ≠ sock := fun heq => hfree (List.mem_append_right _ (heq ▸ hin))
        exact (hagrees other hne).waits (h.waiting other hin)
      · rw [List.mem_singleton.mp hin]
        refine ⟨?_, ?_, ?_, ?_, ?_⟩
        · simp only [System.Tracks, System.connect, Function.update_self]
          exact Tracked.start
        · simp only [System.connect, Function.update_self, true_or]
        · simp only [System.connect, Function.update_self]
        · simp only [System.connect, Function.update_self]
        · simp only [System.NoCable, System.connect, Function.update_self]
          intro p hp
          exact absurd hp List.not_mem_nil

end

theorem step_invariant {s s' : System} {a : Action} (hs : Invariant s) (ha : Careful s a)
    (h : s.step a = some s') : Invariant s' := by
  -- the daemon accepts, hangs up and reads only between two activities
  cases a with
  | connect sock =>
    rw [System.step] at h
    by_cases hused : sock ∈ s.sockets ++ s.backlog
    · rw [if_pos hused] at h
      cases h
    · rw [if_neg hused] at h
      obtain rfl := Option.some.inj h
      exact connect_invariant hs hused
  | accept sock =>
    rw [System.step] at h
    by_cases hmay : s.daemon = .running [] ∧ sock ∈ s.backlog
    · rw [if_pos hmay] at h
      obtain rfl := Option.some.inj h
      exact addClient_invariant (invariant_running hs hmay.1) hmay.2 ha
    · rw [if_neg hmay] at h
      cases h
  | hangup sock =>
    rw [System.step] at h
    by_cases hmay : s.daemon = .running [] ∧ sock ∈ s.sockets ∧ !(s.client sock).connected
    · rw [if_pos hmay] at h
      obtain rfl := Option.some.inj h
      exact daemonHandleDisconnect_invariant (invariant_running hs hmay.1) hmay.2.1 ha
    · rw [if_neg hmay] at h
      cases h
  | read sock =>
    rw [System.step] at h
    by_cases hmay : s.daemon = .running [] ∧ sock ∈ s.sockets
    · rw [if_pos hmay] at h
      exact recvClient_invariant (invariant_running hs hmay.1) hmay.2 h
    · rw [if_neg hmay] at h
      cases h
  | work =>
    rw [System.step] at h
    split at h
    next act work hd => exact perform_invariant (invariant_running hs hd) h
    next => cases h
  | fail =>
    rw [System.step] at h
    split at h
    next act work hd =>
      by_cases hconn : (s.client act.sock).connected = true
      · rw [if_pos hconn] at h
        cases h
      · rw [if_neg hconn] at h
        obtain rfl := Option.some.inj h
        refine invariant_of_stopped rfl ?_
        intro hstop
        cases hstop
    next => cases h
  | recvThread sock key wire => exact recvThread_invariant hs ha h
  | sendThread sock wire => exact sendThread_invariant hs ha h
  | quit sock => exact quit_invariant hs h

/-- In every run of careful steps, in any interleaving, the daemon finds a frame
where it calls `ke_rcv` and a cable where it calls `recv_client`. -/
theorem framing_holds (s : System) (hs : Reachable Careful s) : Framed s := by
  refine invariant_framed ?_
  induction hs with
  | initial => exact initial_invariant
  | step _ ha h ih => exact step_invariant ih ha h

/-! ## Two runs -/

instance (s : System) (sock : ℕ) : Decidable (s.NoCable sock) :=
  inferInstanceAs (Decidable (∀ p ∈ s.up sock, p.isFrame = true))

instance (s : System) (sock : ℕ) : Decidable (s.Settled sock) :=
  inferInstanceAs (Decidable ((readsOn sock s.work).length ≤ (frames (s.up sock)).length))

instance (s : System) : (a : Action) → Decidable (Careful s a)
  | .connect _ => inferInstanceAs (Decidable True)
  | .accept _ => inferInstanceAs (Decidable (∀ sock ∈ s.sockets, s.NoCable sock))
  | .hangup sock => inferInstanceAs (Decidable (2 ≤ (disconnectClient s.sockets sock).length →
      ∀ other ∈ disconnectClient s.sockets sock, s.NoCable other))
  | .read _ => inferInstanceAs (Decidable True)
  | .work => inferInstanceAs (Decidable True)
  | .fail => inferInstanceAs (Decidable True)
  | .recvThread sock _ _ => inferInstanceAs (Decidable
      ((s.client sock).script.head? = some .announce → (s.client sock).announced = false →
        s.Settled sock))
  | .sendThread sock _ => inferInstanceAs (Decidable (s.Settled sock))
  | .quit _ => inferInstanceAs (Decidable True)

/-- The state after some steps, if each can be taken and meets the condition. -/
def run (ok : System → Action → Prop) [∀ s a, Decidable (ok s a)] (s : System) :
    List Action → Option System
  | [] => some s
  | a :: as => if ok s a then (s.step a).bind fun s => run ok s as else none

theorem run_reachable {ok : System → Action → Prop} [∀ s a, Decidable (ok s a)] {s s' : System}
    (hs : Reachable ok s) {as : List Action} (h : run ok s as = some s') : Reachable ok s' := by
  induction as generalizing s with
  | nil =>
    obtain rfl := Option.some.inj h
    exact hs
  | cons a as ih =>
    rw [run] at h
    by_cases ha : ok s a
    · rw [if_pos ha] at h
      obtain ⟨t, ht, hrest⟩ := Option.bind_eq_some_iff.mp h
      exact ih (hs.step ha ht) hrest
    · rw [if_neg ha] at h
      cases h

/-- The announcement of a user with a one-letter name, sealed with the zero key. -/
def announcement : List UInt8 :=
  ((initWireFromStatMsg (initStatConnMsg .userConnect (cStr [97]))
    (some (Vector.replicate 16 0))).map
    fun w => (encryptWire w (Vector.replicate 32 0)).bytes).getD []

/-- A step of a receive thread, with the zero key in a frame. -/
def next (sock : ℕ) : Action := .recvThread sock (Vector.replicate 32 0) announcement

/-- Two clients join and the first of them announces itself. -/
def twoJoin : List Action :=
  [.connect 5, next 5, .accept 5, .work, .work, .work, next 5, next 5,
    .connect 6, next 6, .accept 6, .work, .work, .work, .work, .work, next 6, next 6,
    next 5, next 5, next 6, next 6, .work, .work, .work, .work, next 5, next 5]

/-- A third client joins, up to the first `ke_rcv` of the exchange. -/
def thirdJoins : List Action :=
  [.connect 7, next 7, .accept 7, .work, .work, .work, .work, .work, .work]

def thirdWork : List DaemonAct :=
  [.relay 5 6, .relay 6 7, .relay 7 5, .relay 5 6, .relay 6 7, .relay 7 5]

/-- The daemon reads the announcement before the third client joins: the exchange
finds a frame. -/
theorem framing_holds_third_joins :
    ∃ s, Reachable Careful s ∧ s.daemon = .running thirdWork ∧
      ∃ key rest, s.stream 5 = keBytes .exIntermediate key ++ rest := by
  have hrun : (run Careful initial (twoJoin ++ [.read 5, .work] ++ thirdJoins ++
      [next 5, next 5])).map (fun s => (s.daemon, s.up 5)) =
        some (.running thirdWork, [.frame .exIntermediate (Vector.replicate 32 0)]) := by
    rfl
  obtain ⟨s, hs, hstate⟩ := Option.map_eq_some_iff.mp hrun
  obtain ⟨hdaemon, hup⟩ := Prod.mk.inj hstate
  have hreach : Reachable Careful s := run_reachable .initial hs
  refine ⟨s, hreach, hdaemon, ?_⟩
  refine (framing_holds s hreach).frame (.relay 5 6) thirdWork.tail 5 .exIntermediate hdaemon rfl ?_
  rw [System.stream, hup]
  exact List.cons_ne_nil _ _

/-- It accepts the third client first: the exchange takes the announcement for a
frame, and the daemon stops. -/
theorem announcement_meets_exchange :
    ∃ s, Reachable (fun _ _ => True) s ∧ ¬Framed s ∧
      (s.step .work).map System.daemon = some (.stopped .framing) := by
  have hrun : (run (fun _ _ => True) initial (twoJoin ++ thirdJoins)).map
      (fun s => (s.daemon, s.up 5)) = some (.running thirdWork, [.cable announcement]) := by
    rfl
  obtain ⟨s, hs, hstate⟩ := Option.map_eq_some_iff.mp hrun
  obtain ⟨hdaemon, hup⟩ := Prod.mk.inj hstate
  have hstream : s.stream 5 = (initCable announcement).bytes := by
    rw [System.stream, hup]
    exact List.append_nil _
  refine ⟨s, run_reachable .initial hs, ?_, ?_⟩
  · intro hframed
    obtain ⟨key, rest, hkey⟩ := hframed.frame (.relay 5 6) thirdWork.tail 5 .exIntermediate hdaemon
      rfl (by rw [hstream]; exact List.cons_ne_nil _ _)
    rw [hstream] at hkey
    have hfirst : cableSignature[0] = KeyType.exIntermediate.code := (List.cons.inj hkey).1
    exact absurd hfirst (by decide)
  · rw [System.step, hdaemon]
    dsimp only [thirdWork]
    rw [System.perform, System.keRcv, hup]
    rfl

end Parcel.Framing
