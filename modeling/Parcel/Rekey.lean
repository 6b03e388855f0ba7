import Parcel.CipherColumns
import Parcel.Client
import Parcel.FramingRuns
import Parcel.X25519Agreement

/-!
# Texts and re-keys

Daemon and clients together with what the cables carry and the keys that the
clients hold. The send thread of a client copies the keys in `client_get_keys` and
encrypts and sends later; in between the receive thread may run an exchange and
replace them in `client_set_keys`. The steps are those of the system, with their
effect on contents and keys. The exchanges that the daemon begins are counted, keys
carry the number of the exchange they come from, and the cables that the send
threads sent are recorded: the code has none of these three, and no step depends on
them.
-/

namespace Parcel.Rekey
open ByteStrings Aes Framing

/-- The struct `keys_t` of a new client. -/
def zeroKeys : Keys := ⟨Vector.replicate 32 0, Vector.replicate 32 0⟩

/-- The keys that an exchange ends with: the one in its control cable, and the
session key that each client derives. -/
structure Exchange where
  renewedKey : Key
  session : ℕ → Key

def Exchange.keys (ex : Exchange) (sock : ℕ) : Keys := ⟨ex.session sock, ex.renewedKey⟩

def noExchange : Exchange := ⟨Vector.replicate 32 0, fun _ => Vector.replicate 32 0⟩

/-- The exchange between the clients on some sockets: each derives the digest of what
the last round brings it. -/
@[irreducible] def groupExchange (sockets : List ℕ) (rnd : ℕ → Key) (renewedKey : Key) :
    Exchange where
  renewedKey := renewedKey
  session sock := sha256KeyDigest (intermediate X25519.x25519 sockets.length rnd
    (sockets.length - 1) (sockets.idxOf sock + 1))

/-- Keys with the number of the exchange that they come from. -/
structure IssuedKeys extends Keys where
  exchange : ℕ

/-- What the daemon sends to a client, with the contents that matter for its keys.
For a control cable these are the keys that the exchange ends with at this client. -/
inductive Content
  | publicKey
  | sessionKey (key : Key)
  | ctrl (rounds : ℕ) (keys : IssuedKeys)
  | intermediate
  | forwarded (wire : List UInt8)

def Content.kind : Content → Delivery
  | .publicKey => .publicKey
  | .sessionKey _ => .sessionKey
  | .ctrl rounds _ => .ctrl rounds
  | .intermediate => .intermediate
  | .forwarded _ => .forwarded

/-- The keys of a client, those that the exchange it is in ends with, the copy that
its send thread has in `transmit_wire`, and what is on the way to it. -/
structure Holding where
  keys : IssuedKeys
  renewed : IssuedKeys
  snapshot : Option IssuedKeys
  queue : List Content

namespace Holding

def fresh : Holding := ⟨⟨zeroKeys, 0⟩, ⟨zeroKeys, 0⟩, none, []⟩

/-- The keys after `two_party_client` or `n_party_client` received something. -/
def keep (h : Holding) : Content → IssuedKeys
  | .sessionKey key => { h.keys with ctrl := key }
  | _ => h.keys

/-- A step of the receive thread. The end of `proc_ctrl` calls `client_set_keys`
before the announcement. -/
def receive (h : Holding) : List ClientAct → Holding
  | .send _ :: _ => h
  | .announce :: _ => { h with keys := h.renewed }
  | .recv d :: _ =>
    match h.queue with
    | [] => h
    | c :: queue => if c.kind = d then { h with keys := h.keep c, queue := queue } else h
  | [] =>
    match h.queue with
    | .ctrl _ keys :: queue => { h with renewed := keys, queue := queue }
    | .forwarded _ :: queue => { h with queue := queue }
    | _ => h

end Holding

/-! ## The system with contents -/

/-- A wire that `init_wire` has built; its cable fits in memory. -/
structure BuiltWire where
  wire : Wire
  built : ∃ (type : WireType) (payload : List UInt8) (iv : Block),
    64 + 14 + ceil16 payload.length < 2 ^ 64 ∧ initWire type payload (some iv) = some wire

/-- A cable that a send thread has sent: its wire, and the number of the exchange that
the copied keys come from. -/
structure Sending where
  sock : ℕ
  wire : List UInt8
  exchange : ℕ

/-- The system, the exchanges that the daemon has begun, the last one under the number
`began`, its `server_key`, the wire that it forwards, the clients, and what their send
threads have sent. -/
structure Room where
  sys : System
  began : ℕ
  exchanges : ℕ → Exchange
  serverKey : Key
  message : List UInt8
  held : ℕ → Holding
  sent : List Sending

/-- A step. A change in the number of clients brings what the random sources give in the
exchange that it may lead to, and a receive thread may send a frame or its announcement. -/
inductive RoomAction
  | connect (sock : ℕ)
  | accept (sock : ℕ) (rnd : ℕ → Key) (renewedKey : Key)
  | hangup (sock : ℕ) (rnd : ℕ → Key) (renewedKey : Key)
  | read (sock : ℕ)
  | work
  | fail
  | recvThread (sock : ℕ) (key : Key) (stat : Wire)
  | clientGetKeys (sock : ℕ)
  | transmitWire (sock : ℕ) (wire : BuiltWire)
  | quit (sock : ℕ)

namespace Room

def init (serverKey : Key) : Room :=
  ⟨initial, 0, fun _ => noExchange, serverKey, [], fun _ => .fresh, []⟩

variable (r : Room)

def exchange : Exchange := r.exchanges r.began

def setHeld (sock : ℕ) (h : Holding) : Room := { r with held := Function.update r.held sock h }

/-- The daemon turns to the sockets in `s`; between fewer than two there is no exchange. -/
def rekey (rnd : ℕ → Key) (renewedKey : Key) (s : System) : Room :=
  { r with
    sys := s
    began := if 2 ≤ s.sockets.length then r.began + 1 else r.began
    exchanges :=
      if 2 ≤ s.sockets.length then
        Function.update r.exchanges (r.began + 1) (groupExchange s.sockets rnd renewedKey)
      else r.exchanges }

def content (sock : ℕ) : Delivery → Content
  | .publicKey => .publicKey
  | .sessionKey => .sessionKey r.serverKey
  | .ctrl rounds => .ctrl rounds ⟨r.exchange.keys sock, r.began⟩
  | .intermediate => .intermediate
  | .forwarded => .forwarded r.message

/-- The daemon's key, which is replaced when the control cables go out. -/
def keyAfter : Delivery → Key
  | .ctrl _ => r.exchange.renewedKey
  | _ => r.serverKey

def deliver (sock : ℕ) (d : Delivery) : Room :=
  { r.setHeld sock { r.held sock with queue := (r.held sock).queue ++ [r.content sock d] } with
    serverKey := r.keyAfter d }

/-- The contents that go with the next step of the daemon's activity. -/
def perform : Room :=
  match r.sys.work with
  | .send sock d :: _ => r.deliver sock d
  | _ => r

/-- The wire of the first cable on the way from a client. -/
def incoming (sock : ℕ) : Option (List UInt8) :=
  match r.sys.up sock with
  | .cable wire :: _ => some wire
  | _ => none

def step : RoomAction → Option Room
  | .connect sock =>
    (r.sys.step (.connect sock)).map fun s => { r.setHeld sock .fresh with sys := s }
  | .accept sock rnd renewedKey => (r.sys.step (.accept sock)).map (r.rekey rnd renewedKey)
  | .hangup sock rnd renewedKey => (r.sys.step (.hangup sock)).map (r.rekey rnd renewedKey)
  | .read sock =>
    (r.sys.step (.read sock)).map fun s =>
      { r with sys := s, message := (r.incoming sock).getD r.message }
  | .work => (r.sys.step .work).map fun s => { r.perform with sys := s }
  | .fail => (r.sys.step .fail).map fun s => { r with sys := s }
  | .recvThread sock key stat =>
    -- the announcement goes out under the keys that have just been set
    let wire := (encryptWire stat (r.held sock).renewed.session).bytes
    (r.sys.step (.recvThread sock key wire)).map fun s =>
      { r.setHeld sock ((r.held sock).receive (r.sys.client sock).script) with sys := s }
  | .clientGetKeys sock =>
    if (r.sys.client sock).connected ∧ (r.sys.client sock).announced then
      some (r.setHeld sock { r.held sock with snapshot := some (r.held sock).keys })
    else none
  | .transmitWire sock w =>
    (r.held sock).snapshot.bind fun keys =>
      let wire := (encryptWire w.wire keys.session).bytes
      (r.sys.step (.sendThread sock wire)).map fun s =>
        { r.setHeld sock { r.held sock with snapshot := none } with
          sys := s
          sent := ⟨sock, wire, keys.exchange⟩ :: r.sent }
  | .quit sock => (r.sys.step (.quit sock)).map fun s => { r with sys := s }

/-- The states that are reached by steps which meet a condition. -/
inductive Reachable (ok : Room → RoomAction → Prop) (serverKey : Key) : Room → Prop
  | init : Reachable ok serverKey (init serverKey)
  | step {r r' : Room} {a : RoomAction} (hr : Reachable ok serverKey r) (ha : ok r a)
      (h : r.step a = some r') : Reachable ok serverKey r'

end Room

/-- The wire of a text that was encrypted with a key; its cable fits in memory. -/
def SealedText (key : Key) (wire : List UInt8) : Prop :=
  ∃ (user t : List UInt8) (iv : Block) (w : Wire),
    64 + 14 + ceil16 (73 + t.length) < 2 ^ 64 ∧
      initWireFromTextMsg (textMsgFromText user t) (some iv) = some w ∧
      wire = (encryptWire w key).bytes

/-- A wire that was encrypted with a key; its cable fits in memory. -/
def SealedWire (key : Key) (wire : List UInt8) : Prop :=
  ∃ w : BuiltWire, wire = (encryptWire w.wire key).bytes

def Opens (key : Key) (wire : List UInt8) : Prop :=
  (∃ sender, SealedText sender wire) → SealedWire key wire

/-- The receive thread of a client is about to process the wire of a cable. -/
def Room.Processes (r : Room) (sock : ℕ) (wire : List UInt8) : Prop :=
  (r.sys.client sock).connected = true ∧ (r.sys.client sock).script = [] ∧
    (r.held sock).queue.head? = some (.forwarded wire)

/-- The client as `decrypt_cabled_wire` finds it. -/
def Room.clientState (r : Room) (sock : ℕ) : ClientState :=
  ⟨(r.held sock).keys.toKeys, (r.sys.client sock).announced⟩

/-- The function `decrypt_wire` accepts the wire of a cable, and with the session key. -/
def Room.Accepts (r : Room) (sock : ℕ) (wire : List UInt8) : Prop :=
  verifyingKey (r.held sock).keys.toKeys (initCable wire) = some (r.held sock).keys.session ∧
    (decryptCabledWire (r.clientState sock) (initCable wire)).isSome = true

/-- When the daemon reads a text that another client is there to receive, the send thread
copied the keys of the last exchange that the daemon has begun: the client had set them
before `client_get_keys`, and no exchange has begun since. -/
def Scheduled (r : Room) : RoomAction → Prop
  | .read sock => ∀ wire, r.incoming sock = some wire → (∃ sender, SealedText sender wire) →
      (∃ other ∈ r.sys.sockets, other ≠ sock) → ⟨sock, wire, r.began⟩ ∈ r.sent
  | _ => True

/-- Text that the daemon reads was encrypted with the session key that the last
exchange it has begun gives to the others. -/
def Timely (r : Room) : RoomAction → Prop
  | .read sock => ∀ wire, r.incoming sock = some wire → ∀ other ∈ r.sys.sockets, other ≠ sock →
      Opens (r.exchange.session other) wire
  | _ => True

theorem textMsg_fits {user t : List UInt8} (hfit : 64 + 14 + ceil16 (73 + t.length) < 2 ^ 64) :
    64 + 14 + ceil16 ((textMsgFromText user t).bytes.take
      (textMsgFromText user t).getWireLength).length < 2 ^ 64 := by
  have hbytes : (textMsgFromText user t).bytes.length = 73 + t.length := by
    rw [Msg.bytes_length, textMsgFromText, setUser_data, Msg.setData, List.length_append,
      List.length_drop, Msg.init, List.length_replicate, Nat.sub_self]
    rfl
  have hle := List.length_take_le' (textMsgFromText user t).getWireLength
    (textMsgFromText user t).bytes
  rw [hbytes] at hle
  unfold ceil16 at hfit ⊢
  omega

theorem SealedText.sealedWire {key : Key} {wire : List UInt8} (h : SealedText key wire) :
    SealedWire key wire := by
  obtain ⟨user, t, iv, w, hfit, hw, rfl⟩ := h
  exact ⟨⟨w, .text, _, iv, textMsg_fits hfit, hw⟩, rfl⟩

theorem SealedWire.opened {key : Key} {wire : List UInt8} (h : SealedWire key wire)
    (ctrl : Option Key) :
    cabledWire (initCable wire) = Wire.ofBytes wire ∧
      selectedKey (Wire.ofBytes wire) key ctrl = some key ∧
      ∃ w, openCable (initCable wire) key ctrl = (true, w) := by
  obtain ⟨⟨w, type, payload, iv, hfit, hw⟩, rfl⟩ := h
  obtain ⟨v, hv, hdata, hdec⟩ := initWire_decoded type iv hfit
  obtain rfl : v = w := Option.some.inj (hv.symm.trans hw)
  have hselected := selectedKey_first (encryptWire_verifies v key) ctrl
  obtain ⟨hcable, w', hopen, -⟩ := openCable_initCable hfit hdec hdata hselected
  refine ⟨?_, ?_, w', hopen⟩
  · rw [cabledWire, hcable]
  · rw [Wire.ofBytes_bytes, hselected]

theorem SealedWire.accepted {wire : List UInt8} {r : Room} {sock : ℕ}
    (h : SealedWire (r.held sock).keys.session wire) : r.Accepts sock wire := by
  obtain ⟨hcable, hselected, w, hopen⟩ := h.opened (some (r.held sock).keys.ctrl)
  constructor
  · rw [verifyingKey, hcable, hselected]
  · rw [decryptCabledWire, Room.clientState, hopen, if_pos rfl, Option.isSome_some]

/-- The session key after a delivery, given the one before. -/
def Content.session (key : Key) : Content → Key
  | .ctrl _ keys => keys.session
  | _ => key

def sessionAfter (key : Key) (queue : List Content) : Key := queue.foldl Content.session key

/-- Every text on the way can be opened when its turn comes. -/
def Readable : Key → List Content → Prop
  | _, [] => True
  | key, c :: queue =>
    (∀ wire, c = .forwarded wire → Opens key wire) ∧ Readable (c.session key) queue

theorem readable_append {key : Key} {queue : List Content} {c : Content}
    (h : Readable key queue)
    (hc : ∀ wire, c = .forwarded wire → Opens (sessionAfter key queue) wire) :
    Readable key (queue ++ [c]) := by
  induction queue generalizing key with
  | nil => exact ⟨hc, trivial⟩
  | cons d queue ih => exact ⟨h.1, ih h.2 hc⟩

theorem sessionAfter_append (key : Key) (queue : List Content) (c : Content) :
    sessionAfter key (queue ++ [c]) = c.session (sessionAfter key queue) := by
  rw [sessionAfter, List.foldl_append]
  rfl

/-- A script sets keys at most once, and in the middle of it no cable is awaited
that changes the session key or is forwarded. -/
def Regular (script : List ClientAct) : Prop :=
  script.count .announce ≤ 1 ∧
    ∀ d, .recv d ∈ script → d ∈ [Delivery.publicKey, .sessionKey, .intermediate]

theorem Regular.tail {act : ClientAct} {script : List ClientAct} (h : Regular (act :: script)) :
    Regular script :=
  ⟨List.count_le_count_cons.trans h.1, fun d hd => h.2 d (List.mem_cons_of_mem act hd)⟩

theorem Regular.after_announce {script : List ClientAct} (h : Regular (.announce :: script)) :
    ClientAct.announce ∉ script := by
  have hcount := h.1
  rw [List.count_cons_self] at hcount
  exact List.count_eq_zero.mp (by omega)

theorem regular_twoPartyClient : Regular Framing.twoPartyClient := by
  refine ⟨by decide, ?_⟩
  intro d hd
  simp [Framing.twoPartyClient] at hd
  rcases hd with rfl | rfl <;> simp

theorem mem_clientLoop {rounds : ℕ} {act : ClientAct} (h : act ∈ clientLoop rounds) :
    act = .recv .intermediate ∨ act = .send .exIntermediate := by
  induction rounds with
  | zero => cases h
  | succ rounds ih =>
    rw [clientLoop] at h
    rcases List.mem_cons.mp h with rfl | h
    · exact Or.inl rfl
    · split at h
      · cases h
      · rcases List.mem_cons.mp h with rfl | h
        · exact Or.inr rfl
        · exact ih h

theorem regular_procCtrl (rounds : ℕ) : Regular (Framing.procCtrl rounds) := by
  have hmem {act : ClientAct} (h : act ∈ Framing.nPartyClient rounds) :
      act = .recv .intermediate ∨ act = .send .exIntermediate := by
    rcases List.mem_cons.mp h with rfl | h
    · exact Or.inr rfl
    · exact mem_clientLoop h
  constructor
  · rw [Framing.procCtrl, List.count_append, List.count_eq_zero.mpr]
    · decide
    · intro h
      rcases hmem h with h | h <;> cases h
  · intro d hd
    rcases List.mem_append.mp hd with hd | hd
    · rcases hmem hd with h | h
      · cases h
        decide
      · cases h
    · cases List.mem_singleton.mp hd

/-! ## One client -/

/-- The session key that the client holds when it next waits for a cable. -/
def Holding.session (h : Holding) (script : List ClientAct) : Key :=
  if .announce ∈ script then h.renewed.session else h.keys.session

/-- The session key that the client holds after all that is on the way. -/
def Holding.last (h : Holding) (script : List ClientAct) : Key :=
  sessionAfter (h.session script) h.queue

/-- The client's script is regular, its queue has the contents of what the system
has on the way, and it will be able to read it. -/
structure Tuned (h : Holding) (script : List ClientAct) (down : List Delivery) : Prop where
  regular : Regular script
  kinds : down = h.queue.map Content.kind
  readable : Readable (h.session script) h.queue

theorem Tuned.fresh : Tuned .fresh Framing.twoPartyClient [] :=
  ⟨regular_twoPartyClient, rfl, trivial⟩

theorem Tuned.deliver {h : Holding} {script : List ClientAct} {down : List Delivery} {c : Content}
    (ht : Tuned h script down) (hc : ∀ wire, c = .forwarded wire → Opens (h.last script) wire) :
    Tuned { h with queue := h.queue ++ [c] } script (down ++ [c.kind]) := by
  refine ⟨ht.regular, ?_, readable_append ht.readable hc⟩
  rw [ht.kinds, List.map_append]
  rfl

/-- What a step of the receive thread keeps: the client can read all that is on the
way, and ends with the same session key. -/
def Kept (h h' : Holding) (script script' : List ClientAct) (down : List Delivery) : Prop :=
  Tuned h' script' down ∧ h'.last script' = h.last script

section

variable {h h' : Holding} {script script' : List ClientAct} {down : List Delivery} {c : Content}

theorem Tuned.take (ht : Tuned h script down) (hregular : Regular script')
    (hqueue : h.queue = c :: h'.queue)
    (hsession : h'.session script' = c.session (h.session script)) :
    Kept h h' script script' (h'.queue.map Content.kind) := by
  have hread := ht.readable
  rw [hqueue] at hread
  refine ⟨⟨hregular, rfl, ?_⟩, ?_⟩
  · rw [hsession]
    exact hread.2
  · rw [Holding.last, Holding.last, hqueue, hsession]
    rfl

theorem Tuned.pass (ht : Tuned h script down) (hregular : Regular script')
    (hqueue : h'.queue = h.queue) (hsession : h'.session script' = h.session script) :
    Kept h h' script script' down := by
  refine ⟨⟨hregular, ?_, ?_⟩, ?_⟩
  · rw [hqueue, ht.kinds]
  · rw [hqueue, hsession]
    exact ht.readable
  · rw [Holding.last, Holding.last, hqueue, hsession]

theorem session_tail {act : ClientAct} (hact : act ≠ .announce)
    (hkeys : h'.keys.session = h.keys.session) (hrenewed : h'.renewed = h.renewed) :
    h'.session script = h.session (act :: script) := by
  have hmem : ClientAct.announce ∈ act :: script ↔ ClientAct.announce ∈ script := by
    rw [List.mem_cons]
    exact or_iff_right (fun heq => hact heq.symm)
  simp only [Holding.session, hmem, hkeys, hrenewed]

theorem Tuned.recv (ht : Tuned h (.recv c.kind :: script) down) {queue : List Content}
    (hqueue : h.queue = c :: queue) :
    Kept h { h with keys := h.keep c, queue := queue } (.recv c.kind :: script) script
      (queue.map Content.kind) := by
  have hkind := ht.regular.2 c.kind List.mem_cons_self
  have hkept : (h.keep c).session = h.keys.session ∧ ∀ key, c.session key = key := by
    cases c with
    | publicKey => exact ⟨rfl, fun _ => rfl⟩
    | sessionKey key => exact ⟨rfl, fun _ => rfl⟩
    | intermediate => exact ⟨rfl, fun _ => rfl⟩
    | ctrl rounds keys => simp [Content.kind] at hkind
    | forwarded wire => simp [Content.kind] at hkind
  apply ht.take ht.regular.tail hqueue
  rw [hkept.2]
  exact session_tail (by simp) hkept.1 rfl

theorem Tuned.announce (ht : Tuned h (.announce :: script) down) :
    Kept h { h with keys := h.renewed } (.announce :: script) script down := by
  apply ht.pass ht.regular.tail
  · rfl
  · rw [Holding.session, Holding.session, if_neg ht.regular.after_announce,
      if_pos List.mem_cons_self]

theorem Tuned.control (ht : Tuned h [] down) {rounds : ℕ} {keys : IssuedKeys} {queue : List Content}
    (hqueue : h.queue = .ctrl rounds keys :: queue) :
    Kept h { h with renewed := keys, queue := queue } [] (Framing.procCtrl rounds)
      (queue.map Content.kind) := by
  apply ht.take (regular_procCtrl rounds) hqueue
  rw [Holding.session, if_pos]
  · rfl
  · exact List.mem_append_right _ (List.mem_singleton_self _)

theorem Tuned.forwarded (ht : Tuned h [] down) {wire : List UInt8} {queue : List Content}
    (hqueue : h.queue = .forwarded wire :: queue) :
    Kept h { h with queue := queue } [] [] (queue.map Content.kind) :=
  ht.take ht.regular hqueue rfl

end

theorem recvThread_kept {s s' : System} {sock : ℕ} {key : Key} {wire : List UInt8} {h : Holding}
    (hstep : s.recvThread sock key wire = some s')
    (ht : Tuned h (s.client sock).script (s.down sock)) :
    Kept h (h.receive (s.client sock).script) (s.client sock).script (s'.client sock).script
      (s'.down sock) := by
  have hlost : (s.lose sock).down sock = s.down sock ∧
      ((s.lose sock).client sock).script = (s.client sock).script := by
    simp only [System.lose, System.setClient, Function.update_self, and_self]
  rcases hc : s.client sock with ⟨script, announced, connected⟩
  rw [hc] at ht hlost
  dsimp only at ht hlost ⊢
  have hdown := ht.kinds
  rw [System.recvThread, hc] at hstep
  -- the ways out at which the thread ends leave the keys and the queue as they are
  have hlose (hsame : h.receive script = h) (hs : s.lose sock = s') :
      Kept h (h.receive script) script (s'.client sock).script (s'.down sock) := by
    rw [hsame, ← hs, hlost.1, hlost.2]
    exact ht.pass ht.regular rfl rfl
  -- a handshake that is under way names the next act; without one the next cable decides
  cases script with
  | cons act script =>
    cases act with
    | send type =>
      obtain rfl := Option.some.inj hstep
      simp only [System.put, System.setClient, Function.update_self]
      exact ht.pass ht.regular.tail rfl (session_tail (by simp) rfl rfl)
    | announce =>
      dsimp only at hstep
      -- only the first handshake sends the announcement
      split at hstep
      · obtain rfl := Option.some.inj hstep
        simp only [System.setClient, Function.update_self]
        exact ht.announce
      · obtain rfl := Option.some.inj hstep
        simp only [System.put, System.setClient, Function.update_self]
        exact ht.announce
    | recv d =>
      cases hqueue : h.queue with
      | nil =>
        rw [hqueue, List.map_nil] at hdown
        rw [hdown] at hstep
        cases hstep
      | cons c queue =>
        rw [hqueue, List.map_cons] at hdown
        rw [hdown] at hstep
        dsimp only at hstep
        -- a frame of another type than the one expected ends the thread
        by_cases heq : c.kind = d
        · rw [if_pos heq] at hstep
          obtain rfl := Option.some.inj hstep
          subst heq
          simp only [System.setDown, System.setClient, Function.update_self, Holding.receive,
            hqueue, if_true]
          exact ht.recv hqueue
        · rw [if_neg heq] at hstep
          refine hlose ?_ (Option.some.inj hstep)
          simp only [Holding.receive, hqueue, if_neg heq]
  | nil =>
    cases hqueue : h.queue with
    | nil =>
      rw [hqueue, List.map_nil] at hdown
      rw [hdown] at hstep
      cases hstep
    | cons c queue =>
      rw [hqueue, List.map_cons] at hdown
      rw [hdown] at hstep
      cases c with
      | ctrl rounds keys =>
        obtain rfl := Option.some.inj hstep
        simp only [System.setDown, System.setClient, Function.update_self, Holding.receive, hqueue]
        exact ht.control hqueue
      | forwarded wire =>
        obtain rfl := Option.some.inj hstep
        simp only [System.setDown, Function.update_self, Holding.receive, hqueue, hc]
        exact ht.forwarded hqueue
      | publicKey => exact hlose (by simp only [Holding.receive, hqueue]) (Option.some.inj hstep)
      | sessionKey key =>
        exact hlose (by simp only [Holding.receive, hqueue]) (Option.some.inj hstep)
      | intermediate =>
        exact hlose (by simp only [Holding.receive, hqueue]) (Option.some.inj hstep)

/-- The session key that a client holds after all that is on the way to it. -/
def Room.last (r : Room) (sock : ℕ) : Key := (r.held sock).last (r.sys.client sock).script

/-- The daemon at an activity. While two or more clients are there, each has its last
exchange on the way or still to be sent, and what is forwarded can be opened after it. -/
structure Serving (r : Room) (work : List DaemonAct) : Prop where
  renewed : 2 ≤ r.sys.sockets.length → ∀ sock ∈ r.sys.sockets,
    (∃ rounds, .send sock (.ctrl rounds) ∈ work) ∨ r.last sock = r.exchange.session sock
  forwards : ∀ sock, .send sock .forwarded ∈ work → sock ∈ r.sys.sockets ∧
    2 ≤ r.sys.sockets.length ∧ Opens (r.exchange.session sock) r.message
  apart : ∀ sock sock' rounds, .send sock .forwarded ∈ work → .send sock' (.ctrl rounds) ∉ work

structure Invariant (r : Room) : Prop where
  clients : ∀ sock, Tuned (r.held sock) (r.sys.client sock).script (r.sys.down sock)
  daemon : ∀ work, r.sys.daemon = .running work → Serving r work

section

variable {r r' : Room} {work work' : List DaemonAct}

/-- What the daemon's activity depends on has not changed, and no cable has been added
to it or taken from it. -/
theorem Serving.frame (h : Serving r work) (hsockets : r'.sys.sockets = r.sys.sockets)
    (hexchange : r'.exchange = r.exchange) (hmessage : r'.message = r.message)
    (hlast : ∀ sock ∈ r.sys.sockets, r'.last sock = r.last sock)
    (hctrl : ∀ sock rounds, .send sock (.ctrl rounds) ∈ work' ↔ .send sock (.ctrl rounds) ∈ work)
    (hforwarded : ∀ sock, .send sock .forwarded ∈ work' → .send sock .forwarded ∈ work) :
    Serving r' work' := by
  constructor
  · intro hmany sock hsock
    rw [hsockets] at hmany hsock
    rw [hlast sock hsock, hexchange]
    simp only [hctrl]
    exact h.renewed hmany sock hsock
  · intro sock hsock
    rw [hsockets, hexchange, hmessage]
    exact h.forwards sock (hforwarded sock hsock)
  · intro sock sock' rounds hsock
    rw [hctrl]
    exact h.apart sock sock' rounds (hforwarded sock hsock)

/-- The daemon begins an activity that forwards nothing, with an exchange when two or
more clients are there. -/
theorem Serving.begin (hctrl : 2 ≤ r.sys.sockets.length → ∀ sock ∈ r.sys.sockets,
      ∃ rounds, .send sock (.ctrl rounds) ∈ work)
    (hforwarded : ∀ sock, .send sock .forwarded ∉ work) : Serving r work := by
  refine ⟨fun hmany sock hsock => Or.inl (hctrl hmany sock hsock), ?_, ?_⟩
  · intro sock hsock
    exact absurd hsock (hforwarded sock)
  · intro sock _ _ hsock
    exact absurd hsock (hforwarded sock)

theorem nPartyServer_ctrl {sockets : List ℕ} {sock : ℕ} (hmany : 2 ≤ sockets.length)
    (hsock : sock ∈ sockets) :
    .send sock (.ctrl (sockets.length - 1)) ∈ Framing.nPartyServer sockets := by
  rw [Framing.nPartyServer, if_neg (by omega)]
  apply List.mem_append_left
  exact List.mem_map.mpr ⟨sock, hsock, rfl⟩

theorem nPartyServer_forwarded (sockets : List ℕ) (sock : ℕ) :
    .send sock .forwarded ∉ Framing.nPartyServer sockets := by
  have hwrites : Delivery.forwarded ∉ writesTo sock (Framing.nPartyServer sockets) := by
    by_cases hmany : 2 ≤ sockets.length
    · rw [(nPartyServer_work sock hmany).2]
      simp [List.mem_replicate]
    · rw [Framing.nPartyServer, if_pos (by omega)]
      exact List.not_mem_nil
  intro hmem
  apply hwrites
  exact List.mem_filterMap.mpr ⟨_, hmem, if_pos rfl⟩

/-! ## Steps -/

theorem Invariant.client (hr : Invariant r) (sock : ℕ)
    (hdaemon : ∀ work, r'.sys.daemon = .running work → r.sys.daemon = .running work)
    (hsockets : r'.sys.sockets = r.sys.sockets) (hexchange : r'.exchange = r.exchange)
    (hmessage : r'.message = r.message)
    (hother : ∀ other, other ≠ sock → r'.held other = r.held other ∧
      r'.sys.client other = r.sys.client other ∧ r'.sys.down other = r.sys.down other)
    (htuned : Tuned (r'.held sock) (r'.sys.client sock).script (r'.sys.down sock))
    (hlast : sock ∈ r.sys.sockets → r'.last sock = r.last sock) : Invariant r' := by
  constructor
  · intro other
    by_cases heq : other = sock
    · rw [heq]
      exact htuned
    · obtain ⟨hheld, hclient, hdown⟩ := hother other heq
      rw [hheld, hclient, hdown]
      exact hr.clients other
  · intro work hwork
    apply (hr.daemon work (hdaemon work hwork)).frame hsockets hexchange hmessage
    · intro other hmem
      by_cases heq : other = sock
      · rw [heq] at hmem ⊢
        exact hlast hmem
      · obtain ⟨hheld, hclient, -⟩ := hother other heq
        rw [Room.last, Room.last, hheld, hclient]
    · exact fun _ _ => Iff.rfl
    · exact fun _ hmem => hmem

theorem connect_invariant {sock : ℕ} (hr : Invariant r) (hfree : sock ∉ r.sys.sockets) :
    Invariant { r.setHeld sock .fresh with sys := r.sys.connect sock } := by
  refine hr.client sock (fun _ h => h) rfl rfl rfl ?_ ?_ (fun hmem => absurd hmem hfree)
  · intro other hne
    exact ⟨Function.update_of_ne hne _ _, Function.update_of_ne hne _ _,
      Function.update_of_ne hne _ _⟩
  · simp only [Room.setHeld, System.connect, Function.update_self]
    exact .fresh

theorem recvThread_invariant {sock : ℕ} {key : Key} {wire : List UInt8} {s : System}
    (hr : Invariant r) (h : r.sys.recvThread sock key wire = some s) :
    Invariant { r.setHeld sock ((r.held sock).receive (r.sys.client sock).script) with
      sys := s } := by
  have hkept := recvThread_kept h (hr.clients sock)
  obtain ⟨c, up, down, -, rfl⟩ := recvThread_cases h
  refine hr.client sock (fun _ h => h) rfl rfl rfl ?_ ?_ ?_
  · intro other hne
    exact ⟨Function.update_of_ne hne _ _, Function.update_of_ne hne _ _,
      Function.update_of_ne hne _ _⟩
  · simp only [Room.setHeld, Function.update_self]
    exact hkept.1
  · intro _
    simp only [Room.last, Room.setHeld, Function.update_self]
    exact hkept.2

/-- The send thread takes its copy of the keys, or is done with it: the receive thread
does not see this. -/
theorem snapshot_invariant {sock : ℕ} {s : System} (hr : Invariant r)
    (snapshot : Option IssuedKeys) (sent : List Sending)
    (hs : s.daemon = r.sys.daemon ∧ s.sockets = r.sys.sockets ∧ s.client = r.sys.client ∧
      s.down = r.sys.down) :
    Invariant { r.setHeld sock { r.held sock with snapshot := snapshot } with
      sys := s, sent := sent } := by
  obtain ⟨hdaemon, hsockets, hclient, hdown⟩ := hs
  refine hr.client sock ?_ hsockets rfl rfl ?_ ?_ ?_
  · intro work hwork
    exact hdaemon.symm.trans hwork
  · intro other hne
    exact ⟨Function.update_of_ne hne _ _, congrFun hclient other, congrFun hdown other⟩
  · have ht := hr.clients sock
    simp only [Room.setHeld, Function.update_self, hclient, hdown]
    exact ⟨ht.regular, ht.kinds, ht.readable⟩
  · intro _
    simp only [Room.last, Room.setHeld, Function.update_self, hclient]
    rfl

theorem quit_invariant {sock : ℕ} (hr : Invariant r) :
    Invariant { r with sys := r.sys.lose sock } := by
  have hscript : ((r.sys.lose sock).client sock).script = (r.sys.client sock).script := by
    simp only [System.lose, System.setClient, Function.update_self]
  refine hr.client sock (fun _ h => h) rfl rfl rfl ?_ ?_ ?_
  · intro other hne
    exact ⟨rfl, Function.update_of_ne hne _ _, rfl⟩
  · show Tuned (r.held sock) ((r.sys.lose sock).client sock).script (r.sys.down sock)
    rw [hscript]
    exact hr.clients sock
  · intro _
    rw [Room.last, Room.last]
    dsimp only
    rw [hscript]

theorem stop_invariant (hr : Invariant r) (why : Stop) :
    Invariant { r with sys := r.sys.stop why } :=
  ⟨hr.clients, fun _ hwork => DaemonState.noConfusion hwork⟩

theorem rekey_invariant {rnd : ℕ → Key} {renewedKey : Key} {s : System} (hr : Invariant r)
    (hclient : s.client = r.sys.client) (hdown : s.down = r.sys.down)
    (hserving : ∀ work, s.daemon = .running work → Serving (r.rekey rnd renewedKey s) work) :
    Invariant (r.rekey rnd renewedKey s) := by
  refine ⟨?_, hserving⟩
  intro sock
  show Tuned (r.held sock) (s.client sock).script (s.down sock)
  rw [hclient, hdown]
  exact hr.clients sock

theorem accept_invariant {sock : ℕ} {rnd : ℕ → Key} {renewedKey : Key} (hr : Invariant r) :
    Invariant (r.rekey rnd renewedKey (r.sys.addClient sock)) := by
  refine rekey_invariant hr rfl rfl fun work hwork => ?_
  cases hwork
  apply Serving.begin
  · intro hmany other hother
    have hmore : (r.sys.sockets ++ [sock]).length > 1 := hmany
    refine ⟨(r.sys.sockets ++ [sock]).length - 1, List.mem_append_right _ ?_⟩
    rw [if_pos hmore]
    exact nPartyServer_ctrl hmany hother
  · intro other hmem
    rcases List.mem_append.mp hmem with hmem | hmem
    · simp [Framing.twoPartyServer] at hmem
    · split at hmem
      · exact nPartyServer_forwarded _ _ hmem
      · cases hmem

theorem hangup_invariant {sock : ℕ} {rnd : ℕ → Key} {renewedKey : Key} (hr : Invariant r) :
    Invariant (r.rekey rnd renewedKey (r.sys.daemonHandleDisconnect sock)) := by
  refine rekey_invariant hr rfl rfl fun work hwork => ?_
  rw [System.daemonHandleDisconnect] at hwork
  dsimp only at hwork
  split at hwork
  · cases hwork
  · cases hwork
    apply Serving.begin
    · intro hmany other hother
      exact ⟨_, nPartyServer_ctrl hmany hother⟩
    · exact nPartyServer_forwarded _

theorem read_invariant {sock : ℕ} {s : System} (hr : Invariant r)
    (hidle : r.sys.daemon = .running [])
    (hsock : sock ∈ r.sys.sockets) (htimely : Timely r (.read sock))
    (h : r.sys.recvClient sock = some s) :
    Invariant { r with sys := s, message := (r.incoming sock).getD r.message } := by
  have hserving := hr.daemon [] hidle
  rw [System.recvClient] at h
  rw [Timely] at htimely
  unfold Room.incoming at htimely ⊢
  split at h
  next => cases h
  next hup =>
    obtain rfl := Option.some.inj h
    rw [hup]
    exact stop_invariant hr .framing
  next wire rest hup =>
    obtain rfl := Option.some.inj h
    rw [hup] at htimely ⊢
    refine ⟨hr.clients, fun work hwork => ?_⟩
    cases hwork
    have hmem {other : ℕ} {d : Delivery} (hsend : .send other d ∈
        Framing.transferMessage r.sys.sockets sock) :
        d = .forwarded ∧ other ∈ r.sys.sockets ∧ other ≠ sock := by
      obtain ⟨dst, hdst, heq⟩ := List.mem_map.mp hsend
      obtain ⟨rfl, rfl⟩ := DaemonAct.send.inj heq
      obtain ⟨hin, hne⟩ := List.mem_filter.mp hdst
      exact ⟨rfl, hin, of_decide_eq_true hne⟩
    constructor
    · intro hmany other hother
      rcases hserving.renewed hmany other hother with ⟨rounds, hnil⟩ | hlast
      · cases hnil
      · exact Or.inr hlast
    · intro other hsend
      obtain ⟨-, hin, hne⟩ := hmem hsend
      refine ⟨hin, ?_, htimely wire rfl other hin hne⟩
      -- the sender and the recipient are two
      have hpair : [other, sock] ⊆ r.sys.sockets := by
        simp only [List.cons_subset, hin, hsock, List.nil_subset, and_self]
      exact (List.subperm_of_subset (by simpa using hne) hpair).length_le
    · intro other other' rounds _ hctrl
      cases (hmem hctrl).1

theorem deliver_invariant {sock : ℕ} {d : Delivery} (hr : Invariant r)
    (hwork : r.sys.daemon = .running (.send sock d :: work)) :
    Invariant { r.deliver sock d with
      sys := { r.sys with
        daemon := .running work
        down := Function.update r.sys.down sock (r.sys.down sock ++ [d]) } } := by
  have hserving := hr.daemon _ hwork
  -- a text that goes out is under the key that its recipient ends up with
  have hopens : ∀ wire, r.content sock d = .forwarded wire → Opens (r.last sock) wire := by
    intro wire hwire
    cases d with
    | forwarded =>
      obtain ⟨hin, hmany, hmessage⟩ := hserving.forwards sock List.mem_cons_self
      -- while a text is to be sent there is no control cable to be sent
      rcases hserving.renewed hmany sock hin with ⟨rounds, hctrl⟩ | hlast
      · exact absurd hctrl (hserving.apart sock sock rounds List.mem_cons_self)
      · obtain rfl := Content.forwarded.inj hwire
        rw [hlast]
        exact hmessage
    | publicKey => cases hwire
    | sessionKey => cases hwire
    | ctrl rounds => cases hwire
    | intermediate => cases hwire
  constructor
  · intro other
    by_cases heq : other = sock
    · have hkind : (r.content sock d).kind = d := by
        cases d <;> rfl
      have ht := (hr.clients sock).deliver hopens
      rw [hkind] at ht
      rw [heq]
      simp only [Room.deliver, Room.setHeld, Function.update_self]
      exact ht
    · simp only [Room.deliver, Room.setHeld, Function.update_of_ne heq]
      exact hr.clients other
  · intro work' hwork'
    cases hwork'
    -- a control cable sets the key of the last exchange, the other deliveries leave it
    have hsame : (r.content sock d).session (r.exchange.session sock) =
      r.exchange.session sock := by
      cases d <;> rfl
    refine ⟨?_, ?_, ?_⟩
    · intro hmany other hother
      by_cases heq : other = sock
      · subst heq
        simp only [Room.last, Room.deliver, Room.setHeld, Function.update_self, Holding.last,
          sessionAfter_append]
        rcases hserving.renewed hmany other hother with ⟨rounds, hctrl⟩ | hlast
        · rcases List.mem_cons.mp hctrl with hhead | htail
          · -- the control cable is the one that goes out
            obtain ⟨-, rfl⟩ := DaemonAct.send.inj hhead
            exact Or.inr rfl
          · exact Or.inl ⟨rounds, htail⟩
        · right
          show (r.content other d).session (r.last other) = r.exchange.session other
          rw [hlast, hsame]
      · simp only [Room.last, Room.deliver, Room.setHeld, Function.update_of_ne heq]
        rcases hserving.renewed hmany other hother with ⟨rounds, hctrl⟩ | hlast
        · rcases List.mem_cons.mp hctrl with hhead | htail
          · exact absurd (DaemonAct.send.inj hhead).1 heq
          · exact Or.inl ⟨rounds, htail⟩
        · exact Or.inr hlast
    · intro other hsend
      exact hserving.forwards other (List.mem_cons_of_mem _ hsend)
    · intro other other' rounds hsend hctrl
      exact hserving.apart other other' rounds (List.mem_cons_of_mem _ hsend)
        (List.mem_cons_of_mem _ hctrl)

/-- The daemon reads a frame: its activity goes on without it, or it stops. -/
theorem keRcv_invariant {sock : ℕ} {type : KeyType} {act : DaemonAct} {s : System}
    (hr : Invariant r) (hwork : r.sys.daemon = .running (act :: work))
    (hctrl : ∀ dst rounds, .send dst (.ctrl rounds) ∈ work' ↔
      .send dst (.ctrl rounds) ∈ act :: work)
    (hforwarded : ∀ dst, .send dst .forwarded ∈ work' → .send dst .forwarded ∈ act :: work)
    (h : r.sys.keRcv sock type work' = some s) : Invariant { r with sys := s } := by
  rw [System.keRcv] at h
  split at h
  next => cases h
  next t key rest hup =>
    by_cases htype : t = type
    · rw [if_pos htype] at h
      obtain rfl := Option.some.inj h
      refine ⟨hr.clients, fun _ hrunning => ?_⟩
      cases hrunning
      exact (hr.daemon _ hwork).frame rfl rfl rfl (fun _ _ => rfl) hctrl hforwarded
    · rw [if_neg htype] at h
      obtain rfl := Option.some.inj h
      exact stop_invariant hr .framing
  next =>
    obtain rfl := Option.some.inj h
    exact stop_invariant hr .framing

theorem work_invariant {act : DaemonAct} {s : System} (hr : Invariant r)
    (hwork : r.sys.daemon = .running (act :: work)) (h : r.sys.perform work act = some s) :
    Invariant { r.perform with sys := s } := by
  have hact : r.sys.work = act :: work := by rw [System.work, hwork]
  unfold Room.perform
  rw [hact]
  -- a send appends to one queue; the two reads only shorten the daemon's work
  cases act with
  | send sock d =>
    obtain rfl := Option.some.inj h
    exact deliver_invariant hr hwork
  | rcvPublic sock =>
    apply keRcv_invariant hr hwork _ _ h
    · intro dst rounds
      simp
    · intro dst hmem
      exact List.mem_cons_of_mem _ hmem
  | relay sock next =>
    apply keRcv_invariant hr hwork _ _ h
    · intro dst rounds
      simp
    · intro dst hmem
      simpa using hmem

theorem init_invariant (serverKey : Key) : Invariant (Room.init serverKey) := by
  refine ⟨fun sock => ⟨⟨Nat.zero_le _, fun d hd => absurd hd List.not_mem_nil⟩, rfl, trivial⟩, ?_⟩
  intro work hwork
  cases hwork
  apply Serving.begin
  · intro hmany
    have hnone : (Room.init serverKey).sys.sockets.length = 0 := rfl
    omega
  · exact fun _ => List.not_mem_nil

theorem step_invariant {a : RoomAction} (hr : Invariant r) (ha : Timely r a)
    (h : r.step a = some r') : Invariant r' := by
  -- one case for each action; the guard of the system's step is in `hs`
  cases a with
  | connect sock =>
    obtain ⟨s, hs, rfl⟩ := Option.map_eq_some_iff.mp h
    rw [System.step] at hs
    split at hs
    · cases hs
    next hfree =>
      obtain rfl := Option.some.inj hs
      exact connect_invariant hr (fun hmem => hfree (List.mem_append_left _ hmem))
  | accept sock rnd renewedKey =>
    obtain ⟨s, hs, rfl⟩ := Option.map_eq_some_iff.mp h
    rw [System.step] at hs
    split at hs
    · obtain rfl := Option.some.inj hs
      exact accept_invariant hr
    · cases hs
  | hangup sock rnd renewedKey =>
    obtain ⟨s, hs, rfl⟩ := Option.map_eq_some_iff.mp h
    rw [System.step] at hs
    split at hs
    · obtain rfl := Option.some.inj hs
      exact hangup_invariant hr
    · cases hs
  | read sock =>
    obtain ⟨s, hs, rfl⟩ := Option.map_eq_some_iff.mp h
    rw [System.step] at hs
    split at hs
    next hmay => exact read_invariant hr hmay.1 hmay.2 ha hs
    next => cases hs
  | work =>
    obtain ⟨s, hs, rfl⟩ := Option.map_eq_some_iff.mp h
    rw [System.step] at hs
    split at hs
    next act work hwork => exact work_invariant hr hwork hs
    next => cases hs
  | fail =>
    obtain ⟨s, hs, rfl⟩ := Option.map_eq_some_iff.mp h
    rw [System.step] at hs
    split at hs
    next =>
      split at hs
      · cases hs
      · obtain rfl := Option.some.inj hs
        exact stop_invariant hr .io
    next => cases hs
  | recvThread sock key stat =>
    obtain ⟨s, hs, rfl⟩ := Option.map_eq_some_iff.mp h
    rw [System.step] at hs
    split at hs
    · exact recvThread_invariant hr hs
    · cases hs
  | clientGetKeys sock =>
    rw [Room.step] at h
    split at h
    · obtain rfl := Option.some.inj h
      -- `client_get_keys` copies the keys under the lock
      exact snapshot_invariant hr _ _ ⟨rfl, rfl, rfl, rfl⟩
    · cases h
  | transmitWire sock wire =>
    -- the message that is sealed uses up the copy
    obtain ⟨keys, -, hsend⟩ := Option.bind_eq_some_iff.mp h
    obtain ⟨s, hs, rfl⟩ := Option.map_eq_some_iff.mp hsend
    rw [System.step] at hs
    split at hs
    · obtain rfl := Option.some.inj hs
      exact snapshot_invariant hr none _ ⟨rfl, rfl, rfl, rfl⟩
    · cases hs
  | quit sock =>
    obtain rfl := Option.some.inj h
    exact quit_invariant hr

end

/-! ## Where the keys come from -/

/-- The session key is the one that the exchange of this number gives the client. -/
def Room.Issued (r : Room) (sock : ℕ) (keys : IssuedKeys) : Prop :=
  keys.exchange ≤ r.began ∧ keys.session = (r.exchanges keys.exchange).session sock

/-- All keys of a client, and those on the way to it, come from their exchanges. -/
structure Room.IssuedTo (r : Room) (sock : ℕ) (h : Holding) : Prop where
  keys : r.Issued sock h.keys
  renewed : r.Issued sock h.renewed
  snapshot : ∀ keys, h.snapshot = some keys → r.Issued sock keys
  queue : ∀ rounds keys, .ctrl rounds keys ∈ h.queue → r.Issued sock keys

/-- Keys and sent cables come from the exchanges whose numbers they have, and the last
exchange is the one between the clients that are there. -/
structure Provenance (r : Room) : Prop where
  first : r.exchanges 0 = noExchange
  held : ∀ sock, r.IssuedTo sock (r.held sock)
  sent : ∀ s ∈ r.sent, s.exchange ≤ r.began ∧
    SealedWire ((r.exchanges s.exchange).session s.sock) s.wire
  agreed : 2 ≤ r.sys.sockets.length → ∃ rnd renewedKey,
    r.exchange = groupExchange r.sys.sockets rnd renewedKey

section

variable {r r' : Room} {sock : ℕ}

theorem Room.IssuedTo.receive {h : Holding} (hh : r.IssuedTo sock h) (script : List ClientAct) :
    r.IssuedTo sock (h.receive script) := by
  have htail {c : Content} {queue : List Content} (hqueue : h.queue = c :: queue) (rounds : ℕ)
      (keys : IssuedKeys) (hmem : .ctrl rounds keys ∈ queue) : r.Issued sock keys := by
    apply hh.queue rounds keys
    rw [hqueue]
    exact List.mem_cons_of_mem c hmem
  -- the keys move from the queue to `renewed`, and from there to `keys` at the announcement
  cases script with
  | cons act script =>
    cases act with
    | send type => exact hh
    | announce => exact ⟨hh.renewed, hh.renewed, hh.snapshot, hh.queue⟩
    | recv d =>
      rw [Holding.receive]
      split
      · exact hh
      next c queue hqueue =>
        split
        · refine ⟨?_, hh.renewed, hh.snapshot, htail hqueue⟩
          cases c with
          | sessionKey key => exact hh.keys
          | _ => exact hh.keys
        · exact hh
  | nil =>
    rw [Holding.receive]
    split
    next rounds keys queue hqueue =>
      refine ⟨hh.keys, hh.queue rounds keys ?_, hh.snapshot, htail hqueue⟩
      rw [hqueue]
      exact List.mem_cons_self
    next wire queue hqueue => exact ⟨hh.keys, hh.renewed, hh.snapshot, htail hqueue⟩
    next => exact hh

theorem Provenance.client (sock : ℕ) {h : Holding} (hr : Provenance r) (hbegan : r'.began = r.began)
    (hexchanges : r'.exchanges = r.exchanges) (hsockets : r'.sys.sockets = r.sys.sockets)
    (hheld : r'.held = Function.update r.held sock h) (hsock : r.IssuedTo sock h)
    (hsent : ∀ s ∈ r'.sent, s.exchange ≤ r.began ∧
      SealedWire ((r.exchanges s.exchange).session s.sock) s.wire) : Provenance r' := by
  have hissued (other : ℕ) (keys : IssuedKeys) (hkeys : r.Issued other keys) :
      r'.Issued other keys := by
    rw [Room.Issued, hbegan, hexchanges]
    exact hkeys
  constructor
  · rw [hexchanges]
    exact hr.first
  · intro other
    have hother : r.IssuedTo other (r'.held other) := by
      rw [hheld]
      by_cases heq : other = sock
      · rw [heq, Function.update_self]
        exact hsock
      · rw [Function.update_of_ne heq]
        exact hr.held other
    exact ⟨hissued _ _ hother.keys, hissued _ _ hother.renewed,
      fun keys hk => hissued _ _ (hother.snapshot keys hk),
      fun rounds keys hk => hissued _ _ (hother.queue rounds keys hk)⟩
  · rw [hbegan, hexchanges]
    exact hsent
  · rw [hsockets, Room.exchange, hbegan, hexchanges]
    exact hr.agreed

theorem Provenance.frame (hr : Provenance r) (hbegan : r'.began = r.began)
    (hexchanges : r'.exchanges = r.exchanges) (hsockets : r'.sys.sockets = r.sys.sockets)
    (hheld : r'.held = r.held) (hsent : r'.sent = r.sent) : Provenance r' := by
  refine hr.client 0 hbegan hexchanges hsockets ?_ (hr.held 0) ?_
  · rw [hheld, Function.update_eq_self]
  · rw [hsent]
    exact hr.sent

/-- The daemon turns to the sockets that are there now: older numbers keep their exchange. -/
theorem rekey_provenance {rnd : ℕ → Key} {renewedKey : Key} {s : System} (hr : Provenance r) :
    Provenance (r.rekey rnd renewedKey s) := by
  -- with fewer than two sockets no exchange is made and the number stays
  by_cases hmany : 2 ≤ s.sockets.length
  · have hbegan : (r.rekey rnd renewedKey s).began = r.began + 1 := if_pos hmany
    have hexchanges : (r.rekey rnd renewedKey s).exchanges = Function.update r.exchanges
        (r.began + 1) (groupExchange s.sockets rnd renewedKey) := if_pos hmany
    -- older numbers are not written again
    have hold {n : ℕ} (hn : n ≤ r.began) :
        (r.rekey rnd renewedKey s).exchanges n = r.exchanges n := by
      rw [hexchanges, Function.update_of_ne (by omega)]
    have hissued (sock : ℕ) (keys : IssuedKeys) (h : r.Issued sock keys) :
        (r.rekey rnd renewedKey s).Issued sock keys := by
      rw [Room.Issued, hold h.1, hbegan]
      exact ⟨h.1.trans (Nat.le_succ _), h.2⟩
    constructor
    · rw [hold (Nat.zero_le _)]
      exact hr.first
    · intro sock
      have h := hr.held sock
      exact ⟨hissued _ _ h.keys, hissued _ _ h.renewed,
        fun keys hk => hissued _ _ (h.snapshot keys hk),
        fun rounds keys hk => hissued _ _ (h.queue rounds keys hk)⟩
    · intro sending hmem
      obtain ⟨hle, hsealed⟩ := hr.sent sending hmem
      rw [hold hle, hbegan]
      exact ⟨by omega, hsealed⟩
    · intro _
      refine ⟨rnd, renewedKey, ?_⟩
      rw [Room.exchange, hbegan, hexchanges, Function.update_self]
      rfl
  · have hbegan : (r.rekey rnd renewedKey s).began = r.began := if_neg hmany
    have hexchanges : (r.rekey rnd renewedKey s).exchanges = r.exchanges := if_neg hmany
    constructor
    · rw [hexchanges]
      exact hr.first
    · intro sock
      have h := hr.held sock
      have hissued (keys : IssuedKeys) (h : r.Issued sock keys) :
          (r.rekey rnd renewedKey s).Issued sock keys := by
        rw [Room.Issued, hbegan, hexchanges]
        exact h
      exact ⟨hissued _ h.keys, hissued _ h.renewed, fun keys hk => hissued _ (h.snapshot keys hk),
        fun rounds keys hk => hissued _ (h.queue rounds keys hk)⟩
    · rw [hbegan, hexchanges]
      exact hr.sent
    · exact fun h => absurd h hmany

theorem Room.IssuedTo.deliver {h : Holding} (hh : r.IssuedTo sock h) (d : Delivery) :
    r.IssuedTo sock { h with queue := h.queue ++ [r.content sock d] } := by
  refine ⟨hh.keys, hh.renewed, hh.snapshot, fun rounds keys hmem => ?_⟩
  rcases List.mem_append.mp hmem with hmem | hmem
  · exact hh.queue rounds keys hmem
  · cases d with
    | ctrl n =>
      obtain ⟨-, rfl⟩ := Content.ctrl.inj (List.mem_singleton.mp hmem)
      exact ⟨le_rfl, rfl⟩
    | _ => cases List.mem_singleton.mp hmem

theorem keRcv_sockets {s s' : System} {type : KeyType} {work : List DaemonAct}
    (h : s.keRcv sock type work = some s') : s'.sockets = s.sockets := by
  rw [System.keRcv] at h
  split at h
  · cases h
  · split at h
    · obtain rfl := Option.some.inj h
      rfl
    · obtain rfl := Option.some.inj h
      rfl
  · obtain rfl := Option.some.inj h
    rfl

theorem work_provenance {act : DaemonAct} {work : List DaemonAct} {s : System}
    (hr : Provenance r) (hwork : r.sys.daemon = .running (act :: work))
    (h : r.sys.perform work act = some s) : Provenance { r.perform with sys := s } := by
  have hact : r.sys.work = act :: work := by rw [System.work, hwork]
  unfold Room.perform
  rw [hact]
  cases act with
  | send sock d =>
    obtain rfl := Option.some.inj h
    exact hr.client sock rfl rfl rfl rfl ((hr.held sock).deliver d) hr.sent
  | rcvPublic sock => exact hr.frame rfl rfl (keRcv_sockets h) rfl rfl
  | relay sock next => exact hr.frame rfl rfl (keRcv_sockets h) rfl rfl

theorem init_provenance (serverKey : Key) : Provenance (Room.init serverKey) := by
  refine ⟨rfl, fun sock => ⟨⟨le_rfl, rfl⟩, ⟨le_rfl, rfl⟩, ?_, ?_⟩, ?_, ?_⟩
  · exact fun _ hnone => by cases hnone
  · exact fun _ _ hmem => by cases hmem
  · exact fun _ hmem => by cases hmem
  · intro hmany
    have hnone : (Room.init serverKey).sys.sockets.length = 0 := rfl
    omega

theorem step_provenance {a : RoomAction} (hr : Provenance r) (h : r.step a = some r') :
    Provenance r' := by
  -- only the daemon makes exchanges, and each action changes what one client holds
  cases a with
  | connect sock =>
    obtain ⟨s, hs, rfl⟩ := Option.map_eq_some_iff.mp h
    rw [System.step] at hs
    split at hs
    · cases hs
    · obtain rfl := Option.some.inj hs
      -- a new client starts with the zero keys, which count as exchange 0
      have hfresh : r.Issued sock ⟨zeroKeys, 0⟩ := by
        rw [Room.Issued, hr.first]
        exact ⟨Nat.zero_le _, rfl⟩
      refine hr.client sock rfl rfl rfl rfl ?_ hr.sent
      exact ⟨hfresh, hfresh, fun _ hnone => (by cases hnone), fun _ _ hmem => (by cases hmem)⟩
  | accept sock rnd renewedKey =>
    obtain ⟨s, -, rfl⟩ := Option.map_eq_some_iff.mp h
    exact rekey_provenance hr
  | hangup sock rnd renewedKey =>
    obtain ⟨s, -, rfl⟩ := Option.map_eq_some_iff.mp h
    exact rekey_provenance hr
  | read sock =>
    obtain ⟨s, hs, rfl⟩ := Option.map_eq_some_iff.mp h
    rw [System.step] at hs
    split at hs
    · rw [System.recvClient] at hs
      split at hs
      · cases hs
      all_goals
        obtain rfl := Option.some.inj hs
        exact hr.frame rfl rfl rfl rfl rfl
    · cases hs
  | work =>
    obtain ⟨s, hs, rfl⟩ := Option.map_eq_some_iff.mp h
    rw [System.step] at hs
    split at hs
    next act work hwork => exact work_provenance hr hwork hs
    next => cases hs
  | fail =>
    obtain ⟨s, hs, rfl⟩ := Option.map_eq_some_iff.mp h
    rw [System.step] at hs
    split at hs
    next =>
      split at hs
      · cases hs
      · obtain rfl := Option.some.inj hs
        exact hr.frame rfl rfl rfl rfl rfl
    next => cases hs
  | recvThread sock key stat =>
    obtain ⟨s, hs, rfl⟩ := Option.map_eq_some_iff.mp h
    rw [System.step] at hs
    split at hs
    · obtain ⟨c, up, down, -, rfl⟩ := recvThread_cases hs
      exact hr.client sock rfl rfl rfl rfl ((hr.held sock).receive _) hr.sent
    · cases hs
  | clientGetKeys sock =>
    rw [Room.step] at h
    split at h
    · obtain rfl := Option.some.inj h
      have hheld := hr.held sock
      refine hr.client sock rfl rfl rfl rfl ?_ hr.sent
      refine ⟨hheld.keys, hheld.renewed, fun keys hcopy => ?_, hheld.queue⟩
      -- the copy has the number of the keys it was taken from
      obtain rfl := Option.some.inj hcopy
      exact hheld.keys
    · cases h
  | transmitWire sock w =>
    obtain ⟨keys, hcopy, hsend⟩ := Option.bind_eq_some_iff.mp h
    obtain ⟨s, hs, rfl⟩ := Option.map_eq_some_iff.mp hsend
    rw [System.step] at hs
    split at hs
    · obtain rfl := Option.some.inj hs
      have hheld := hr.held sock
      obtain ⟨hle, hsession⟩ := hheld.snapshot keys hcopy
      refine hr.client sock rfl rfl rfl rfl ?_ ?_
      · exact ⟨hheld.keys, hheld.renewed, fun _ hnone => (by cases hnone), hheld.queue⟩
      · intro sending hmem
        -- the wire that is added was sealed with the copy
        rcases List.mem_cons.mp hmem with rfl | hmem
        · refine ⟨hle, w, ?_⟩
          rw [← hsession]
        · exact hr.sent sending hmem
    · cases hs
  | quit sock =>
    obtain rfl := Option.some.inj h
    exact hr.frame rfl rfl rfl rfl rfl

theorem groupExchange_session {sockets : List ℕ} {rnd : ℕ → Key} {renewedKey : Key}
    (hsock : sock ∈ sockets) : (groupExchange sockets rnd renewedKey).session sock =
      groupKey X25519.x25519 sockets.length rnd := by
  have hidx : sockets.idxOf sock < sockets.length := List.idxOf_lt_length_iff.mpr hsock
  rw [groupExchange]
  dsimp only
  rw [sha256KeyDigest_eq, intermediate_last rnd X25519.pointD_comm (by omega) hidx, groupKey]

/-- A text that was sent with the keys of the last exchange is under the key that the
exchange gives to the others. -/
theorem timely_of_scheduled {a : RoomAction} (hr : Provenance r) (ha : Scheduled r a)
    (h : r.step a = some r') : Timely r a := by
  cases a with
  | read sock =>
    intro wire hwire other hother hne htext
    have hsock : sock ∈ r.sys.sockets := by
      obtain ⟨s, hs, -⟩ := Option.map_eq_some_iff.mp h
      rw [System.step] at hs
      split at hs
      next hmay => exact hmay.2
      next => cases hs
    have hmany : 2 ≤ r.sys.sockets.length := by
      have hpair : [other, sock] ⊆ r.sys.sockets := by
        simp only [List.cons_subset, hother, hsock, List.nil_subset, and_self]
      exact (List.subperm_of_subset (by simpa using hne) hpair).length_le
    obtain ⟨rnd, renewedKey, hexchange⟩ := hr.agreed hmany
    have hsealed : SealedWire (r.exchange.session sock) wire :=
      (hr.sent _ (ha wire hwire htext ⟨other, hother, hne⟩)).2
    rw [hexchange, groupExchange_session hsock] at hsealed
    rw [hexchange, groupExchange_session hother]
    exact hsealed
  | _ => exact trivial

end

theorem reachable_invariant {serverKey : Key} {r : Room}
    (hr : Room.Reachable Scheduled serverKey r) : Invariant r ∧ Provenance r := by
  induction hr with
  | init => exact ⟨init_invariant serverKey, init_provenance serverKey⟩
  | step _ ha h ih =>
    exact ⟨step_invariant ih.1 (timely_of_scheduled ih.2 ha h) h, step_provenance ih.2 h⟩

/-! ## Two runs -/

namespace Room

/-- The state after some actions, if each can be taken. -/
def run (r : Room) : List RoomAction → Option Room
  | [] => some r
  | a :: as => (r.step a).bind fun r => r.run as

theorem run_append (r : Room) (as bs : List RoomAction) :
    r.run (as ++ bs) = (r.run as).bind fun r => r.run bs := by
  induction as generalizing r with
  | nil => rfl
  | cons a as ih =>
    rw [List.cons_append, run, run, Option.bind_assoc]
    simp only [ih]

theorem Reachable.run {ok : Room → RoomAction → Prop} {serverKey : Key} {r r' : Room}
    {as : List RoomAction} (hr : Reachable ok serverKey r) (hok : ∀ r, ∀ a ∈ as, ok r a)
    (h : r.run as = some r') : Reachable ok serverKey r' := by
  induction as generalizing r with
  | nil =>
    obtain rfl := Option.some.inj h
    exact hr
  | cons a as ih =>
    obtain ⟨t, ht, hrest⟩ := Option.bind_eq_some_iff.mp h
    refine ih (hr.step (hok r a List.mem_cons_self) ht) ?_ hrest
    intro r b hb
    exact hok r b (List.mem_cons_of_mem a hb)

end Room

/-- The daemon does not turn to a text. -/
def RoomAction.readsNothing : RoomAction → Bool
  | .read _ => false
  | _ => true

/-- A run without reads is scheduled. -/
theorem scheduled_of_noReads {as : List RoomAction} (h : as.all RoomAction.readsNothing = true)
    (r : Room) : ∀ a ∈ as, Scheduled r a := by
  intro a ha
  have hnone := List.all_eq_true.mp h a ha
  cases a with
  | read sock => cases hnone
  | _ => exact trivial

def statWire : Wire :=
  (initWireFromStatMsg (initStatConnMsg .userConnect (cStr [97]))
    (some (Vector.replicate 16 0))).get rfl

def hiWire : Wire :=
  (initWireFromTextMsg (textMsgFromText (cStr [97]) [104, 105])
    (some (Vector.replicate 16 0))).get rfl

theorem hiWire_built : initWireFromTextMsg (textMsgFromText (cStr [97]) [104, 105])
    (some (Vector.replicate 16 0)) = some hiWire := (Option.some_get _).symm

def textWire : BuiltWire := ⟨hiWire, .text, _, _, textMsg_fits (by decide), hiWire_built⟩

theorem textWire_sealed (key : Key) : SealedText key (encryptWire textWire.wire key).bytes :=
  ⟨cStr [97], [104, 105], Vector.replicate 16 0, hiWire, by decide, hiWire_built, rfl⟩

def next (sock : ℕ) : RoomAction := .recvThread sock (Vector.replicate 32 0) statWire

/-- The secrets of the second exchange of three clients, of which two had a part in the first. -/
def shiftedSecrets (i : ℕ) : Key := threeSecrets (i - 1)

def twoJoin : List RoomAction :=
  [.connect 5, next 5, .accept 5 threeSecrets (Vector.replicate 32 0), .work, .work, .work,
    next 5, next 5,
    .connect 6, next 6, .accept 6 threeSecrets (Vector.replicate 32 1), .work, .work, .work,
    .work, .work, next 6, next 6, next 5, next 5, next 6, next 6, .work, .work, .work, .work,
    next 5, next 5, next 6, next 6]

def oneLeaves : List RoomAction := [.quit 6, .hangup 6 threeSecrets (Vector.replicate 32 0)]

/-- A client joins the first one, which then sends a text. -/
def oneJoins : List RoomAction :=
  [.connect 7, next 7, .accept 7 threeSecrets (Vector.replicate 32 3), .work, .work, .work,
    .work, .work, next 7, next 7, next 5, next 5, next 7, next 7, .work, .work, .work, .work,
    next 5, next 5, next 7, next 7, .clientGetKeys 5, .transmitWire 5 textWire]

/-- A third client joins after the first has copied its keys, and the first then
goes on with its text, which the daemon forwards. -/
def staleSend : List RoomAction :=
  [.read 5, .work, .read 6, .work, .clientGetKeys 5,
    .connect 7, next 7, .accept 7 shiftedSecrets (Vector.replicate 32 3), .work, .work, .work,
    .work, .work, .work, next 7, next 7, next 7, next 7, next 5, next 5, next 5, next 6, next 6,
    next 6, .work, .work, .work, .work, .work, .work, next 5, next 5, next 6, next 6, next 7,
    next 7, .work, .work, .work, .work, .work, .work, next 5, next 5, next 6, next 6, next 7,
    next 7, .transmitWire 5 textWire, .read 5, .work, .work]

/-- In every run in which no exchange begins between the copy of the keys for a text and
the daemon's turn to it, in any interleaving of the threads, each client that is about to
process a text accepts it with the session key it holds. -/
theorem text_survives_rekey (serverKey : Key) (r : Room)
    (hr : Room.Reachable Scheduled serverKey r) (sock : ℕ) (wire : List UInt8)
    (hprocesses : r.Processes sock wire) (sender : Key) (htext : SealedText sender wire) :
    r.Accepts sock wire := by
  obtain ⟨-, hscript, hhead⟩ := hprocesses
  have ht := (reachable_invariant hr).1.clients sock
  obtain ⟨queue, hqueue⟩ := List.head?_eq_some_iff.mp hhead
  have hopens : Opens ((r.held sock).session (r.sys.client sock).script) wire := by
    have hread := ht.readable
    rw [hqueue] at hread
    exact hread.1 wire rfl
  have hsession : (r.held sock).session (r.sys.client sock).script =
      (r.held sock).keys.session := by
    rw [Holding.session, hscript, if_neg List.not_mem_nil]
  rw [hsession] at hopens
  exact (hopens ⟨sender, htext⟩).accepted

/-- One of two clients goes and another joins; then a text is sent with the new keys. -/
theorem text_survives_rekey_joined :
    ∃ r wire, Room.Reachable Scheduled (Vector.replicate 32 9) r ∧ r.Processes 7 wire ∧
      r.began = 2 ∧ r.Accepts 7 wire := by
  let wire := (encryptWire textWire.wire
    ((groupExchange [5, 7] threeSecrets (Vector.replicate 32 3)).session 5)).bytes
  have halone : ((Room.init (Vector.replicate 32 9)).run (twoJoin ++ oneLeaves)).map
      (fun r => r.sys.sockets) = some [5] := by
    rfl
  have hsent : ((Room.init (Vector.replicate 32 9)).run
      (twoJoin ++ oneLeaves ++ ([.read 5] ++ oneJoins))).map
        (fun r => (r.incoming 5, r.began, r.sent)) = some (some wire, 2, [⟨5, wire, 2⟩]) := by
    rfl
  have hend : ((Room.init (Vector.replicate 32 9)).run
      (twoJoin ++ oneLeaves ++ ([.read 5] ++ oneJoins) ++ [.read 5, .work])).map
        (fun r => ((r.sys.client 7).connected, (r.sys.client 7).script, (r.held 7).queue.head?,
          r.began)) = some (true, [], some (.forwarded wire), 2) := by
    rfl
  obtain ⟨r₁, hrun₁, hsockets⟩ := Option.map_eq_some_iff.mp halone
  obtain ⟨r₂, hrun₂, hstate₂⟩ := Option.map_eq_some_iff.mp hsent
  obtain ⟨r₃, hrun₃, hstate₃⟩ := Option.map_eq_some_iff.mp hend
  obtain ⟨hincoming, hstate₂⟩ := Prod.mk.inj hstate₂
  obtain ⟨hbegan, hrecord⟩ := Prod.mk.inj hstate₂
  obtain ⟨hconnected, hstate₃⟩ := Prod.mk.inj hstate₃
  obtain ⟨hscript, hstate₃⟩ := Prod.mk.inj hstate₃
  obtain ⟨hhead, hlast⟩ := Prod.mk.inj hstate₃
  rw [Room.run_append, hrun₂, Option.bind_some] at hrun₃
  rw [Room.run_append, hrun₁, Option.bind_some] at hrun₂
  -- the joins read no text, a client that is alone has no one to read it, and then the
  -- text is sent with a copy of the keys of the last exchange
  have hreach₁ : Room.Reachable Scheduled (Vector.replicate 32 9) r₁ :=
    Room.Reachable.init.run (fun r => scheduled_of_noReads rfl r) hrun₁
  obtain ⟨t₂, hstep₂, hrest₂⟩ := Option.bind_eq_some_iff.mp hrun₂
  have halone' : Scheduled r₁ (.read 5) := by
    rintro _ _ _ ⟨other, hother, hne⟩
    rw [hsockets, List.mem_singleton] at hother
    exact absurd hother hne
  have hreach₂ : Room.Reachable Scheduled (Vector.replicate 32 9) r₂ :=
    (hreach₁.step halone' hstep₂).run (fun r => scheduled_of_noReads rfl r) hrest₂
  obtain ⟨t₃, hstep₃, hrest₃⟩ := Option.bind_eq_some_iff.mp hrun₃
  have hcopied : Scheduled r₂ (.read 5) := by
    intro read hread _ _
    obtain rfl := Option.some.inj (hincoming.symm.trans hread)
    rw [hrecord, hbegan]
    exact List.mem_singleton_self _
  have hreach₃ : Room.Reachable Scheduled (Vector.replicate 32 9) r₃ :=
    (hreach₂.step hcopied hstep₃).run (fun r => scheduled_of_noReads rfl r) hrest₃
  have hprocesses : r₃.Processes 7 wire := ⟨hconnected, hscript, hhead⟩
  exact ⟨r₃, wire, hreach₃, hprocesses, hlast,
    text_survives_rekey _ r₃ hreach₃ 7 _ hprocesses _ (textWire_sealed _)⟩

/-! ## A text that is lost -/

theorem point_of_two : X25519.x25519 (pointD (threeSecrets 1))
    (X25519.x25519 (pointD (threeSecrets 2)) basepoint) =
      #v[124, 66, 90, 81, 246, 167, 242, 230, 0, 18, 176, 163, 77, 214, 81, 16, 23, 128, 119, 8,
        181, 2, 238, 102, 162, 162, 71, 241, 113, 253, 169, 108] := by
  have hinner : X25519.x25519 (pointD (threeSecrets 2)) basepoint =
      #v[93, 254, 221, 59, 107, 212, 127, 111, 162, 142, 225, 93, 150, 157, 91, 176, 234, 83, 119,
        77, 72, 139, 218, 249, 223, 28, 110, 1, 36, 179, 239, 34] := by
    apply X25519.x25519_of_ladderEnd <;> decide +kernel
  rw [hinner]
  apply X25519.x25519_of_ladderEnd <;> decide +kernel

def firstKey : Key :=
  #v[102, 89, 24, 120, 31, 94, 118, 200, 3, 255, 97, 254, 209, 208, 4, 238, 184, 114, 213, 253, 63,
    74, 249, 100, 114, 242, 19, 66, 153, 29, 190, 184]

def secondKey : Key :=
  #v[132, 177, 185, 5, 97, 212, 238, 180, 110, 174, 148, 239, 3, 194, 118, 232, 243, 36, 178, 113,
    178, 152, 47, 63, 4, 45, 13, 5, 124, 89, 29, 12]

theorem first_session :
    (groupExchange [5, 6] threeSecrets (Vector.replicate 32 1)).session 5 = firstKey := by
  have hpoint : nested X25519.x25519 threeSecrets (List.range' 1 2) =
      X25519.x25519 (pointD (threeSecrets 1))
        (X25519.x25519 (pointD (threeSecrets 2)) basepoint) := rfl
  rw [groupExchange_session List.mem_cons_self, groupKey, List.length_cons, List.length_cons,
    List.length_nil, hpoint, point_of_two, ← sha256KeyDigest_eq]
  decide +kernel

theorem second_session :
    (groupExchange [5, 6, 7] shiftedSecrets (Vector.replicate 32 3)).session 6 = secondKey := by
  have hpoint : nested X25519.x25519 shiftedSecrets (List.range' 1 3) =
      X25519.x25519 (pointD (threeSecrets 0)) (X25519.x25519 (pointD (threeSecrets 1))
        (X25519.x25519 (pointD (threeSecrets 2)) basepoint)) := rfl
  have hthird : nested X25519.x25519 shiftedSecrets (List.range' 1 3) =
      #v[73, 223, 53, 232, 194, 204, 12, 25, 243, 129, 195, 145, 139, 211, 19, 141, 111, 27, 23,
        231, 24, 150, 191, 69, 100, 23, 197, 190, 21, 207, 28, 41] := by
    rw [hpoint, point_of_two]
    apply X25519.x25519_of_ladderEnd <;> decide +kernel
  rw [groupExchange_session (List.mem_cons_of_mem 5 List.mem_cons_self), groupKey,
    List.length_cons, List.length_cons, List.length_cons, List.length_nil, hthird,
    ← sha256KeyDigest_eq]
  decide +kernel

theorem textWire_unverified {key : Key} (hkey : key = secondKey ∨ key = Vector.replicate 32 3) :
    wireVerifyInnerMac (aes128InitCmac key.mac) (encryptWire textWire.wire firstKey) = false := by
  apply not_verifies_of_columns
  rcases hkey with rfl | rfl <;> decide +kernel

/-- The copy of the keys is older than the exchange: the others drop the text. -/
theorem text_lost_to_rekey :
    ∃ r, (Room.init (Vector.replicate 32 9)).run (twoJoin ++ staleSend) = some r ∧
      Room.Reachable (fun _ _ => True) (Vector.replicate 32 9) r ∧
      r.sent = [⟨5, (encryptWire textWire.wire firstKey).bytes, 1⟩] ∧ r.began = 2 ∧
      SealedText firstKey (encryptWire textWire.wire firstKey).bytes ∧
      r.Processes 6 (encryptWire textWire.wire firstKey).bytes ∧
      decryptCabledWire (r.clientState 6)
        (initCable (encryptWire textWire.wire firstKey).bytes) = none := by
  -- the run up to the end, with the first exchange still by its definition
  have hend : ((Room.init (Vector.replicate 32 9)).run (twoJoin ++ staleSend)).map
      (fun r => (r.sent, r.began, (r.sys.client 6).connected, (r.sys.client 6).script,
        (r.held 6).queue.head?, (r.held 6).keys.toKeys)) =
      let wire := (encryptWire textWire.wire
        ((groupExchange [5, 6] threeSecrets (Vector.replicate 32 1)).session 5)).bytes
      some ([⟨5, wire, 1⟩], 2, true, [], some (.forwarded wire),
        (groupExchange [5, 6, 7] shiftedSecrets (Vector.replicate 32 3)).keys 6) := by
    rfl
  rw [first_session] at hend
  obtain ⟨r, hrun, hstate⟩ := Option.map_eq_some_iff.mp hend
  obtain ⟨hsent, hstate⟩ := Prod.mk.inj hstate
  obtain ⟨hbegan, hstate⟩ := Prod.mk.inj hstate
  obtain ⟨hconnected, hstate⟩ := Prod.mk.inj hstate
  obtain ⟨hscript, hstate⟩ := Prod.mk.inj hstate
  obtain ⟨hhead, hkeys⟩ := Prod.mk.inj hstate
  have htext := textWire_sealed firstKey
  refine ⟨r, hrun, Room.Reachable.init.run (fun _ _ _ => trivial) hrun, hsent, hbegan, htext,
    ⟨hconnected, hscript, hhead⟩, decryptCabledWire_none ?_⟩
  have hrenewed : (groupExchange [5, 6, 7] shiftedSecrets (Vector.replicate 32 3)).renewedKey =
      Vector.replicate 32 3 := by
    rw [groupExchange]
  -- neither of the keys that client 6 has now verifies the wire
  have hsession := textWire_unverified (Or.inl rfl)
  have hctrl := textWire_unverified (Or.inr rfl)
  have hcable := (htext.sealedWire.opened none).1
  rw [Wire.ofBytes_bytes] at hcable
  rw [Room.clientState, hkeys, Exchange.keys, second_session, hrenewed, verifyingKey, hcable,
    selectedKey, hsession, if_neg Bool.false_ne_true, Option.filter_some, hctrl,
    if_neg Bool.false_ne_true]

end Parcel.Rekey
