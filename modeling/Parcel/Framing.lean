import Parcel.KeyExchange

/-!
# Frames and cables on one channel

The daemon's loop and its clients, each with a receive thread and a send thread,
in every interleaving. Of the two framings of a channel the daemon expects the one
that its own activity calls for, while the clients send cables unasked. A send is
one step: `xsendall` puts a whole frame or cable on the channel. What the parties
do next does not depend on the contents of keys and wires, so these are arbitrary,
and a delivery to a client is its kind.
-/

namespace Parcel.Framing
open ByteStrings

/-- What a client puts on its channel: a `ke_t`, or the cable of a wire. -/
inductive Packet
  | frame (type : KeyType) (key : Key)
  | cable (wire : List UInt8)
  deriving DecidableEq

def Packet.bytes : Packet → List UInt8
  | .frame type key => keBytes type key
  | .cable wire => (initCable wire).bytes

inductive Delivery
  | publicKey | sessionKey | ctrl (rounds : ℕ) | intermediate | forwarded
  deriving DecidableEq, Repr

inductive ClientAct
  | send (type : KeyType)
  | recv (d : Delivery)
  | announce
  deriving DecidableEq, Repr

def twoPartyClient : List ClientAct :=
  [.send .clientPublic, .recv .publicKey, .recv .sessionKey]

/-- The loop of `n_party_client` with the number of rounds that are left. -/
def clientLoop : ℕ → List ClientAct
  | 0 => []
  | rounds + 1 =>
    .recv .intermediate :: if rounds = 0 then [] else .send .exIntermediate :: clientLoop rounds

def nPartyClient (rounds : ℕ) : List ClientAct := .send .exIntermediate :: clientLoop rounds

/-- The function `proc_ctrl` for a control message of type `CTRL_DHKE`. -/
def procCtrl (rounds : ℕ) : List ClientAct := nPartyClient rounds ++ [.announce]

/-- The steps that the receive thread is in the middle of, none when it waits for
the next cable, the flag `conn_announced`, and whether the connection is open. -/
structure Client where
  script : List ClientAct
  announced : Bool
  connected : Bool
  deriving DecidableEq

/-- A step of the daemon's activity. A relay is a `ke_rcv` on one socket that is
followed by a `ke_snd` to the next. -/
inductive DaemonAct
  | rcvPublic (sock : ℕ)
  | relay (sock next : ℕ)
  | send (sock : ℕ) (d : Delivery)
  deriving DecidableEq, Repr

/-- The socket that a step reads from or writes to first. -/
def DaemonAct.sock : DaemonAct → ℕ
  | .rcvPublic sock => sock
  | .relay sock _ => sock
  | .send sock _ => sock

def twoPartyServer (sock : ℕ) : List DaemonAct :=
  [.rcvPublic sock, .send sock .publicKey, .send sock .sessionKey]

def serverSendCtrlKey (sockets : List ℕ) : List DaemonAct :=
  sockets.map fun sock => .send sock (.ctrl (sockets.length - 1))

/-- One pass over the sockets, each with the socket to its right. -/
def rotateIntermediates (sockets : List ℕ) : List DaemonAct :=
  List.zipWith .relay sockets (sockets.rotate 1)

def nPartyServer (sockets : List ℕ) : List DaemonAct :=
  if sockets.length - 1 < 1 then []
  else serverSendCtrlKey sockets ++
    (List.replicate (sockets.length - 1) (rotateIntermediates sockets)).flatten

def transferMessage (sockets : List ℕ) (sender : ℕ) : List DaemonAct :=
  (sockets.filter (· ≠ sender)).map fun sock => .send sock .forwarded

/-- The sockets without that of a client, whose slot the last one takes. -/
def disconnectClient (sockets : List ℕ) (sock : ℕ) : List ℕ :=
  (sockets.set (sockets.idxOf sock) (sockets.getLastD 0)).dropLast

/-- Why `main_thread` returned: a frame or cable that is none, another failure of
a socket, or the assertion of `n_party_server`. -/
inductive Stop
  | framing | io | assertion
  deriving DecidableEq, Repr

/-- The daemon with the rest of its activity; with none left it waits in `select`. -/
inductive DaemonState
  | running (work : List DaemonAct)
  | stopped (why : Stop)
  deriving DecidableEq, Repr

/-- Daemon and clients. The slots in use are a list of sockets, by which clients
are named; `backlog` has the connections that wait for `accept`. -/
structure System where
  daemon : DaemonState
  sockets : List ℕ
  backlog : List ℕ
  client : ℕ → Client
  up : ℕ → List Packet
  down : ℕ → List Delivery

def initial : System :=
  ⟨.running [], [], [], fun _ => ⟨[], false, false⟩, fun _ => [], fun _ => []⟩

namespace System

variable (s : System) (sock : ℕ)

def setClient (c : Client) : System := { s with client := Function.update s.client sock c }

def put (p : Packet) : System := { s with up := Function.update s.up sock (s.up sock ++ [p]) }

def setDown (ds : List Delivery) : System := { s with down := Function.update s.down sock ds }

def stop (why : Stop) : System := { s with daemon := .stopped why }

/-- The function `ke_rcv` on a socket, before the rest of the activity. The first
byte of a cable is no key type. -/
def keRcv (type : KeyType) (work : List DaemonAct) : Option System :=
  match s.up sock with
  | [] => none
  | .frame t _ :: rest =>
    if t = type then
      some { s with daemon := .running work, up := Function.update s.up sock rest }
    else some (s.stop .framing)
  | .cable _ :: _ => some (s.stop .framing)

def perform (work : List DaemonAct) : DaemonAct → Option System
  | .rcvPublic sock => s.keRcv sock .clientPublic work
  | .relay sock next => s.keRcv sock .exIntermediate (.send next .intermediate :: work)
  | .send sock d =>
    some { s with
      daemon := .running work, down := Function.update s.down sock (s.down sock ++ [d]) }

/-- The function `recv_client` on a socket that has data. -/
def recvClient : Option System :=
  match s.up sock with
  | [] => none
  | .frame _ _ :: _ => some (s.stop .framing)
  | .cable _ :: rest =>
    some { s with
      daemon := .running (transferMessage s.sockets sock)
      up := Function.update s.up sock rest }

def addClient : System :=
  let sockets := s.sockets ++ [sock]
  { s with
    daemon := .running (twoPartyServer sock ++
      if sockets.length > 1 then nPartyServer sockets else [])
    sockets := sockets
    backlog := s.backlog.erase sock }

def daemonHandleDisconnect : System :=
  let sockets := disconnectClient s.sockets sock
  { s with
    daemon := if sockets.length = 0 then .stopped .assertion else .running (nPartyServer sockets)
    sockets := sockets }

/-- The client gives up: it received something other than what it waits for. -/
def lose : System := s.setClient sock { s.client sock with connected := false }

/-- The next step of a client's receive thread, with the contents of what it may send. -/
def recvThread (key : Key) (wire : List UInt8) : Option System :=
  let c := s.client sock
  match c.script with
  | .send type :: script =>
    some ((s.put sock (.frame type key)).setClient sock { c with script := script })
  | .recv d :: script =>
    match s.down sock with
    | [] => none
    | d' :: rest =>
      if d' = d then some ((s.setDown sock rest).setClient sock { c with script := script })
      else some (s.lose sock)
  | .announce :: script =>
    if c.announced then some (s.setClient sock { c with script := script })
    else some ((s.put sock (.cable wire)).setClient sock ⟨script, true, c.connected⟩)
  | [] =>
    match s.down sock with
    | [] => none
    | .ctrl rounds :: rest =>
      some ((s.setDown sock rest).setClient sock { c with script := procCtrl rounds })
    | .forwarded :: rest => some (s.setDown sock rest)
    | _ :: _ => some (s.lose sock)

end System

/-- A step of the system: a client connects, the daemon finds a connection or a
client ready, goes on with its activity or fails because a client is gone, a
thread of a client takes its next step, or a client goes. -/
inductive Action
  | connect (sock : ℕ)
  | accept (sock : ℕ)
  | hangup (sock : ℕ)
  | read (sock : ℕ)
  | work
  | fail
  | recvThread (sock : ℕ) (key : Key) (wire : List UInt8)
  | sendThread (sock : ℕ) (wire : List UInt8)
  | quit (sock : ℕ)
  deriving DecidableEq

namespace System

def connect (s : System) (sock : ℕ) : System :=
  { s with
    backlog := s.backlog ++ [sock]
    client := Function.update s.client sock ⟨twoPartyClient, false, true⟩
    up := Function.update s.up sock []
    down := Function.update s.down sock [] }

def step (s : System) : Action → Option System
  | .connect sock => if sock ∈ s.sockets ++ s.backlog then none else some (s.connect sock)
  | .accept sock =>
    if s.daemon = .running [] ∧ sock ∈ s.backlog then some (s.addClient sock) else none
  | .hangup sock =>
    if s.daemon = .running [] ∧ sock ∈ s.sockets ∧ !(s.client sock).connected then
      some (s.daemonHandleDisconnect sock)
    else none
  | .read sock =>
    if s.daemon = .running [] ∧ sock ∈ s.sockets then s.recvClient sock else none
  | .work =>
    match s.daemon with
    | .running (act :: work) => s.perform work act
    | _ => none
  | .fail =>
    match s.daemon with
    | .running (act :: _) => if (s.client act.sock).connected then none else some (s.stop .io)
    | _ => none
  | .recvThread sock key wire =>
    if (s.client sock).connected then s.recvThread sock key wire else none
  | .sendThread sock wire =>
    if (s.client sock).connected ∧ (s.client sock).announced then some (s.put sock (.cable wire))
    else none
  | .quit sock => some (s.lose sock)

def stream (s : System) (sock : ℕ) : List UInt8 := (s.up sock).flatMap Packet.bytes

end System

/-- The states that are reached by steps which meet a condition. -/
inductive Reachable (ok : System → Action → Prop) : System → Prop
  | initial : Reachable ok initial
  | step {s s' : System} {a : Action} (hs : Reachable ok s) (ha : ok s a)
      (h : s.step a = some s') : Reachable ok s'

/-- The `ke_rcv` that a step of the daemon begins with. -/
def DaemonAct.reads : DaemonAct → Option (ℕ × KeyType)
  | .rcvPublic sock => some (sock, .clientPublic)
  | .relay sock _ => some (sock, .exIntermediate)
  | .send _ _ => none

/-- Where the daemon is about to read, the bytes that are there belong to what it
reads: a frame for `ke_rcv`, a cable for `recv_client`. -/
structure Framed (s : System) : Prop where
  frame : ∀ act work sock type, s.daemon = .running (act :: work) →
    act.reads = some (sock, type) → s.stream sock ≠ [] →
      ∃ key rest, s.stream sock = keBytes type key ++ rest
  cable : s.daemon = .running [] → ∀ sock ∈ s.sockets, s.stream sock ≠ [] →
    ∃ wire rest, s.stream sock = (initCable wire).bytes ++ rest
  proceeds : s.daemon ≠ .stopped .framing

def Packet.isFrame : Packet → Bool
  | .frame _ _ => true
  | .cable _ => false

/-- The types of the frames among the packets of a channel. -/
def frames (packets : List Packet) : List KeyType :=
  packets.filterMap fun
    | .frame type _ => some type
    | .cable _ => none

/-- The frames that an activity of the daemon still has to read from a client. -/
def readsOn (sock : ℕ) (work : List DaemonAct) : List KeyType :=
  work.filterMap fun act => act.reads.bind fun r => if r.1 = sock then some r.2 else none

def System.work (s : System) : List DaemonAct :=
  match s.daemon with
  | .running work => work
  | .stopped _ => []

def System.NoCable (s : System) (sock : ℕ) : Prop := ∀ p ∈ s.up sock, p.isFrame = true

/-- All frames that the daemon still has to read from the client are on the way. -/
def System.Settled (s : System) (sock : ℕ) : Prop :=
  (readsOn sock s.work).length ≤ (frames (s.up sock)).length

/-- A client sends a cable, be it a text or its announcement, only when it owes the
daemon no frame, and the daemon begins an exchange only when it has read the cables
of those who take part. -/
def Careful (s : System) : Action → Prop
  | .accept _ => ∀ sock ∈ s.sockets, s.NoCable sock
  | .hangup sock =>
    let left := disconnectClient s.sockets sock
    2 ≤ left.length → ∀ other ∈ left, s.NoCable other
  | .recvThread sock _ _ =>
    (s.client sock).script.head? = some .announce → (s.client sock).announced = false →
      s.Settled sock
  | .sendThread sock _ => s.Settled sock
  | _ => True

end Parcel.Framing
