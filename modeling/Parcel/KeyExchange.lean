import Parcel.Messages
import Parcel.Process
import Parcel.Sha256

/-!
# Key exchange

The frames `ke_t`, the keys of `key-exchange.c`, the two-party exchange of a
joining client with the daemon, and the programs of daemon and clients in the
exchange between all clients. The function `x25519` of a secret and a point is a
parameter.
-/

namespace Parcel
open ByteStrings Aes Process

inductive KeyType
  | none | clientPublic | serverPublic | exInitRound | exIntermediate | exLastRound
  deriving DecidableEq, Repr

def KeyType.code : KeyType → UInt8
  | .none => 0
  | .clientPublic => 1
  | .serverPublic => 2
  | .exInitRound => 3
  | .exIntermediate => 4
  | .exLastRound => 5

/-- The bytes of a `ke_t`. -/
def keBytes (type : KeyType) (key : Key) : List UInt8 := type.code :: key.toList

/-- The size of `ke_t`. -/
def keSize : ℕ := 33

/-- What `ke_rcv` makes of a received `ke_t`; it rejects another type. -/
def keParse (type : KeyType) (mem : List UInt8) : Option Key :=
  if mem.getD 0 0 = type.code then some (readVec 32 (mem.drop 1)) else none

@[simp] theorem keBytes_length (type : KeyType) (key : Key) :
    (keBytes type key).length = keSize := by
  simp [keBytes, keSize]

theorem keParse_keBytes (type : KeyType) (key : Key) :
    keParse type (keBytes type key) = some key := by
  rw [keParse, keBytes, List.getD_cons_zero, if_pos rfl, List.drop_succ_cons, List.drop_zero,
    readVec_toList]

/-- The clamping that `point_d` does to what `xgetrandom` stored. -/
def pointD (rnd : Key) : Key :=
  let d := rnd.set 0 (rnd[0] &&& 0xf8)
  let d := d.set 31 (d[31] &&& 0x7f)
  d.set 31 (d[31] ||| 0x40)

def basepoint : Key := (Vector.replicate 32 0).set 0 9

section

variable (x25519 : Key → Key → Key)

def pointQ (secretKey : Key) : Key := x25519 secretKey basepoint

def pointKx (secretKey publicKey : Key) : Key := x25519 secretKey publicKey

/-- The part of `two_party_server` after the client's key has arrived: the public
key it sends, and the cable with the server key, if `init_wire` had an IV. -/
def twoPartyServer (sessionKey publicKey rnd : Key) (iv : Option Block) : Key × Option Cable :=
  let secretKey := pointD rnd
  let sharedSecret := pointKx x25519 secretKey publicKey
  (pointQ x25519 secretKey,
    (initWireFromSessionKey sessionKey iv).map fun wire =>
      initCable (encryptWire wire sharedSecret).bytes)

/-- The public key that `two_party_client` sends. -/
def twoPartyClientPublic (rnd : Key) : Key := pointQ x25519 (pointD rnd)

/-- The rest of `two_party_client`: the control key out of the received cable. A
wire of another type fails an assertion. -/
def twoPartyClient (rnd serverPublicKey : Key) (cable : Cable) : Option Key :=
  let sharedSecret := pointKx x25519 (pointD rnd) serverPublicKey
  let r := openCable cable sharedSecret none
  if r.1 ∧ wireGetType r.2 = WireType.sessionKey.code then some (readVec 32 r.2.data)
  else none

/-- The daemon's name in a network whose clients are named by their sockets. -/
def daemon : ℕ := 0

inductive Outcome
  | rotated (ok : Bool)
  | agreed (sessionKey : Key)
  | failed

abbrev Program := Proc ℕ UInt8

def keSnd (sock : ℕ) (type : KeyType) (key : Key) : Program Unit :=
  Proc.sendAll sock (keBytes type key)

def keRcv (sock : ℕ) (type : KeyType) : Program (Option Key) :=
  (Proc.recvMany sock keSize).bind fun mem => .ret (keParse type mem)

/-- What a client does with the result of `ke_rcv`, with `rounds` more to go and
the program `rest` for them. -/
def clientReply (secretKey : Key) (rounds : ℕ) (rest : Program Outcome) :
    Option Key → Program Outcome
  | none => .ret .failed
  | some intermediatePublic =>
    let sharedSecret := pointKx x25519 secretKey intermediatePublic
    if rounds = 0 then .ret (.agreed (sha256KeyDigest sharedSecret))
    else (keSnd daemon .exIntermediate sharedSecret).bind fun _ => rest

/-- The loop of `n_party_client` with the number of rounds that are left. -/
def clientRounds (secretKey sessionKey : Key) : ℕ → Program Outcome
  | 0 => .ret (.agreed sessionKey)
  | rounds + 1 =>
    (keRcv daemon .exIntermediate).bind
      (clientReply x25519 secretKey rounds (clientRounds secretKey sessionKey rounds))

/-- The function `n_party_client`; `sessionKey` is what the array of the caller
holds before. -/
def nPartyClient (rnd sessionKey : Key) (rounds : ℕ) : Program Outcome :=
  let secretKey := pointD rnd
  (keSnd daemon .exIntermediate (pointQ x25519 secretKey)).bind fun _ =>
    clientRounds x25519 secretKey sessionKey rounds

end

/-- The socket to the right, the server's own excluded. -/
def nextSocket (count i : ℕ) : ℕ := if i = count then 1 else i + 1

/-- What the daemon does with the result of `ke_rcv` on socket `i`. -/
def passOn (count i : ℕ) (rest : Program Bool) : Option Key → Program Bool
  | none => .ret false
  | some intermediateKey =>
    (keSnd (nextSocket count i) .exIntermediate intermediateKey).bind fun _ => rest

/-- The loop of `rotate_intermediates` over the sockets that are left. -/
def rotateIntermediates (count : ℕ) : List ℕ → Program Bool
  | [] => .ret true
  | i :: is =>
    (keRcv i .exIntermediate).bind (passOn count i (rotateIntermediates count is))

/-- What the daemon does after a pass over the sockets, given the rest of the rounds. -/
def afterPass (rest : Program Outcome) : Bool → Program Outcome
  | true => rest
  | false => .ret (.rotated false)

/-- The loop over the rounds in `n_party_server`. -/
def serverRounds (count : ℕ) : ℕ → Program Outcome
  | 0 => .ret (.rotated true)
  | rounds + 1 =>
    (rotateIntermediates count (List.range' 1 count)).bind (afterPass (serverRounds count rounds))

def xorKeys (a u : Key) : Key := Vector.zipWith (· ^^^ ·) a u

theorem xorKeys_comm (a b u : Key) : xorKeys a (xorKeys b u) = xorKeys b (xorKeys a u) := by
  ext i hi
  simp only [xorKeys, Vector.getElem_zipWith]
  rw [← UInt8.xor_assoc, UInt8.xor_comm a[i], UInt8.xor_assoc]

end Parcel
