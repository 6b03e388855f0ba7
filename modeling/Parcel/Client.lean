import Parcel.Messages

/-!
# Handling of received wires

The path of a cable through the client: `decrypt_cabled_wire`, the dispatch of
`handle_wire` and the key update of `proc_ctrl`. What the handlers depend on
outside of the wire (the key exchange over the socket, the announcement that is
sent, the file that is written) enters through its outcome.
-/

namespace Parcel
open ByteStrings Aes

structure Keys where
  session : Key
  ctrl : Key
  deriving DecidableEq

/-- The part of `client_t` that `handle_wire` reads and writes. -/
structure ClientState where
  keys : Keys
  connAnnounced : Bool

/-- Outcomes of what the handlers do outside of the client's state:
`n_party_client` for a number of rounds, `announce_connection` and `proc_file`. -/
structure Outcomes where
  nPartyClient : ℕ → Option Key
  announceConnection : Bool
  procFile : List UInt8 → Bool

def decryptCabledWire (ctx : ClientState) (cable : Cable) : Option Wire :=
  let r := openCable cable ctx.keys.session (some ctx.keys.ctrl)
  if r.1 then some r.2 else none

/-- The function `proc_ctrl`: the session key stays zero unless there is an exchange. -/
def procCtrl (env : Outcomes) (ctx : ClientState) (data : List UInt8) : Bool × ClientState :=
  let ctrl := Msg.ofBytes 2 data
  let session :=
    if ctrl.type = CtrlMsgType.dhke.code then env.nPartyClient (ctrlMsgGetCnt ctrl)
    else some (Vector.replicate 32 0)
  match session with
  | none => (false, ctx)
  | some session =>
    let ctx := { ctx with keys := ⟨session, readVec 32 ctrl.data⟩ }
    if ctx.connAnnounced then (true, ctx)
    else (env.announceConnection, { ctx with connAnnounced := env.announceConnection })

/-- The keys after a control message that the daemon built: its key becomes the
control key, and the exchange gives the session key. -/
theorem procCtrl_initCtrl {env : Outcomes} {ctx : ClientState} {count : ℕ}
    {renewedKey session : Key}
    {data pad : List UInt8}
    (hdata : Msg.ofBytes 2 data = { initCtrl count renewedKey with
      data := (initCtrl count renewedKey).data ++ pad })
    (hsession : env.nPartyClient (count % 2 ^ 16) = some session) :
    (procCtrl env ctx data).2.keys = ⟨session, renewedKey⟩ := by
  obtain ⟨-, hkey, htype, hcnt⟩ := initCtrl_spec count renewedKey
  have hcnt' : ctrlMsgGetCnt { initCtrl count renewedKey with
      data := renewedKey.toList ++ pad } = count % 2 ^ 16 := hcnt
  rw [procCtrl, hdata, htype, hkey, if_pos rfl, hcnt', hsession]
  dsimp only
  rw [readVec_append]
  by_cases hann : ctx.connAnnounced = true
  · rw [if_pos hann]
  · rw [if_neg hann]

/-- The cases of the switch in `handle_wire`. -/
inductive Handler
  | ctrl | file | text | stat | default
  deriving DecidableEq, Repr

def handlerOf (type : UInt8) : Handler :=
  if type = WireType.ctrl.code then .ctrl
  else if type = WireType.file.code then .file
  else if type = WireType.text.code then .text
  else if type = WireType.stat.code then .stat
  else .default

def handleWire (env : Outcomes) (ctx : ClientState) (wire : Wire) : Bool × ClientState :=
  match handlerOf (wireGetType wire) with
  | .ctrl => procCtrl env ctx wire.data
  | .file => (env.procFile wire.data, ctx)
  | .text => ((procText wire.data).toBool, ctx)
  | .stat => ((procStat wire.data).toBool, ctx)
  | .default => (false, ctx)

/-- One turn of the loop in `recv_thread`, with the cable that it received. -/
def recvThread (env : Outcomes) (ctx : ClientState) (cable : Cable) : ClientState :=
  match decryptCabledWire ctx cable with
  | none => ctx
  | some wire => (handleWire env ctx wire).2

theorem handleWire_keys {env : Outcomes} {ctx : ClientState} {wire : Wire}
    (h : (handleWire env ctx wire).2.keys ≠ ctx.keys) :
    handlerOf (wireGetType wire) = .ctrl := by
  unfold handleWire at h
  cases hh : handlerOf (wireGetType wire) with
  | ctrl => rfl
  | file => exact absurd (by rw [hh]) h
  | text => exact absurd (by rw [hh]) h
  | stat => exact absurd (by rw [hh]) h
  | default => exact absurd (by rw [hh]) h

/-- The wire in a cable, as `decrypt_wire` finds it. -/
def cabledWire (cable : Cable) : Wire := Wire.ofBytes (getCabledWire cable).2

theorem cabledWire_initCable (w : Wire) : cabledWire (initCable w.bytes) = w := by
  rw [cabledWire, getCabledWire, initCable, Wire.ofBytes_bytes]

/-- The key that the MACs of the wire are checked with. -/
def verifyingKey (keys : Keys) (cable : Cable) : Option Key :=
  selectedKey (cabledWire cable) keys.session (some keys.ctrl)

def typeUnder (w : Wire) (key : Key) : UInt8 :=
  (wireDecryptHeader (aes128Init w.iv key.cipher) w).2.type

theorem decryptVerified_header {w w' : Wire} {len : ℕ} {cipher cmac : Aes128}
    (h : decryptVerified w len cipher cmac = (true, w')) :
    w'.header = (wireDecryptHeader cipher w).2 := by
  rw [decryptVerified] at h
  dsimp only at h
  split at h
  · cases h
  · split at h
    · cases h
    · rw [← (Prod.mk.inj h).2]

theorem decryptWire_type {w w' : Wire} {len : ℕ} {key1 : Key} {key2 : Option Key}
    (h : decryptWire w len key1 key2 = (true, w')) :
    ∃ key, selectedKey w key1 key2 = some key ∧ wireGetType w' = typeUnder w key := by
  rw [decryptWire_eq] at h
  cases hk : selectedKey w key1 key2 with
  | none =>
    rw [hk] at h
    cases (Prod.mk.inj h).1
  | some key =>
    rw [hk] at h
    refine ⟨key, rfl, ?_⟩
    rw [wireGetType, decryptVerified_header h, typeUnder]

theorem decryptCabledWire_none {ctx : ClientState} {cable : Cable}
    (h : verifyingKey ctx.keys cable = none) : decryptCabledWire ctx cable = none := by
  rw [verifyingKey, cabledWire] at h
  rw [decryptCabledWire, openCable, decryptWire_eq, h]
  exact if_neg Bool.false_ne_true

/-- An accepted cable has a verifying key, and the type dispatched on is the one
under that key. -/
theorem decryptCabledWire_some {ctx : ClientState} {cable : Cable} {wire : Wire}
    (h : decryptCabledWire ctx cable = some wire) :
    ∃ key, verifyingKey ctx.keys cable = some key ∧
      wireGetType wire = typeUnder (cabledWire cable) key := by
  rw [decryptCabledWire] at h
  rcases hr : openCable cable ctx.keys.session (some ctx.keys.ctrl) with ⟨ok, w'⟩
  rw [hr] at h
  cases ok with
  | false => cases h
  | true =>
    obtain rfl := Option.some.inj h
    exact decryptWire_type hr

/-- A client whose session key is zero and whose control key is all ones. -/
def onesClient : ClientState := ⟨⟨Vector.replicate 32 0, Vector.replicate 32 1⟩, true⟩

/-- Outcomes of an exchange that ends on the all-sevens key. -/
def sevens : Outcomes := ⟨fun _ => some (Vector.replicate 32 7), true, fun _ => true⟩

end Parcel
