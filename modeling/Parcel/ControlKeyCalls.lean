import Parcel.ControlKey
import Parcel.Entropy
import Parcel.Segmentation
import Parcel.X25519Agreement

/-!
# The control key of a new client, call by call

The programs of `two_party_server` and `two_party_client` with all their calls, in runs in
which no call fails and each side receives what the other one sends.
-/

namespace Parcel.Entropy
open ByteStrings Aes Calls

/-- No call fails. -/
structure Environment.Reliable (env : Environment) : Prop where
  random (t n : ℕ) : ∃ r, env.random t n = some r
  sent (t : ℕ) : env.sent t = true
  received (t : ℕ) : ∃ bytes, env.received t = some bytes
  cable (t : ℕ) : ∃ cable, env.cable t = some cable

def sentBytes : (Σ c, Answer c) → Option (List UInt8)
  | ⟨.send _ bytes _, _⟩ => some bytes
  | _ => none

def receivedBytes : (Σ c, Answer c) → Option (List UInt8)
  | ⟨.recv .., bytes⟩ => bytes
  | ⟨.recvCable _, cable⟩ => Option.map Cable.bytes cable
  | _ => none

section

variable (x25519 : Key → Key → Key) {env : Environment} (henv : env.Reliable) {t : ℕ}
  {bytes : List UInt8}

include henv

/-- The daemon answers a key with its own one and with the cable of the exchange. -/
theorem twoPartyServer_run (sock : ℕ) (sessionKey : Key) (hreceived : env.received t = some bytes) :
    let r := (twoPartyServer x25519 sock sessionKey).run env.answer t
    r.2.filterMap receivedBytes = [bytes] ∧
      ∀ publicKey, keParse .clientPublic bytes = some publicKey →
        r.1 = some (true, sessionKey) ∧
        ∃ rnd iv cable,
          (Parcel.twoPartyServer x25519 sessionKey publicKey rnd (some iv)).2 = some cable ∧
          r.2.filterMap sentBytes =
            [keBytes .serverPublic (pointQ x25519 (Parcel.pointD rnd)), cable.bytes] := by
  obtain ⟨rnd, hrnd⟩ := henv.random (t + 1) 32
  obtain ⟨iv, hiv⟩ := henv.random (t + 1 + 1 + 1) 16
  obtain ⟨w, hw⟩ : ∃ w, initWireFromSessionKey sessionKey (some iv) = some w := ⟨_, rfl⟩
  dsimp only
  rw [twoPartyServer, run_keRcv, hreceived]
  dsimp only
  rw [Option.bind_some]
  cases hparse : keParse .clientPublic bytes with
  | none => exact ⟨rfl, fun _ h => absurd h (Option.some_ne_none _).symm⟩
  | some publicKey =>
    dsimp only
    rw [run_pointD, hrnd]
    dsimp only
    rw [run_keSnd, henv.sent]
    dsimp only
    rw [Bool.not_true, if_neg Bool.false_ne_true, run_wireIv, hiv]
    dsimp only
    have hdrawn : (if (some iv).isSome then some ((some iv).getD (Vector.replicate 16 0))
        else none) = some iv := rfl
    rw [hdrawn, hw, transmitCabledWire, run_xsendall, henv.sent]
    refine ⟨rfl, fun other hother => ⟨rfl, rnd, iv, _, ?_, rfl⟩⟩
    obtain rfl := Option.some.inj hother
    rw [Parcel.twoPartyServer, hw]
    rfl

/-- The client sends its key, and goes on with the key and the cable that it receives. -/
theorem twoPartyClient_run (server : ℕ) (ctrlKey : Key) {rnd : Key}
    (hrnd : env.random t 32 = some rnd) (hreceived : env.received (t + 1 + 1) = some bytes)
    {cable : Cable} (hcable : env.cable (t + 1 + 1 + 1) = some cable) :
    let r := (twoPartyClient x25519 server ctrlKey).run env.answer t
    r.2.filterMap sentBytes = [keBytes .clientPublic (twoPartyClientPublic x25519 rnd)] ∧
      (keParse .serverPublic bytes = none → r.2.filterMap receivedBytes = [bytes]) ∧
      ∀ serverPublicKey, keParse .serverPublic bytes = some serverPublicKey →
        r.2.filterMap receivedBytes = [bytes, cable.bytes] ∧
          ∀ key, Parcel.twoPartyClient x25519 rnd serverPublicKey cable = some key →
            r.1 = some (true, key) := by
  dsimp only
  rw [twoPartyClient, run_pointD, hrnd]
  dsimp only
  rw [run_keSnd, henv.sent]
  dsimp only
  rw [Bool.not_true, if_neg Bool.false_ne_true, run_keRcv, hreceived]
  dsimp only
  rw [Option.bind_some, Option.getD_some]
  cases hparse : keParse .serverPublic bytes with
  | none => exact ⟨rfl, fun _ => rfl, fun _ h => absurd h (Option.some_ne_none _).symm⟩
  | some serverPublicKey =>
    dsimp only
    rw [run_recvCable, hcable]
    dsimp only
    -- neither the assertion nor the results behind it make a call
    generalize hrest : (if (!(openCable cable (pointKx x25519 (Parcel.pointD rnd) serverPublicKey)
      none).1) = true then (Prog.ret (false, ctrlKey) : Io (Bool × Key)) else _) = rest
    have hquiet : (rest.run env.answer (t + 1 + 1 + 1 + 1)).2 = [] := by
      rw [← hrest]
      split
      · rfl
      · split <;> rfl
    rw [hquiet]
    refine ⟨rfl, fun h => absurd h (Option.some_ne_none _),
      fun other hother => ⟨rfl, fun key hkey => ?_⟩⟩
    obtain rfl := Option.some.inj hother
    rw [Parcel.twoPartyClient] at hkey
    split at hkey
    next hopened =>
      obtain ⟨hok, htype⟩ := hopened
      rw [← hrest, hok, Bool.not_true, if_neg Bool.false_ne_true, if_neg (not_not.mpr htype)]
      obtain rfl := Option.some.inj hkey
      rfl
    next => cases hkey

end

theorem bytes_injective {c c' : Cable} (h : c.bytes = c'.bytes) : c = c' := by
  have hheader : c.header.length = c'.header.length := by
    rw [Cable.header_length, Cable.header_length]
  obtain ⟨hhead, hdata⟩ := List.append_inj h hheader
  obtain ⟨hsignature, hlen⟩ := Cable.header_injective hhead
  obtain ⟨signature, len, data⟩ := c
  obtain rfl : signature = c'.signature := hsignature
  obtain rfl : len = c'.len := hlen
  obtain rfl : data = c'.data := hdata
  rfl

theorem twoPartyClient_server {sessionKey rnd rnd' : Key} {iv : Block} {cable : Cable}
    (h : (Parcel.twoPartyServer X25519.x25519 sessionKey
      (twoPartyClientPublic X25519.x25519 rnd') rnd (some iv)).2 = some cable) :
    Parcel.twoPartyClient X25519.x25519 rnd' (pointQ X25519.x25519 (Parcel.pointD rnd)) cable =
      some sessionKey := by
  have hconnected := connectServer_ctrl (fun a b => X25519.pointD_comm a b basepoint) sessionKey
    rnd' rnd iv
  rw [connectServer] at hconnected
  rw [h, Option.bind_some] at hconnected
  obtain ⟨key, hkey, hstate⟩ := Option.map_eq_some_iff.mp hconnected
  obtain rfl : key = sessionKey := congrArg (fun client => client.keys.ctrl) hstate
  exact hkey

/-- When no call fails and each side receives what the other one sends, both functions succeed
and the new client has the key of the daemon, whatever it had before. -/
theorem control_key_delivered (sock server : ℕ) (sessionKey ctrlKey : Key)
    (daemon client : Environment) (t t' : ℕ) (hdaemon : daemon.Reliable)
    (hclient : client.Reliable) :
    let d := (twoPartyServer X25519.x25519 sock sessionKey).run daemon.answer t
    let c := (twoPartyClient X25519.x25519 server ctrlKey).run client.answer t'
    d.2.filterMap receivedBytes = c.2.filterMap sentBytes →
      c.2.filterMap receivedBytes = d.2.filterMap sentBytes →
        d.1 = some (true, sessionKey) ∧ c.1 = some (true, sessionKey) := by
  intro d c hup hdown
  obtain ⟨up, hreceived⟩ := hdaemon.received t
  obtain ⟨down, hreceived'⟩ := hclient.received (t' + 1 + 1)
  obtain ⟨hdrecv, hserver⟩ := twoPartyServer_run X25519.x25519 hdaemon sock sessionKey hreceived
  obtain ⟨rnd', hrnd⟩ := hclient.random t' 32
  obtain ⟨cable', hcable'⟩ := hclient.cable (t' + 1 + 1 + 1)
  obtain ⟨hcsent, hrejected, haccepted⟩ :=
    twoPartyClient_run X25519.x25519 hclient server ctrlKey hrnd hreceived' hcable'
  -- the daemon has the client's public key
  obtain rfl : up = keBytes .clientPublic (twoPartyClientPublic X25519.x25519 rnd') := by
    rw [hdrecv, hcsent] at hup
    exact List.singleton_inj.mp hup
  obtain ⟨hd, rnd, iv, cable, hcable, hdsent⟩ := hserver _ (keParse_keBytes _ _)
  rw [hdsent] at hdown
  refine ⟨hd, ?_⟩
  -- and the client the daemon's key and the cable
  cases hparse : keParse .serverPublic down with
  | none =>
    rw [hrejected hparse] at hdown
    exact absurd (List.cons.inj hdown).2 (List.cons_ne_nil _ _).symm
  | some serverPublicKey =>
    obtain ⟨hcrecv, hc⟩ := haccepted serverPublicKey hparse
    rw [hcrecv] at hdown
    obtain ⟨rfl, hbytes⟩ := List.cons.inj hdown
    rw [keParse_keBytes] at hparse
    obtain rfl := Option.some.inj hparse
    obtain rfl := bytes_injective (List.singleton_inj.mp hbytes)
    exact hc sessionKey (twoPartyClient_server hcable)

def replyTo (bytes : List UInt8) (cable : Cable) : Environment :=
  ⟨fun _ n => some (Vector.replicate n 0), fun _ => true, fun _ => some bytes, fun _ => some cable⟩

theorem replyTo_reliable (bytes : List UInt8) (cable : Cable) : (replyTo bytes cable).Reliable where
  random _ n := ⟨Vector.replicate n 0, rfl⟩
  sent _ := rfl
  received _ := ⟨bytes, rfl⟩
  cable _ := ⟨cable, rfl⟩

/-- The daemon with the all-fours key, and a client whose random bytes are zero. -/
theorem control_key_delivered_fours :
    ∃ daemon client : Environment, daemon.Reliable ∧ client.Reliable ∧
      ((twoPartyServer X25519.x25519 5 (Vector.replicate 32 4)).run daemon.answer 0).1 =
        some (true, Vector.replicate 32 4) ∧
      ((twoPartyClient X25519.x25519 3 (Vector.replicate 32 0)).run client.answer 0).1 =
        some (true, Vector.replicate 32 4) := by
  let up := keBytes .clientPublic
    (twoPartyClientPublic X25519.x25519 (Vector.replicate 32 0))
  have hdaemon := replyTo_reliable up (initCable [])
  obtain ⟨hdrecv, hserver⟩ := twoPartyServer_run (t := 0) X25519.x25519 hdaemon 5
    (Vector.replicate 32 4) rfl
  obtain ⟨-, rnd, iv, cable, -, hdsent⟩ := hserver _ (keParse_keBytes _ _)
  have hclient := replyTo_reliable
    (keBytes .serverPublic (pointQ X25519.x25519 (Parcel.pointD rnd))) cable
  obtain ⟨hcsent, -, haccepted⟩ := twoPartyClient_run (t := 0) X25519.x25519 hclient 3
    (Vector.replicate 32 0) rfl rfl rfl
  have hcrecv := (haccepted _ (keParse_keBytes _ _)).1
  have hends := control_key_delivered 5 3 (Vector.replicate 32 4) (Vector.replicate 32 0) _ _ 0 0
    hdaemon hclient (hdrecv.trans hcsent.symm) (hcrecv.trans hdsent.symm)
  exact ⟨_, _, hdaemon, hclient, hends⟩

end Parcel.Entropy
