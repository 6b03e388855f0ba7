import Parcel.Calls
import Parcel.KeyExchange
import Parcel.X25519

/-!
# Key exchanges without entropy

The four exchanges of `key-exchange.c` with every call that can fail: `xgetrandom`,
which then leaves its destination as it was, and the calls that send and receive. Keys
carry a mark that tells whether the bytes they are computed from were filled. A failed
call is noticed in `server_send_ctrl_key` and in `init_wire`. It is ignored in `point_d`,
and the null pointer of `init_wire` is dereferenced.
-/

namespace Parcel.Entropy
open ByteStrings Aes Calls

/-- The calls of an exchange; `filled` is the mark of the key in what is sent. -/
inductive Call
  | getrandom (len : ℕ)
  | send (sock : ℕ) (bytes : List UInt8) (filled : Bool)
  | recv (sock len : ℕ)
  | recvCable (sock : ℕ)

abbrev Answer : Call → Type
  | .getrandom len => Option (Vector UInt8 len)
  | .send .. => Bool
  | .recv .. => Option (List UInt8)
  | .recvCable _ => Option Cable

/-- The results of the calls, by the number of the call. -/
structure Environment where
  random : ℕ → (len : ℕ) → Option (Vector UInt8 len)
  sent : ℕ → Bool
  received : ℕ → Option (List UInt8)
  cable : ℕ → Option Cable

def Environment.answer (env : Environment) (t : ℕ) : (c : Call) → Answer c
  | .getrandom len => env.random t len
  | .send .. => env.sent t
  | .recv .. => env.received t
  | .recvCable _ => env.cable t

abbrev Io := Prog Call Answer

structure Tracked (α : Type) where
  val : α
  filled : Bool

def Tracked.map {α β : Type} (f : α → β) (x : Tracked α) : Tracked β := ⟨f x.val, x.filled⟩

/-- The function `xgetrandom`: whether it succeeds, and the destination afterwards. -/
def xgetrandom {n : ℕ} (dst : Vector UInt8 n) : Io (Bool × Vector UInt8 n) :=
  .call (.getrandom n) fun (r : Option (Vector UInt8 n)) => .ret (r.isSome, r.getD dst)

def xsendall (sock : ℕ) (bytes : Tracked (List UInt8)) : Io Bool :=
  .call (.send sock bytes.val bytes.filled) .ret

def keSnd (sock : ℕ) (type : KeyType) (key : Tracked Key) : Io Bool :=
  xsendall sock (key.map (keBytes type))

def keRcv (sock : ℕ) (type : KeyType) : Io (Option Key) :=
  .call (.recv sock keSize) fun (r : Option (List UInt8)) => .ret (r.bind (keParse type))

def recvCable (sock : ℕ) : Io (Option Cable) := .call (.recvCable sock) .ret

/-- The function `point_d`, which drops the result of `xgetrandom`. -/
def pointD : Io (Tracked Key) :=
  (xgetrandom (Vector.replicate 32 0)).bind fun r => .ret ⟨Parcel.pointD r.2, r.1⟩

/-- The IV that `init_wire` draws; the wire is `NULL` without it. -/
def wireIv : Io (Option Block) :=
  (xgetrandom (Vector.replicate 16 0)).bind fun r => .ret (if r.1 then some r.2 else none)

section

variable (x25519 : Key → Key → Key)

/-- The function `two_party_client`: the result and the control key afterwards. -/
def twoPartyClient (server : ℕ) (ctrlKey : Key) : Io (Bool × Key) :=
  pointD.bind fun secretKey =>
  (keSnd server .clientPublic (secretKey.map (pointQ x25519))).bind fun ok =>
  if !ok then .ret (false, ctrlKey)
  else
    (keRcv server .serverPublic).bind fun
    | none => .ret (false, ctrlKey)
    | some serverPublicKey =>
      let sharedSecret := pointKx x25519 secretKey.val serverPublicKey
      (recvCable server).bind fun
      | none => .ret (false, ctrlKey)
      | some cable =>
        let r := openCable cable sharedSecret none
        if !r.1 then .ret (false, ctrlKey)
        -- the type is an assertion
        else if wireGetType r.2 ≠ WireType.sessionKey.code then .crash
        else .ret (true, readVec 32 r.2.data)

/-- The function `transmit_cabled_wire`, which reads the length of the wire. -/
def transmitCabledWire (sock : ℕ) (key : Tracked Key) : Option Wire → Io Bool
  | none => .crash
  | some wire => xsendall sock (key.map fun key => (initCable (encryptWire wire key).bytes).bytes)

def twoPartyServer (sock : ℕ) (sessionKey : Key) : Io (Bool × Key) :=
  (keRcv sock .clientPublic).bind fun
  | none => .ret (false, sessionKey)
  | some publicKey =>
    pointD.bind fun secretKey =>
    (keSnd sock .serverPublic (secretKey.map (pointQ x25519))).bind fun ok =>
    if !ok then .ret (false, sessionKey)
    else
      let sharedSecret := secretKey.map fun key => pointKx x25519 key publicKey
      wireIv.bind fun iv =>
      (transmitCabledWire sock sharedSecret (initWireFromSessionKey sessionKey iv)).bind fun ok =>
      .ret (ok, sessionKey)

end

/-- The loop of `server_send_ctrl_key` over the sockets that are left. -/
def sendToAll (bytes : Tracked (List UInt8)) : List ℕ → Io Bool
  | [] => .ret true
  | sock :: socks =>
    (xsendall sock bytes).bind fun ok => if !ok then .ret false else sendToAll bytes socks

/-- The function `server_send_ctrl_key` on the sockets from index 1 on. -/
def serverSendCtrlKey (socks : List ℕ) (ctrlKey : Key) : Io (Bool × Key) :=
  (xgetrandom (Vector.replicate 32 0)).bind fun r =>
  if !r.1 then .ret (false, ctrlKey)
  else
    wireIv.bind fun iv =>
    match initCtrlKeyCable (socks.length - 1) r.2 ctrlKey iv with
    | none => .crash
    | some cable => (sendToAll ⟨cable.bytes, r.1⟩ socks).bind fun ok => .ret (ok, r.2)

/-- The loop of `rotate_intermediates` over the sockets with the ones to their right;
the server's own bytes have no part in the keys. -/
def rotateIntermediates : List (ℕ × ℕ) → Io Bool
  | [] => .ret true
  | (sock, next) :: rest =>
    (keRcv sock .exIntermediate).bind fun
    | none => .ret false
    | some key =>
      (keSnd next .exIntermediate ⟨key, true⟩).bind fun ok =>
      if !ok then .ret false else rotateIntermediates rest

def serverRounds (socks : List ℕ) (ctrlKey : Key) : ℕ → Io (Bool × Key)
  | 0 => .ret (true, ctrlKey)
  | rounds + 1 =>
    (rotateIntermediates (socks.zip (socks.rotate 1))).bind fun ok =>
    if !ok then .ret (false, ctrlKey) else serverRounds socks ctrlKey rounds

/-- The function `n_party_server`; the number of sockets is asserted not to be zero. -/
def nPartyServer (socks : List ℕ) (ctrlKey : Key) : Io (Bool × Key) :=
  if socks.length = 0 then .crash
  else if socks.length - 1 < 1 then .ret (true, ctrlKey)
  else
    (serverSendCtrlKey socks ctrlKey).bind fun r =>
    if !r.1 then .ret r else serverRounds socks r.2 (socks.length - 1)

section

variable (x25519 : Key → Key → Key)

/-- The loop of `n_party_client` with the number of rounds that are left. -/
def clientRounds (server : ℕ) (secretKey : Tracked Key) (sessionKey : Key) : ℕ → Io (Bool × Key)
  | 0 => .ret (true, sessionKey)
  | rounds + 1 =>
    (keRcv server .exIntermediate).bind fun
    | none => .ret (false, sessionKey)
    | some intermediatePublic =>
      let sharedSecret := secretKey.map fun key => pointKx x25519 key intermediatePublic
      if rounds = 0 then .ret (true, sha256KeyDigest sharedSecret.val)
      else
        (keSnd server .exIntermediate sharedSecret).bind fun ok =>
        if !ok then .ret (false, sessionKey)
        else clientRounds server secretKey sessionKey rounds

def nPartyClient (server : ℕ) (sessionKey : Key) (rounds : ℕ) : Io (Bool × Key) :=
  pointD.bind fun secretKey =>
  (keSnd server .exIntermediate (secretKey.map (pointQ x25519))).bind fun ok =>
  if !ok then .ret (false, sessionKey)
  else clientRounds x25519 server secretKey sessionKey rounds

end

inductive Exchange
  | twoPartyClient (server : ℕ) (ctrlKey : Key)
  | twoPartyServer (sock : ℕ) (sessionKey : Key)
  | nPartyClient (server : ℕ) (sessionKey : Key) (rounds : ℕ)
  | nPartyServer (socks : List ℕ) (ctrlKey : Key)

def Exchange.program (x25519 : Key → Key → Key) : Exchange → Io (Bool × Key)
  | .twoPartyClient server ctrlKey => Entropy.twoPartyClient x25519 server ctrlKey
  | .twoPartyServer sock sessionKey => Entropy.twoPartyServer x25519 sock sessionKey
  | .nPartyClient server sessionKey rounds => Entropy.nPartyClient x25519 server sessionKey rounds
  | .nPartyServer socks ctrlKey => Entropy.nPartyServer socks ctrlKey

abbrev Record := List (Σ c, Answer c)

/-- A call of `xgetrandom` that fails. -/
def Fails : (Σ c, Answer c) → Prop
  | ⟨.getrandom _, r⟩ => r = (none : Option (Vector UInt8 _))
  | _ => False

/-- A key that is sent and was computed from bytes that were not filled. -/
def Leaks : (Σ c, Answer c) → Prop
  | ⟨.send _ _ filled, ok⟩ => filled = false ∧ ok = true
  | _ => False

/-- After a failure the function returns `false` and no such key is sent. -/
def Respects (r : Option (Bool × Key) × Record) : Prop :=
  (∃ e ∈ r.2, Fails e) → (∃ key, r.1 = some (false, key)) ∧ ∀ e ∈ r.2, ¬Leaks e

/-- The bytes that the function draws are there, or its next call ends it. -/
def Exchange.Supplied (env : Environment) : Exchange → Prop
  | .twoPartyClient .. => env.sent 1 = false ∨ (env.random 0 32).isSome = true
  | .twoPartyServer .. =>
    (env.received 0).bind (keParse .clientPublic) = none ∨ env.sent 2 = false ∨
      (env.random 1 32).isSome = true ∧ (env.random 3 16).isSome = true
  | .nPartyClient .. => env.sent 1 = false ∨ (env.random 0 32).isSome = true
  | .nPartyServer socks _ =>
    socks.length ≤ 1 ∨ (env.random 0 32).isSome = false ∨ (env.random 1 16).isSome = true

section

variable {α : Type} (env : Environment) (t : ℕ)

theorem run_pointD (f : Tracked Key → Io α) :
    (pointD.bind f).run env.answer t =
      let r := (f ⟨Parcel.pointD ((env.random t 32).getD (Vector.replicate 32 0)),
        (env.random t 32).isSome⟩).run env.answer (t + 1)
      (r.1, ⟨.getrandom 32, env.random t 32⟩ :: r.2) := rfl

theorem run_xsendall (sock : ℕ) (bytes : Tracked (List UInt8)) (f : Bool → Io α) :
    ((xsendall sock bytes).bind f).run env.answer t =
      let r := (f (env.sent t)).run env.answer (t + 1)
      (r.1, ⟨.send sock bytes.val bytes.filled, env.sent t⟩ :: r.2) := rfl

theorem run_keSnd (sock : ℕ) (type : KeyType) (key : Tracked Key) (f : Bool → Io α) :
    ((keSnd sock type key).bind f).run env.answer t =
      let r := (f (env.sent t)).run env.answer (t + 1)
      (r.1, ⟨.send sock (keBytes type key.val) key.filled, env.sent t⟩ :: r.2) := rfl

theorem run_keRcv (sock : ℕ) (type : KeyType) (f : Option Key → Io α) :
    ((keRcv sock type).bind f).run env.answer t =
      let r := (f ((env.received t).bind (keParse type))).run env.answer (t + 1)
      (r.1, ⟨.recv sock keSize, env.received t⟩ :: r.2) := rfl

theorem run_recvCable (sock : ℕ) (f : Option Cable → Io α) :
    ((recvCable sock).bind f).run env.answer t =
      let r := (f (env.cable t)).run env.answer (t + 1)
      (r.1, ⟨.recvCable sock, env.cable t⟩ :: r.2) := rfl

theorem run_xgetrandom {n : ℕ} (dst : Vector UInt8 n) (f : Bool × Vector UInt8 n → Io α) :
    ((xgetrandom dst).bind f).run env.answer t =
      let r := (f ((env.random t n).isSome, (env.random t n).getD dst)).run env.answer (t + 1)
      (r.1, ⟨.getrandom n, env.random t n⟩ :: r.2) := rfl

theorem run_wireIv (f : Option Block → Io α) :
    (wireIv.bind f).run env.answer t =
      let iv := if (env.random t 16).isSome then
        some ((env.random t 16).getD (Vector.replicate 16 0)) else none
      let r := (f iv).run env.answer (t + 1)
      (r.1, ⟨.getrandom 16, env.random t 16⟩ :: r.2) := rfl

end

/-! ## Calls that do not draw -/

/-- Calls other than `xgetrandom`. -/
def Quiet : Call → Prop
  | .getrandom _ => False
  | _ => True

section

variable {env : Environment} {t : ℕ} {r : Option (Bool × Key) × Record}

theorem not_fails_of_quiet {e : Σ c, Answer c} (h : Quiet e.1) : ¬Fails e := by
  obtain ⟨c, a⟩ := e
  cases c with
  | getrandom len => exact absurd h id
  | send sock bytes filled => exact id
  | recv sock len => exact id
  | recvCable sock => exact id

theorem quiet_run {prog : Io (Bool × Key)} (h : prog.Only Quiet) :
    ∀ e ∈ (prog.run env.answer t).2, ¬Fails e :=
  fun e he => not_fails_of_quiet (h.run env.answer t e he)

theorem xsendall_quiet (sock : ℕ) (bytes : Tracked (List UInt8)) :
    (xsendall sock bytes).Only Quiet :=
  ⟨trivial, fun _ => trivial⟩

theorem keSnd_quiet (sock : ℕ) (type : KeyType) (key : Tracked Key) :
    (keSnd sock type key).Only Quiet :=
  xsendall_quiet _ _

theorem keRcv_quiet (sock : ℕ) (type : KeyType) : (keRcv sock type).Only Quiet :=
  ⟨trivial, fun _ => trivial⟩

theorem recvCable_quiet (sock : ℕ) : (recvCable sock).Only Quiet :=
  ⟨trivial, fun _ => trivial⟩

theorem respects_of_none (h : ∀ e ∈ r.2, ¬Fails e) : Respects r := by
  rintro ⟨e, he, hfails⟩
  exact absurd hfails (h e he)

theorem not_respects_of_leak {e e' : Σ c, Answer c} (he : e ∈ r.2) (hfails : Fails e)
    (he' : e' ∈ r.2) (hleaks : Leaks e') : ¬Respects r :=
  fun h => (h ⟨e, he, hfails⟩).2 e' he' hleaks

theorem not_respects_of_crash {e : Σ c, Answer c} (he : e ∈ r.2) (hfails : Fails e)
    (hcrash : r.1 = none) : ¬Respects r := by
  intro h
  obtain ⟨⟨key, hkey⟩, -⟩ := h ⟨e, he, hfails⟩
  rw [hcrash] at hkey
  cases hkey

theorem fails_random {n : ℕ} (h : (env.random t n).isSome = false) :
    Fails ⟨.getrandom n, env.random t n⟩ :=
  Option.isNone_iff_eq_none.mp (by rw [← Option.not_isSome, h]; rfl)

theorem not_fails_random {n : ℕ} (h : (env.random t n).isSome = true) :
    ¬Fails ⟨.getrandom n, env.random t n⟩ := by
  intro hfails
  have hnone : env.random t n = none := hfails
  rw [hnone] at h
  cases h

/-- An entry that neither fails nor leaks does not matter. -/
theorem respects_cons {out : Option (Bool × Key)} {log : Record} {e : Σ c, Answer c}
    (hfails : ¬Fails e) (hleaks : ¬Leaks e) : Respects (out, e :: log) ↔ Respects (out, log) := by
  constructor
  · rintro h ⟨e', he', hfails'⟩
    obtain ⟨hfalse, hsafe⟩ := h ⟨e', List.mem_cons_of_mem _ he', hfails'⟩
    exact ⟨hfalse, fun e'' he'' => hsafe e'' (List.mem_cons_of_mem _ he'')⟩
  · rintro h ⟨e', he', hfails'⟩
    rcases List.mem_cons.mp he' with rfl | he'
    · exact absurd hfails' hfails
    · obtain ⟨hfalse, hsafe⟩ := h ⟨e', he', hfails'⟩
      refine ⟨hfalse, fun e'' he'' => ?_⟩
      rcases List.mem_cons.mp he'' with rfl | he''
      · exact hleaks
      · exact hsafe e'' he''

theorem not_leaks_filled (sock : ℕ) (bytes : List UInt8) (ok : Bool) :
    ¬Leaks ⟨.send sock bytes true, ok⟩ := by
  rintro ⟨h, -⟩
  cases h

theorem not_leaks_unsent (sock : ℕ) (bytes : List UInt8) (filled : Bool) :
    ¬Leaks ⟨.send sock bytes filled, false⟩ := by
  rintro ⟨-, h⟩
  cases h

/-- A public key is sent right after the secret key is drawn, whatever was drawn. -/
theorem publicKey_respects_iff (sock : ℕ) (type : KeyType) (x25519 : Key → Key → Key) (out : Key)
    (rest : Tracked Key → Io (Bool × Key)) :
    Respects ((pointD.bind fun secretKey =>
      (keSnd sock type (secretKey.map (pointQ x25519))).bind fun ok =>
      if !ok then .ret (false, out) else rest secretKey).run env.answer t) ↔
      env.sent (t + 1) = false ∨ (env.random t 32).isSome = true ∧
        Respects ((rest ⟨Parcel.pointD ((env.random t 32).getD (Vector.replicate 32 0)),
          true⟩).run env.answer (t + 1 + 1)) := by
  rw [run_pointD]
  dsimp only
  rw [run_keSnd]
  dsimp only
  cases hsent : env.sent (t + 1) with
  | false =>
    refine iff_of_true (fun _ => ⟨⟨out, rfl⟩, ?_⟩) (Or.inl rfl)
    intro e he
    rcases List.mem_pair.mp he with rfl | rfl
    · exact id
    · exact not_leaks_unsent _ _ _
  | true =>
    cases hdrawn : (env.random t 32).isSome with
    | false =>
      -- the key of the zero bytes is on its way
      refine iff_of_false (not_respects_of_leak List.mem_cons_self (fails_random hdrawn)
        (List.mem_cons_of_mem _ List.mem_cons_self) ⟨rfl, rfl⟩) ?_
      simp
    | true =>
      rw [respects_cons (not_fails_random hdrawn) id]
      dsimp only [Tracked.map]
      rw [respects_cons id (not_leaks_filled _ _ _)]
      simp

theorem respects_of_quiet {prog : Io (Bool × Key)} (h : prog.Only Quiet) :
    Respects (prog.run env.answer t) :=
  respects_of_none (quiet_run h)

theorem twoPartyClient_respects_iff (x25519 : Key → Key → Key) (server : ℕ) (ctrlKey : Key) :
    Respects ((twoPartyClient x25519 server ctrlKey).run env.answer t) ↔
      env.sent (t + 1) = false ∨ (env.random t 32).isSome = true := by
  rw [twoPartyClient, publicKey_respects_iff, and_iff_left]
  apply respects_of_quiet
  apply (keRcv_quiet _ _).bind
  intro serverPublicKey
  cases serverPublicKey with
  | none => trivial
  | some serverPublicKey =>
    apply (recvCable_quiet _).bind
    intro cable
    cases cable with
    | none => trivial
    | some cable =>
      dsimp only
      split
      · trivial
      · split <;> trivial

theorem clientRounds_quiet (x25519 : Key → Key → Key) (server : ℕ) (secretKey : Tracked Key)
    (sessionKey : Key) (rounds : ℕ) :
    (clientRounds x25519 server secretKey sessionKey rounds).Only Quiet := by
  induction rounds with
  | zero => trivial
  | succ rounds ih =>
    apply (keRcv_quiet _ _).bind
    intro intermediatePublic
    cases intermediatePublic with
    | none => trivial
    | some intermediatePublic =>
      dsimp only
      split
      · trivial
      · apply (keSnd_quiet _ _ _).bind
        intro ok
        split
        · trivial
        · exact ih

theorem nPartyClient_respects_iff (x25519 : Key → Key → Key) (server : ℕ) (sessionKey : Key)
    (rounds : ℕ) : Respects ((nPartyClient x25519 server sessionKey rounds).run env.answer t) ↔
      env.sent (t + 1) = false ∨ (env.random t 32).isSome = true := by
  rw [nPartyClient, publicKey_respects_iff, and_iff_left]
  exact respects_of_quiet (clientRounds_quiet x25519 server _ sessionKey rounds)

/-! ## Servers -/

theorem wireIv_respects_iff {rest : Option Block → Io (Bool × Key)} (hnone : rest none = .crash)
    (hquiet : ∀ iv, (rest (some iv)).Only Quiet) :
    Respects ((wireIv.bind rest).run env.answer t) ↔ (env.random t 16).isSome = true := by
  rw [run_wireIv]
  dsimp only
  cases hdrawn : (env.random t 16).isSome with
  | true =>
    rw [respects_cons (not_fails_random hdrawn) id]
    exact iff_of_true (respects_of_quiet (hquiet _)) rfl
  | false =>
    refine iff_of_false (not_respects_of_crash List.mem_cons_self (fails_random hdrawn) ?_)
      Bool.false_ne_true
    rw [if_neg Bool.false_ne_true, hnone]
    rfl

theorem twoPartyServer_respects_iff (x25519 : Key → Key → Key) (sock : ℕ) (sessionKey : Key) :
    Respects ((twoPartyServer x25519 sock sessionKey).run env.answer t) ↔
      (env.received t).bind (keParse .clientPublic) = none ∨ env.sent (t + 1 + 1) = false ∨
        (env.random (t + 1) 32).isSome = true ∧ (env.random (t + 1 + 1 + 1) 16).isSome = true := by
  rw [twoPartyServer, run_keRcv]
  dsimp only
  rw [respects_cons id id]
  cases (env.received t).bind (keParse .clientPublic) with
  | none => exact iff_of_true (respects_of_none fun e he => absurd he List.not_mem_nil) (Or.inl rfl)
  | some publicKey =>
    dsimp only
    rw [publicKey_respects_iff, wireIv_respects_iff]
    · simp
    · rfl
    · exact fun iv => Prog.Only.bind (xsendall_quiet _ _) fun _ => trivial

theorem sendToAll_quiet (bytes : Tracked (List UInt8)) (socks : List ℕ) :
    (sendToAll bytes socks).Only Quiet := by
  induction socks with
  | nil => trivial
  | cons sock socks ih =>
    apply (xsendall_quiet _ _).bind
    intro ok
    split
    · trivial
    · exact ih

theorem rotateIntermediates_quiet (pairs : List (ℕ × ℕ)) :
    (rotateIntermediates pairs).Only Quiet := by
  induction pairs with
  | nil => trivial
  | cons pair pairs ih =>
    apply (keRcv_quiet _ _).bind
    intro key
    cases key with
    | none => trivial
    | some key =>
      apply (keSnd_quiet _ _ _).bind
      intro ok
      split
      · trivial
      · exact ih

theorem serverRounds_quiet (socks : List ℕ) (ctrlKey : Key) (rounds : ℕ) :
    (serverRounds socks ctrlKey rounds).Only Quiet := by
  induction rounds with
  | zero => trivial
  | succ rounds ih =>
    apply (rotateIntermediates_quiet _).bind
    intro ok
    split
    · trivial
    · exact ih

theorem serverSendCtrlKey_respects_iff (socks : List ℕ) (ctrlKey : Key)
    {rest : Bool × Key → Io (Bool × Key)} (hfalse : ∀ key, rest (false, key) = .ret (false, key))
    (hquiet : ∀ r, (rest r).Only Quiet) :
    Respects (((serverSendCtrlKey socks ctrlKey).bind rest).run env.answer t) ↔
      (env.random t 32).isSome = false ∨ (env.random (t + 1) 16).isSome = true := by
  rw [serverSendCtrlKey, Prog.bind_assoc, run_xgetrandom]
  dsimp only
  cases hdrawn : (env.random t 32).isSome with
  | false =>
    refine iff_of_true (fun _ => ?_) (Or.inl rfl)
    rw [Bool.not_false, if_pos rfl, Prog.ret_bind, hfalse]
    refine ⟨⟨ctrlKey, rfl⟩, fun e he => ?_⟩
    obtain rfl := List.mem_singleton.mp he
    exact id
  | true =>
    rw [respects_cons (not_fails_random hdrawn) id, Bool.not_true, if_neg Bool.false_ne_true,
      Prog.bind_assoc, wireIv_respects_iff]
    · simp
    · rfl
    · intro iv
      generalize initCtrlKeyCable _ _ _ (some iv) = cable
      cases cable with
      | none => trivial
      | some cable =>
        rw [Prog.bind_assoc]
        exact (sendToAll_quiet _ _).bind fun ok => hquiet _

theorem nPartyServer_respects_iff (socks : List ℕ) (ctrlKey : Key) :
    Respects ((nPartyServer socks ctrlKey).run env.answer t) ↔
      socks.length ≤ 1 ∨ (env.random t 32).isSome = false ∨
        (env.random (t + 1) 16).isSome = true := by
  rw [nPartyServer]
  by_cases hmany : 1 < socks.length
  · rw [if_neg (by omega), if_neg (by omega), serverSendCtrlKey_respects_iff]
    · simp [hmany]
    · exact fun key => rfl
    · intro r
      split
      · trivial
      · exact serverRounds_quiet _ _ _
  · refine iff_of_true ?_ (Or.inl (not_lt.mp hmany))
    apply respects_of_quiet
    split
    · trivial
    · rw [if_pos (by omega)]
      trivial

end

/-- The functions respect a failure of the entropy source exactly when no draw that
they rely on fails: the renewed control key is the only one they look at. -/
theorem entropy_failure_respected_iff (x25519 : Key → Key → Key) (exchange : Exchange)
    (env : Environment) :
    Respects ((exchange.program x25519).run env.answer 0) ↔ exchange.Supplied env := by
  cases exchange with
  | twoPartyClient server ctrlKey => exact twoPartyClient_respects_iff x25519 server ctrlKey
  | twoPartyServer sock sessionKey => exact twoPartyServer_respects_iff x25519 sock sessionKey
  | nPartyClient server sessionKey rounds =>
    exact nPartyClient_respects_iff x25519 server sessionKey rounds
  | nPartyServer socks ctrlKey => exact nPartyServer_respects_iff socks ctrlKey

/-- The source of entropy fails and everything else works. -/
def noEntropy : Environment :=
  ⟨fun _ _ => none, fun _ => true, fun _ => some (List.replicate 33 0), fun _ => none⟩

/-- The joining client sends the public key of zero bytes and goes on. -/
theorem zero_key_sent :
    ¬Respects (((Exchange.twoPartyClient 0 (Vector.replicate 32 0)).program
      X25519.x25519).run noEntropy.answer 0) := by
  change ¬Respects ((twoPartyClient X25519.x25519 0 (Vector.replicate 32 0)).run
    noEntropy.answer 0)
  rw [twoPartyClient_respects_iff]
  simp [noEntropy]

end Parcel.Entropy
