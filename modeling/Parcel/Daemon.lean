import Parcel.Wire

/-!
# The daemon's tables

The struct `server_t` and the functions of `daemon.c` that change it, on POSIX
descriptors: `init_daemon`, `add_client`, `disconnect_client` and
`daemon_handle_disconnect`. `N` is `FD_SETSIZE`, and `fds` is the descriptor set
as a set of numbers. The calls into sockets and key exchange enter through their
outcomes.
-/

namespace Parcel

variable {N : ℕ}

/-- The struct `server_t`, apart from its port and queue length. -/
structure Server (N : ℕ) where
  sfds : Vector ℕ N
  cnt : ℕ
  fds : Finset ℕ
  nfds : ℕ
  serverKey : Key

/-- The array element `sfds[i]`. -/
def Server.slot (srv : Server N) (i : ℕ) : ℕ := srv.sfds[i]?.getD 0

/-- The assignment `sfds[i] = fd`. -/
def Server.setSlot (srv : Server N) (i fd : ℕ) : Server N :=
  { srv with sfds := srv.sfds.setIfInBounds i fd }

def xfdCount (fd count : ℕ) : ℕ := if fd > count then fd else count

def xfdInitCount (fd : ℕ) : ℕ := fd

/-- The tables after `init_daemon`, given the listening socket and what
`xgetrandom` stored for the server key. -/
def initDaemon (N listening : ℕ) (rnd : Option Key) : Option (Server N) :=
  rnd.map fun key =>
    { sfds := (Vector.replicate N 0).setIfInBounds 0 listening
      cnt := 0
      fds := {listening}
      nfds := xfdInitCount listening
      serverKey := key }

/-- The outcome of an exchange with all clients: the renewed key, if there was
entropy for one, and whether every send and receive succeeded. -/
structure Exchange where
  renewed : Option Key
  ok : Bool

/-- The function `n_party_server` as its callers see it: its result and the
control key afterwards. A failed assertion has no value. -/
def nPartyServer (connectionCount : ℕ) (ctrlKey : Key) (ex : Exchange) : Option (Bool × Key) :=
  if connectionCount = 0 then none
  else if connectionCount - 1 < 1 then some (true, ctrlKey)
  else
    match ex.renewed with
    | none => some (false, ctrlKey)
    | some key => some (ex.ok, key)

/-- Outcomes of the calls that `add_client` makes. -/
structure Joining where
  accept : Option ℕ
  peerAddr : Bool
  twoParty : Bool
  exchange : Exchange

/-- The return values `-1`, `1` and `0` of `add_client`. -/
inductive AddResult
  | failed | rejected | added
  deriving DecidableEq, Repr

/-- The first free slot that the loop of `add_client` finds, `N` if there is none. -/
def Server.freeSlot (srv : Server N) : ℕ := 1 + (srv.sfds.toList.drop 1).findIdx (· == 0)

/-- The descriptor set, its maximum and the count, as `add_client` updates them
before it fills a slot. -/
def Server.watch (srv : Server N) (newClient : ℕ) : Server N :=
  { srv with
    fds := insert newClient srv.fds
    nfds := xfdCount newClient srv.nfds
    cnt := srv.cnt + 1 }

def addClient (srv : Server N) (c : Joining) : Option (AddResult × Server N) :=
  match c.accept with
  | none => some (.failed, srv)
  | some newClient =>
    if srv.cnt + 1 = N then some (.rejected, srv)
    else
      let srv := srv.watch newClient
      if !c.peerAddr then some (.failed, srv)
      else
        let srv := srv.setSlot srv.freeSlot newClient
        if !c.twoParty then some (.failed, srv)
        else if srv.cnt > 1 then
          (nPartyServer srv.cnt srv.serverKey c.exchange).map fun r =>
            (if r.1 then .added else .failed, { srv with serverKey := r.2 })
        else some (.added, srv)

def disconnectClient (srv : Server N) (clientIndex : ℕ) : Server N :=
  let srv := { srv with fds := srv.fds.erase (srv.slot clientIndex) }
  let srv :=
    if srv.cnt = 1 then srv.setSlot clientIndex 0
    else (srv.setSlot clientIndex (srv.slot srv.cnt)).setSlot srv.cnt 0
  { srv with cnt := srv.cnt - 1 }

/-- The function `daemon_handle_disconnect`; `closed` is whether `xclose`
succeeded. A clean disconnect differs in what is logged only. -/
def daemonHandleDisconnect (srv : Server N) (clientId : ℕ) (closed : Bool) (ex : Exchange) :
    Option (Bool × Server N) :=
  let srv := disconnectClient srv clientId
  if !closed then some (false, srv)
  else (nPartyServer srv.cnt srv.serverKey ex).map fun r => (r.1, { srv with serverKey := r.2 })

section

variable (srv : Server N) (i j fd : ℕ)

theorem setSlot_slot :
    (srv.setSlot i fd).slot j = if i = j ∧ j < N then fd else srv.slot j := by
  unfold Server.setSlot Server.slot
  rw [Vector.getElem?_setIfInBounds]
  by_cases hij : i = j
  · by_cases hi : i < N
    · simp [hij, hij ▸ hi]
    · subst hij
      simp [hi]
  · simp [hij]

@[simp] theorem setSlot_cnt : (srv.setSlot i fd).cnt = srv.cnt := rfl
@[simp] theorem setSlot_fds : (srv.setSlot i fd).fds = srv.fds := rfl
@[simp] theorem setSlot_nfds : (srv.setSlot i fd).nfds = srv.nfds := rfl

end

end Parcel
