import Parcel.KeyExchange
import Parcel.Sha256Reference

/-!
# Agreement on the group key

The exchange between the daemon and `n` clients, in every interleaving of single
bytes: it never gets stuck, and it ends with the same session key at every client
and nothing in flight. One schedule is exhibited, in which the daemon and the
clients take turns; the others end in the same state.
-/

namespace Parcel
open ByteStrings Process

/-! ## The network around the daemon -/

/-- The network of the daemon and the clients `1` to `n`, with the bytes on the
way to the daemon and to the clients. -/
def star (n : ℕ) (d : Program Outcome) (c : ℕ → Program Outcome) (up down : ℕ → List UInt8) :
    Net ℕ UInt8 Outcome where
  proc p := if p = daemon then d else if p ≤ n then c p else .ret .failed
  chan a b :=
    if a = daemon then if 1 ≤ b ∧ b ≤ n then down b else []
    else if b = daemon ∧ a ≤ n then up a else []

section

variable {n : ℕ} {d : Program Outcome} {c : ℕ → Program Outcome} {up down : ℕ → List UInt8}

theorem star_proc_daemon : (star n d c up down).proc daemon = d := rfl

theorem star_proc_client {i : ℕ} (hi : 1 ≤ i) (hn : i ≤ n) :
    (star n d c up down).proc i = c i := by
  have hne : i ≠ daemon := Nat.ne_of_gt hi
  simp only [star, if_neg hne, if_pos hn]

theorem star_chan_up {i : ℕ} (hi : 1 ≤ i) (hn : i ≤ n) :
    (star n d c up down).chan i daemon = up i := by
  have hne : i ≠ daemon := Nat.ne_of_gt hi
  simp only [star, if_neg hne, hn, and_self, ↓reduceIte]

theorem star_chan_down {i : ℕ} (hi : 1 ≤ i) (hn : i ≤ n) :
    (star n d c up down).chan daemon i = down i := by
  simp only [star, ↓reduceIte, if_pos (And.intro hi hn)]

theorem keRcv_bind (sock : ℕ) (type : KeyType) (k : Option Key → Program Outcome) :
    (keRcv sock type).bind k =
      (Proc.recvMany sock keSize).bind fun mem => k (keParse type mem) := by
  rw [keRcv, Proc.bind_assoc]
  rfl

variable {up' down' : ℕ → List UInt8} {c' : ℕ → Program Outcome} {j : ℕ} {type : KeyType}
    {key : Key}

theorem star_congr {d' : Program Outcome} (hd : d = d') (hc : ∀ i, 1 ≤ i → i ≤ n → c i = c' i)
    (hup : ∀ i, 1 ≤ i → i ≤ n → up i = up' i) (hdown : ∀ i, 1 ≤ i → i ≤ n → down i = down' i) :
    Net.Steps (star n d c up down) (star n d' c' up' down') := by
  have heq : star n d c up down = star n d' c' up' down' := by
    ext1
    · funext p
      simp only [star]
      by_cases hp : p = daemon
      · simp only [if_pos hp, hd]
      · by_cases hn : p ≤ n
        · simp only [if_neg hp, if_pos hn, hc p (Nat.pos_of_ne_zero hp) hn]
        · simp only [if_neg hp, if_neg hn]
    · funext a b
      simp only [star]
      by_cases ha : a = daemon
      · by_cases hb : 1 ≤ b ∧ b ≤ n
        · simp only [if_pos ha, if_pos hb, hdown b hb.1 hb.2]
        · simp only [if_pos ha, if_neg hb]
      · by_cases hn : b = daemon ∧ a ≤ n
        · simp only [if_neg ha, if_pos hn, hup a (Nat.pos_of_ne_zero ha) hn.2]
        · simp only [if_neg ha, if_neg hn]
  exact heq ▸ .refl

theorem star_daemon_rcv {k : Option Key → Program Outcome} (hj : 1 ≤ j) (hn : j ≤ n)
    (hd : d = (keRcv j type).bind k) (hup : up j = keBytes type key ++ up' j)
    (hother : ∀ i, 1 ≤ i → i ≤ n → i ≠ j → up' i = up i) :
    Net.Steps (star n d c up down) (star n (k (some key)) c up' down) := by
  refine Net.steps_recvMany (p := daemon) (hd.trans (keRcv_bind j type k)) (keBytes_length type key)
    ((star_chan_up hj hn).trans hup) ?_ ?_ (star_chan_up hj hn) ?_
  · rw [star_proc_daemon, keParse_keBytes]
  · intro q hq
    simp only [star, if_neg hq]
  · intro a b hab
    simp only [star]
    by_cases ha : a = daemon
    · simp only [if_pos ha]
    · by_cases hn : b = daemon ∧ a ≤ n
      · rw [hother a (Nat.pos_of_ne_zero ha) hn.2 (fun haj => hab ⟨haj, hn.1⟩)]
      · simp only [if_neg hn]

theorem star_daemon_snd {k : Unit → Program Outcome} (hj : 1 ≤ j) (hn : j ≤ n)
    (hd : d = (keSnd j type key).bind k) (hdown : down' j = down j ++ keBytes type key)
    (hother : ∀ i, 1 ≤ i → i ≤ n → i ≠ j → down' i = down i) :
    Net.Steps (star n d c up down) (star n (k ()) c up down') := by
  refine Net.steps_sendAll (p := daemon) hd star_proc_daemon ?_ ?_ ?_
  · intro q hq
    simp only [star, if_neg hq]
  · rw [star_chan_down hj hn, star_chan_down hj hn, hdown]
  · intro a b hab
    simp only [star]
    by_cases ha : a = daemon
    · by_cases hb : 1 ≤ b ∧ b ≤ n
      · rw [hother b hb.1 hb.2 (fun hbj => hab ⟨ha, hbj⟩)]
      · simp only [if_neg hb]
    · simp only [if_neg ha]

theorem star_client_rcv {k : Option Key → Program Outcome} (hj : 1 ≤ j) (hn : j ≤ n)
    (hc : c j = (keRcv daemon type).bind k) (hc' : c' j = k (some key))
    (hcother : ∀ i, i ≠ j → c' i = c i) (hdown : down j = keBytes type key ++ down' j)
    (hother : ∀ i, 1 ≤ i → i ≤ n → i ≠ j → down' i = down i) :
    Net.Steps (star n d c up down) (star n d c' up down') := by
  refine Net.steps_recvMany (p := j)
    ((star_proc_client hj hn).trans (hc.trans (keRcv_bind daemon type k)))
    (keBytes_length type key) ((star_chan_down hj hn).trans hdown) ?_ ?_ (star_chan_down hj hn) ?_
  · rw [star_proc_client hj hn, hc', keParse_keBytes]
  · intro q hq
    simp only [star, hcother q hq]
  · intro a b hab
    simp only [star]
    by_cases ha : a = daemon
    · by_cases hb : 1 ≤ b ∧ b ≤ n
      · rw [hother b hb.1 hb.2 (fun hbj => hab ⟨ha, hbj⟩)]
      · simp only [if_neg hb]
    · simp only [if_neg ha]

theorem star_client_snd {k : Unit → Program Outcome} (hj : 1 ≤ j) (hn : j ≤ n)
    (hc : c j = (keSnd daemon type key).bind k) (hc' : c' j = k ())
    (hcother : ∀ i, i ≠ j → c' i = c i) (hup : up' j = up j ++ keBytes type key)
    (hother : ∀ i, 1 ≤ i → i ≤ n → i ≠ j → up' i = up i) :
    Net.Steps (star n d c up down) (star n d c' up' down) := by
  refine Net.steps_sendAll (p := j) ((star_proc_client hj hn).trans hc)
    ((star_proc_client hj hn).trans hc') ?_ ?_ ?_
  · intro q hq
    simp only [star, hcother q hq]
  · rw [star_chan_up hj hn, star_chan_up hj hn, hup]
  · intro a b hab
    simp only [star]
    by_cases ha : a = daemon
    · simp only [if_pos ha]
    · by_cases hn : b = daemon ∧ a ≤ n
      · rw [hother a (Nat.pos_of_ne_zero ha) hn.2 (fun haj => hab ⟨haj, hn.1⟩)]
      · simp only [if_neg hn]

end

/-! ## One schedule -/

section

variable (x25519 : Key → Key → Key) (n : ℕ) (rnd : ℕ → Key) (session : Key)

def prevSocket (i : ℕ) : ℕ := if i = 1 then n else i - 1

/-- The key that client `i` sends in round `r`; after the last round, the one it hashes. -/
def intermediate : ℕ → ℕ → Key
  | 0, i => pointQ x25519 (pointD (rnd i))
  | r + 1, i => pointKx x25519 (pointD (rnd i)) (intermediate r (prevSocket n i))

def roundFrame (r i : ℕ) : List UInt8 := keBytes .exIntermediate (intermediate x25519 n rnd r i)

/-- Client `i` after it has sent its key of round `r`, or after the last round. -/
def clientAt (r i : ℕ) : Program Outcome :=
  if r < n - 1 then clientRounds x25519 (pointD (rnd i)) session (n - 1 - r)
  else .ret (.agreed (sha256KeyDigest (intermediate x25519 n rnd r i)))

def exchangeStart : Net ℕ UInt8 Outcome :=
  star n (serverRounds n (n - 1)) (fun i => nPartyClient x25519 (rnd i) session (n - 1))
    (fun _ => []) (fun _ => [])

/-- The clients up to `j` have sent their public keys. -/
def published (j : ℕ) : Net ℕ UInt8 Outcome :=
  star n (serverRounds n (n - 1))
    (fun i => if i ≤ j then clientAt x25519 n rnd session 0 i
      else nPartyClient x25519 (rnd i) session (n - 1))
    (fun i => if i ≤ j then roundFrame x25519 n rnd 0 i else []) (fun _ => [])

/-- The beginning of round `r` at the daemon: the keys of the round are on their way. -/
def roundStart (r : ℕ) : Net ℕ UInt8 Outcome :=
  star n (serverRounds n (n - 1 - r)) (clientAt x25519 n rnd session r)
    (fun i => if r < n - 1 then roundFrame x25519 n rnd r i else []) (fun _ => [])

/-- Round `r` when the daemon has served the sockets up to `j`. -/
def relayed (r j : ℕ) : Net ℕ UInt8 Outcome :=
  star n ((rotateIntermediates n (List.range' (j + 1) (n - j))).bind
      (afterPass (serverRounds n (n - 1 - (r + 1)))))
    (clientAt x25519 n rnd session r)
    (fun i => if j < i then roundFrame x25519 n rnd r i else [])
    (fun i => if prevSocket n i ≤ j then roundFrame x25519 n rnd r (prevSocket n i) else [])

/-- Round `r` when the clients up to `j` have replied. -/
def replied (r j : ℕ) : Net ℕ UInt8 Outcome :=
  star n (serverRounds n (n - 1 - (r + 1)))
    (fun i => if i ≤ j then clientAt x25519 n rnd session (r + 1) i
      else clientAt x25519 n rnd session r i)
    (fun i => if i ≤ j ∧ r + 1 < n - 1 then roundFrame x25519 n rnd (r + 1) i else [])
    (fun i => if i ≤ j then [] else roundFrame x25519 n rnd r (prevSocket n i))

/-- What client `i` does with the key that it receives in round `r`. -/
def replyOf (r i : ℕ) : Program Outcome :=
  clientReply x25519 (pointD (rnd i)) (n - 1 - (r + 1))
    (clientRounds x25519 (pointD (rnd i)) session (n - 1 - (r + 1)))
    (some (intermediate x25519 n rnd r (prevSocket n i)))

/-- Round `r` when the clients up to `j` have replied and the next one is about to. -/
def replying (r j : ℕ) : Net ℕ UInt8 Outcome :=
  star n (serverRounds n (n - 1 - (r + 1)))
    (fun i => if i = j + 1 then replyOf x25519 n rnd session r i
      else if i ≤ j then clientAt x25519 n rnd session (r + 1) i
      else clientAt x25519 n rnd session r i)
    (fun i => if i ≤ j ∧ r + 1 < n - 1 then roundFrame x25519 n rnd (r + 1) i else [])
    (fun i => if i ≤ j + 1 then [] else roundFrame x25519 n rnd r (prevSocket n i))

variable {x25519 n rnd session} {r j : ℕ}

theorem prevSocket_le {i : ℕ} (hi : i ≤ n) : prevSocket n i ≤ n := by
  unfold prevSocket
  split <;> omega

theorem prevSocket_pos {i : ℕ} (hi : 1 ≤ i) (hn : i ≤ n) : 1 ≤ prevSocket n i := by
  unfold prevSocket
  split <;> omega

theorem prevSocket_eq_iff {i : ℕ} (hi : 1 ≤ i) (hn : i ≤ n) (hj : 1 ≤ j) :
    prevSocket n i = j ↔ i = nextSocket n j := by
  unfold prevSocket nextSocket
  split <;> split <;> omega

theorem nextSocket_mem (hj : 1 ≤ j) (hn : j ≤ n) : 1 ≤ nextSocket n j ∧ nextSocket n j ≤ n := by
  unfold nextSocket
  split <;> omega

theorem published_succ (hn : 2 ≤ n) (hj : j < n) :
    Net.Steps (published x25519 n rnd session j) (published x25519 n rnd session (j + 1)) := by
  have hsend : (if j + 1 ≤ j then clientAt x25519 n rnd session 0 (j + 1)
      else nPartyClient x25519 (rnd (j + 1)) session (n - 1)) =
      (keSnd daemon .exIntermediate (pointQ x25519 (pointD (rnd (j + 1))))).bind fun _ =>
        clientRounds x25519 (pointD (rnd (j + 1))) session (n - 1) := by
    rw [if_neg (by omega), nPartyClient]
  refine star_client_snd (j := j + 1) (by omega) hj hsend ?_ ?_ ?_ ?_
  · rw [if_pos le_rfl, clientAt, if_pos (by omega), Nat.sub_zero]
  · intro i hi
    by_cases hle : i ≤ j
    · rw [if_pos hle, if_pos (by omega)]
    · rw [if_neg hle, if_neg (by omega)]
  · rw [if_pos le_rfl, if_neg (by omega), List.nil_append]
    rfl
  · intro i _ _ hi
    by_cases hle : i ≤ j
    · rw [if_pos hle, if_pos (by omega)]
    · rw [if_neg hle, if_neg (by omega)]

theorem steps_to_roundStart (hn : 2 ≤ n) :
    Net.Steps (exchangeStart x25519 n rnd session) (roundStart x25519 n rnd session 0) := by
  have hstart : Net.Steps (exchangeStart x25519 n rnd session)
      (published x25519 n rnd session 0) := by
    refine star_congr rfl ?_ ?_ (fun _ _ _ => rfl)
    · intro i hi _
      rw [if_neg (by omega)]
    · intro i hi _
      rw [if_neg (by omega)]
  have hend : Net.Steps (published x25519 n rnd session n)
      (roundStart x25519 n rnd session 0) := by
    refine star_congr rfl ?_ ?_ (fun _ _ _ => rfl)
    · intro i _ hi
      rw [if_pos hi]
    · intro i _ hi
      rw [if_pos hi, if_pos (by omega)]
  have hstages := Net.steps_stages (f := published x25519 n rnd session)
    fun j hj => published_succ hn hj
  exact hstart.trans (hstages.trans hend)

theorem rotate_cons_bind (count i : ℕ) (is : List ℕ) (k : Bool → Program Outcome) :
    (rotateIntermediates count (i :: is)).bind k =
      (keRcv i .exIntermediate).bind fun o =>
        (passOn count i (rotateIntermediates count is) o).bind k := by
  rw [rotateIntermediates, Proc.bind_assoc]

theorem passOn_some_bind (count i : ℕ) (rest : Program Bool) (key : Key)
    (k : Bool → Program Outcome) :
    (passOn count i rest (some key)).bind k =
      (keSnd (nextSocket count i) .exIntermediate key).bind fun _ => rest.bind k := by
  rw [passOn, Proc.bind_assoc]

theorem relayed_succ (hj : j < n) :
    Net.Steps (relayed x25519 n rnd session r j) (relayed x25519 n rnd session r (j + 1)) := by
  have hsockets : List.range' (j + 1) (n - j) = (j + 1) :: List.range' (j + 1 + 1)
    (n - (j + 1)) := by
    rw [show n - j = n - (j + 1) + 1 by omega, List.range'_succ]
  have hpass := rotate_cons_bind n (j + 1) (List.range' (j + 1 + 1) (n - (j + 1)))
    (afterPass (serverRounds n (n - 1 - (r + 1))))
  rw [← hsockets] at hpass
  have hpassOn := passOn_some_bind n (j + 1)
    (rotateIntermediates n (List.range' (j + 1 + 1) (n - (j + 1))))
    (intermediate x25519 n rnd r (j + 1)) (afterPass (serverRounds n (n - 1 - (r + 1))))
  obtain ⟨hpos, hle⟩ := nextSocket_mem (j := j + 1) (by omega) hj
  have hup (i : ℕ) (hi : i ≠ j + 1) :
      (if j + 1 < i then roundFrame x25519 n rnd r i else []) =
        if j < i then roundFrame x25519 n rnd r i else [] := by
    by_cases hlt : j < i
    · rw [if_pos hlt, if_pos (by omega)]
    · rw [if_neg hlt, if_neg (by omega)]
  refine (star_daemon_rcv (by omega) hj hpass ?_ fun i _ _ hi => hup i hi).trans
    (star_daemon_snd hpos hle hpassOn ?_ ?_)
  · rw [if_pos (by omega), if_neg (by omega), List.append_nil]
    rfl
  · have hprev : prevSocket n (nextSocket n (j + 1)) = j + 1 :=
      (prevSocket_eq_iff hpos hle (by omega)).mpr rfl
    rw [hprev, if_pos le_rfl, if_neg (by omega), List.nil_append]
    rfl
  · intro i hi hn hne
    have hprev : prevSocket n i ≠ j + 1 := fun h => hne ((prevSocket_eq_iff hi hn (by omega)).mp h)
    by_cases hle : prevSocket n i ≤ j
    · rw [if_pos hle, if_pos (by omega)]
    · rw [if_neg hle, if_neg (by omega)]

theorem replied_replying (hr : r < n - 1) (hj : j < n) :
    Net.Steps (replied x25519 n rnd session r j) (replying x25519 n rnd session r j) := by
  have hrounds : (if j + 1 ≤ j then clientAt x25519 n rnd session (r + 1) (j + 1)
      else clientAt x25519 n rnd session r (j + 1)) =
      (keRcv daemon .exIntermediate).bind (clientReply x25519 (pointD (rnd (j + 1)))
        (n - 1 - (r + 1))
          (clientRounds x25519 (pointD (rnd (j + 1))) session (n - 1 - (r + 1)))) := by
    rw [if_neg (by omega), clientAt, if_pos hr, show n - 1 - r = n - 1 - (r + 1) + 1 by omega,
      clientRounds]
  refine star_client_rcv (by omega) hj hrounds (if_pos rfl) (fun i hi => if_neg hi) ?_ ?_
  · rw [if_neg (by omega), if_pos le_rfl, List.append_nil]
    rfl
  · intro i _ _ hi
    by_cases hle : i ≤ j
    · rw [if_pos hle, if_pos (by omega)]
    · rw [if_neg hle, if_neg (by omega)]

theorem replying_replied (hj : j < n) :
    Net.Steps (replying x25519 n rnd session r j) (replied x25519 n rnd session r (j + 1)) := by
  have hclient (i : ℕ) (hi : i ≠ j + 1) :
      (if i ≤ j + 1 then clientAt x25519 n rnd session (r + 1) i
        else clientAt x25519 n rnd session r i) =
      if i = j + 1 then replyOf x25519 n rnd session r i
      else if i ≤ j then clientAt x25519 n rnd session (r + 1) i
      else clientAt x25519 n rnd session r i := by
    rw [if_neg hi]
    by_cases hle : i ≤ j
    · rw [if_pos hle, if_pos (by omega)]
    · rw [if_neg hle, if_neg (by omega)]
  -- in the last round the client keeps the key instead of sending it on
  by_cases hlast : r + 1 < n - 1
  · have hsend : (if j + 1 = j + 1 then replyOf x25519 n rnd session r (j + 1)
        else if j + 1 ≤ j then clientAt x25519 n rnd session (r + 1) (j + 1)
        else clientAt x25519 n rnd session r (j + 1)) =
        (keSnd daemon .exIntermediate (intermediate x25519 n rnd (r + 1) (j + 1))).bind fun _ =>
          clientRounds x25519 (pointD (rnd (j + 1))) session (n - 1 - (r + 1)) := by
      rw [if_pos rfl, replyOf, clientReply, if_neg (by omega), intermediate]
    refine star_client_snd (by omega) hj hsend ?_ hclient ?_ ?_
    · rw [if_pos le_rfl, clientAt, if_pos hlast]
    · rw [if_pos ⟨le_rfl, hlast⟩, if_neg (by omega), List.nil_append]
      rfl
    · intro i _ _ hi
      by_cases hle : i ≤ j
      · rw [if_pos ⟨by omega, hlast⟩, if_pos ⟨hle, hlast⟩]
      · rw [if_neg (by omega), if_neg (fun h => hle h.1)]
  · refine star_congr rfl ?_ ?_ (fun _ _ _ => rfl)
    · intro i _ _
      by_cases hi : i = j + 1
      · rw [if_pos hi, if_pos hi.le, replyOf, clientReply, if_pos (by omega), clientAt,
          if_neg hlast, intermediate]
      · exact (hclient i hi).symm
    · intro i _ _
      rw [if_neg (fun h => hlast h.2), if_neg (fun h => hlast h.2)]

theorem round_steps (hr : r < n - 1) :
    Net.Steps (roundStart x25519 n rnd session r) (roundStart x25519 n rnd session (r + 1)) := by
  -- the daemon passes on what each client published, then each client replies in turn
  have hstart : Net.Steps (roundStart x25519 n rnd session r)
    (relayed x25519 n rnd session r 0) := by
    refine star_congr ?_ (fun _ _ _ => rfl) ?_ ?_
    · rw [show n - 1 - r = n - 1 - (r + 1) + 1 by omega, serverRounds]
      rfl
    · intro i hi _
      rw [if_pos hr, if_pos (show 0 < i from hi)]
    · intro i hi hn
      have := prevSocket_pos hi hn
      rw [if_neg (by omega)]
  have hpass := Net.steps_stages (f := relayed x25519 n rnd session r)
    fun j (hj : j < n) => relayed_succ hj
  have hmid : Net.Steps (relayed x25519 n rnd session r n) (replied x25519 n rnd session r 0) := by
    refine star_congr ?_ ?_ ?_ ?_
    · rw [Nat.sub_self]
      rfl
    · intro i hi _
      rw [if_neg (by omega)]
    · intro i _ hi
      rw [if_neg (by omega), if_neg (by omega)]
    · intro i hi hn
      rw [if_pos (prevSocket_le hn), if_neg (by omega)]
  have hreply := Net.steps_stages (f := replied x25519 n rnd session r)
    fun j (hj : j < n) => (replied_replying hr hj).trans (replying_replied hj)
  have hend : Net.Steps (replied x25519 n rnd session r n)
      (roundStart x25519 n rnd session (r + 1)) := by
    refine star_congr rfl ?_ ?_ ?_
    · intro i _ hi
      rw [if_pos hi]
    · intro i _ hi
      by_cases hlast : r + 1 < n - 1
      · rw [if_pos ⟨hi, hlast⟩, if_pos hlast]
      · rw [if_neg (fun h => hlast h.2), if_neg hlast]
    · intro i _ hi
      rw [if_pos hi]
  exact hstart.trans (hpass.trans (hmid.trans (hreply.trans hend)))

theorem exchange_steps (hn : 2 ≤ n) :
    Net.Steps (exchangeStart x25519 n rnd session) (roundStart x25519 n rnd session (n - 1)) :=
  (steps_to_roundStart hn).trans
    (Net.steps_stages (f := roundStart x25519 n rnd session) fun _ hr => round_steps hr)

end

section

variable (x25519 : Key → Key → Key) (n : ℕ) (rnd : ℕ → Key)

/-- The point that the secrets of some clients, outermost first, lead to from the base point. -/
def nested (sockets : List ℕ) : Key :=
  sockets.foldr (fun i u => x25519 (pointD (rnd i)) u) basepoint

/-- The session key of the group: the standard's digest of the point with the secrets of
all clients, each once. -/
def groupKey : Key := Fips180.sha256 (nested x25519 rnd (List.range' 1 n)).toList

/-- The clients whose secrets are in the key of client `i` after `r` rounds. -/
def visited : ℕ → ℕ → List ℕ
  | 0, i => [i]
  | r + 1, i => i :: visited r (prevSocket n i)

theorem intermediate_eq (r i : ℕ) :
    intermediate x25519 n rnd r i = nested x25519 rnd (visited n r i) := by
  induction r generalizing i with
  | zero => rfl
  | succ r ih =>
    rw [intermediate, ih]
    rfl

variable {n} {r i : ℕ}

theorem visited_length : (visited n r i).length = r + 1 := by
  induction r generalizing i with
  | zero => rfl
  | succ r ih => rw [visited, List.length_cons, ih]

theorem mem_visited (hi : 1 ≤ i) (hin : i ≤ n) (hr : r < n) {x : ℕ} (hx : x ∈ visited n r i) :
    ∃ k ≤ r, x = if k < i then i - k else n + i - k := by
  induction r generalizing i with
  | zero =>
    rw [visited, List.mem_singleton] at hx
    exact ⟨0, le_rfl, by rw [if_pos (show 0 < i from hi), hx, Nat.sub_zero]⟩
  | succ r ih =>
    rw [visited, List.mem_cons] at hx
    rcases hx with rfl | hx
    · exact ⟨0, Nat.zero_le _, by rw [if_pos (show 0 < x from hi), Nat.sub_zero]⟩
    · obtain ⟨k, hk, hx⟩ := ih (prevSocket_pos hi hin) (prevSocket_le hin) (by omega) hx
      refine ⟨k + 1, by omega, ?_⟩
      rw [hx, prevSocket]
      split_ifs <;> omega

theorem visited_nodup (hi : 1 ≤ i) (hin : i ≤ n) (hr : r < n) : (visited n r i).Nodup := by
  induction r generalizing i with
  | zero => exact List.nodup_singleton i
  | succ r ih =>
    rw [visited, List.nodup_cons]
    refine ⟨?_, ih (prevSocket_pos hi hin) (prevSocket_le hin) (by omega)⟩
    intro hmem
    obtain ⟨k, hk, hx⟩ := mem_visited (prevSocket_pos hi hin) (prevSocket_le hin) (by omega) hmem
    rw [prevSocket] at hx
    split_ifs at hx <;> omega

theorem visited_perm (hi : 1 ≤ i) (hin : i ≤ n) :
    (visited n (n - 1) i).Perm (List.range' 1 n) := by
  have hsub : visited n (n - 1) i ⊆ List.range' 1 n := by
    intro x hx
    obtain ⟨k, hk, hx⟩ := mem_visited hi hin (by omega) hx
    rw [List.mem_range'_1]
    split_ifs at hx <;> omega
  refine ((visited_nodup hi hin (by omega)).subperm hsub).perm_of_length_le ?_
  rw [visited_length, List.length_range']
  omega

variable {x25519}

theorem intermediate_last (hcomm : ∀ a b u, x25519 (pointD a) (x25519 (pointD b) u) =
      x25519 (pointD b) (x25519 (pointD a) u)) (hi : 1 ≤ i) (hin : i ≤ n) :
    intermediate x25519 n rnd (n - 1) i = nested x25519 rnd (List.range' 1 n) := by
  rw [intermediate_eq, nested, nested]
  refine (visited_perm hi hin).foldr_eq' ?_ basepoint
  intro a _ b _ u
  exact hcomm (rnd b) (rnd a) u

end

section

variable (x25519 : Key → Key → Key) (n : ℕ) (rnd : ℕ → Key) (session : Key)

theorem roundStart_last_final : (roundStart x25519 n rnd session (n - 1)).Final := by
  intro p
  by_cases hp : p = daemon
  · refine ⟨.rotated true, ?_⟩
    rw [hp, roundStart, star_proc_daemon, Nat.sub_self, serverRounds]
  · have hpos : 1 ≤ p := Nat.pos_of_ne_zero hp
    by_cases hn : p ≤ n
    · refine ⟨.agreed (sha256KeyDigest (intermediate x25519 n rnd (n - 1) p)), ?_⟩
      rw [roundStart, star_proc_client hpos hn, clientAt, if_neg (lt_irrefl _)]
    · refine ⟨.failed, ?_⟩
      simp only [roundStart, star, if_neg hp, if_neg hn]

theorem roundStart_last_chan (a b : ℕ) :
    (roundStart x25519 n rnd session (n - 1)).chan a b = [] := by
  simp only [roundStart, star, lt_irrefl, ↓reduceIte, ite_self]

/-- The outcome of the exchange: the daemon is done, every client holds the group
key, and nothing is in flight. -/
structure Agreed (s : Net ℕ UInt8 Outcome) : Prop where
  server : s.proc daemon = .ret (.rotated true)
  client : ∀ i, 1 ≤ i → i ≤ n → s.proc i = .ret (.agreed (groupKey x25519 n rnd))
  quiet : ∀ a b, s.chan a b = []

variable {x25519}

theorem roundStart_last_agreed
    (hcomm : ∀ a b u, x25519 (pointD a) (x25519 (pointD b) u) =
      x25519 (pointD b) (x25519 (pointD a) u)) :
    Agreed x25519 n rnd (roundStart x25519 n rnd session (n - 1)) where
  server := by rw [roundStart, star_proc_daemon, Nat.sub_self, serverRounds]
  client := by
    intro i hi hin
    rw [roundStart, star_proc_client hi hin, clientAt, if_neg (lt_irrefl _),
      sha256KeyDigest_eq, intermediate_last rnd hcomm hi hin, groupKey]
  quiet := roundStart_last_chan x25519 n rnd session

/-- In every interleaving the exchange goes on until all parties have returned, and
then all clients hold the group key. -/
theorem group_key_agreement
    (hcomm : ∀ a b u, x25519 (pointD a) (x25519 (pointD b) u) =
      x25519 (pointD b) (x25519 (pointD a) u))
    (hn : 2 ≤ n) (s : Net ℕ UInt8 Outcome)
    (hs : Net.Steps (exchangeStart x25519 n rnd session) s) :
    (¬s.Final → ∃ s', s.Step s') ∧ (s.Final → Agreed x25519 n rnd s) := by
  obtain ⟨hprogress, hunique⟩ :=
    (roundStart_last_final x25519 n rnd session).unique (exchange_steps hn) hs
  refine ⟨hprogress, ?_⟩
  intro hfinal
  rw [hunique hfinal]
  exact roundStart_last_agreed n rnd session hcomm

end

def threeSecrets (i : ℕ) : Key := Vector.replicate 32 (UInt8.ofNat (i + 1))

/-- Three clients: their exchange can begin, and it can end. -/
theorem group_key_agreement_three :
    (∃ s', (exchangeStart xorKeys 3 threeSecrets (Vector.replicate 32 0)).Step s') ∧
      ∃ s, Net.Steps (exchangeStart xorKeys 3 threeSecrets (Vector.replicate 32 0)) s ∧
        s.Final ∧ Agreed xorKeys 3 threeSecrets s := by
  have hcomm (a b u : Key) : xorKeys (pointD a) (xorKeys (pointD b) u) =
      xorKeys (pointD b) (xorKeys (pointD a) u) := xorKeys_comm (pointD a) (pointD b) u
  have hn : 2 ≤ 3 := by decide
  have hend : Net.Steps (exchangeStart xorKeys 3 threeSecrets (Vector.replicate 32 0))
      (roundStart xorKeys 3 threeSecrets (Vector.replicate 32 0) 2) := exchange_steps hn
  have hfinal := roundStart_last_final xorKeys 3 threeSecrets (Vector.replicate 32 0)
  constructor
  · refine (group_key_agreement 3 threeSecrets (Vector.replicate 32 0) hcomm hn _ .refl).1 ?_
    intro hdone
    obtain ⟨a, ha⟩ := hdone daemon
    rw [exchangeStart, star_proc_daemon] at ha
    cases ha
  · exact ⟨_, hend, hfinal,
      (group_key_agreement 3 threeSecrets (Vector.replicate 32 0) hcomm hn _ hend).2 hfinal⟩

end Parcel
