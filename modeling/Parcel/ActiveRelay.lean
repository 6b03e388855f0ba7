import Parcel.X25519Agreement

/-!
# A relay that chooses the keys

The daemon passes the keys of the exchange on, and nothing binds them to the clients.
A relay in its place that sends keys of its own obtains the session key of a client
with one secret, or has every client compute the same key from a point of small order.
-/

namespace Parcel
open ByteStrings Process

section

variable (x25519 : Key → Key → Key)

def impose (keys : List Key) (rest : Program Outcome) : Program Outcome :=
  keys.foldr (fun key rest => (keSnd 1 .exIntermediate key).bind fun _ => rest) rest

/-- What the relay does with the client's public key: it sends its own in every round, and
takes the one that the two share for the session key. -/
def relayReply (secretKey : Key) (rounds : ℕ) : Option Key → Program Outcome
  | none => .ret .failed
  | some clientPublic =>
    impose (List.replicate rounds (pointQ x25519 secretKey))
      (.ret (.agreed (sha256KeyDigest (pointKx x25519 secretKey clientPublic))))

def relay (rnd : Key) (rounds : ℕ) : Program Outcome :=
  (keRcv 1 .exIntermediate).bind (relayReply x25519 (pointD rnd) rounds)

def keyFrames (keys : List Key) : List UInt8 := keys.flatMap (keBytes .exIntermediate)

variable {x25519} {keys : List Key}

theorem one_client_rcv (d : Program Outcome) (up down : List UInt8) (key : Key)
    {c : Program Outcome} {k : Option Key → Program Outcome}
    (hc : c = (keRcv daemon .exIntermediate).bind k) :
    Net.Steps
      (star 1 d (fun _ => c) (fun _ => up) (fun _ => keBytes .exIntermediate key ++ down))
      (star 1 d (fun _ => k (some key)) (fun _ => up) (fun _ => down)) := by
  have hrcv : Net.Steps
      (star 1 d (fun _ => c) (fun _ => up) (fun _ => keBytes .exIntermediate key ++ down))
      (star 1 d (Function.update (fun _ => c) 1 (k (some key))) (fun _ => up) (fun _ => down)) :=
    star_client_rcv le_rfl le_rfl hc (Function.update_self ..)
      (fun i hi => Function.update_of_ne hi _ _) rfl
      (fun i hi hn hne => absurd (Nat.le_antisymm hn hi) hne)
  refine hrcv.trans (star_congr rfl ?_ (fun _ _ _ => rfl) (fun _ _ _ => rfl))
  intro i hi hn
  obtain rfl := Nat.le_antisymm hn hi
  exact Function.update_self ..

theorem one_client_snd (d : Program Outcome) (up down : List UInt8) (key : Key)
    {c : Program Outcome} {k : Unit → Program Outcome}
    (hc : c = (keSnd daemon .exIntermediate key).bind k) :
    Net.Steps (star 1 d (fun _ => c) (fun _ => up) (fun _ => down))
      (star 1 d (fun _ => k ()) (fun _ => up ++ keBytes .exIntermediate key) (fun _ => down)) := by
  have hsnd : Net.Steps (star 1 d (fun _ => c) (fun _ => up) (fun _ => down))
      (star 1 d (Function.update (fun _ => c) 1 (k ()))
        (fun _ => up ++ keBytes .exIntermediate key) (fun _ => down)) :=
    star_client_snd le_rfl le_rfl hc (Function.update_self ..)
      (fun i hi => Function.update_of_ne hi _ _) rfl
      (fun i hi hn hne => absurd (Nat.le_antisymm hn hi) hne)
  refine hsnd.trans (star_congr rfl ?_ (fun _ _ _ => rfl) (fun _ _ _ => rfl))
  intro i hi hn
  obtain rfl := Nat.le_antisymm hn hi
  exact Function.update_self ..

theorem keyFrames_cons (key : Key) (keys : List Key) :
    keyFrames (key :: keys) = keBytes .exIntermediate key ++ keyFrames keys := List.flatMap_cons

theorem impose_steps (d c : Program Outcome) (up down : List UInt8) (keys : List Key) :
    Net.Steps (star 1 (impose keys d) (fun _ => c) (fun _ => up) (fun _ => down))
      (star 1 d (fun _ => c) (fun _ => up) (fun _ => down ++ keyFrames keys)) := by
  induction keys generalizing down with
  | nil =>
    rw [keyFrames, List.flatMap_nil, List.append_nil]
    exact .refl
  | cons key keys ih =>
    have hsend : Net.Steps
        (star 1 (impose (key :: keys) d) (fun _ => c) (fun _ => up) (fun _ => down))
        (star 1 (impose keys d) (fun _ => c) (fun _ => up)
          (fun _ => down ++ keBytes .exIntermediate key)) :=
      star_daemon_snd le_rfl le_rfl
        (show _ = (keSnd 1 .exIntermediate key).bind fun _ => impose keys d from rfl) rfl
        (fun i hi hn hne => absurd (Nat.le_antisymm hn hi) hne)
    have hrest := ih (down ++ keBytes .exIntermediate key)
    rw [List.append_assoc, ← keyFrames_cons] at hrest
    exact hsend.trans hrest

theorem clientRounds_steps (x25519 : Key → Key → Key) (d : Program Outcome) (up : List UInt8)
    (secretKey session : Key) (hne : keys ≠ []) :
    Net.Steps
      (star 1 d (fun _ => clientRounds x25519 secretKey session keys.length) (fun _ => up)
        (fun _ => keyFrames keys))
      (star 1 d
        (fun _ => .ret (.agreed (sha256KeyDigest (pointKx x25519 secretKey (keys.getLast hne)))))
        (fun _ => up ++ keyFrames (keys.dropLast.map (pointKx x25519 secretKey)))
        (fun _ => [])) := by
  induction keys generalizing up with
  | nil => exact absurd rfl hne
  | cons key keys ih =>
    have hrcv := one_client_rcv d up (keyFrames keys) key
      (show clientRounds x25519 secretKey session (keys.length + 1) = _ from rfl)
    rw [← keyFrames_cons] at hrcv
    refine hrcv.trans ?_
    cases keys with
    | nil =>
      rw [List.dropLast_singleton, List.map_nil, keyFrames, List.flatMap_nil, List.append_nil]
      exact .refl
    | cons next keys =>
      have hsnd := one_client_snd d up (keyFrames (next :: keys)) (pointKx x25519 secretKey key)
        (show clientReply x25519 secretKey (next :: keys).length
          (clientRounds x25519 secretKey session (next :: keys).length) (some key) = _ from rfl)
      have hrest := ih (up ++ keBytes .exIntermediate (pointKx x25519 secretKey key))
        (List.cons_ne_nil next keys)
      rw [List.append_assoc, ← keyFrames_cons] at hrest
      exact hsnd.trans hrest

theorem star_one_final (a b : Outcome) (up down : ℕ → List UInt8) :
    (star 1 (.ret a) (fun _ => .ret b) up down).Final := by
  intro p
  by_cases hp : p = daemon
  · subst hp
    exact ⟨a, star_proc_daemon⟩
  · by_cases hn : p ≤ 1
    · exact ⟨b, star_proc_client (Nat.pos_of_ne_zero hp) hn⟩
    · refine ⟨.failed, ?_⟩
      simp only [star, if_neg hp, if_neg hn]

variable (x25519)

theorem imposed_client_steps (d : Program Outcome) (rnd session : Key) (hne : keys ≠ []) :
    Net.Steps
      (star 1 (impose keys d) (fun _ => nPartyClient x25519 rnd session keys.length) (fun _ => [])
        (fun _ => []))
      (star 1 d
        (fun _ => .ret (.agreed (sha256KeyDigest (pointKx x25519 (pointD rnd) (keys.getLast hne)))))
        (fun _ => keyFrames
          (pointQ x25519 (pointD rnd) :: keys.dropLast.map (pointKx x25519 (pointD rnd))))
        (fun _ => [])) := by
  have hpublish := one_client_snd (impose keys d) [] [] (pointQ x25519 (pointD rnd))
    (show nPartyClient x25519 rnd session keys.length = _ from rfl)
  have himpose := impose_steps d (clientRounds x25519 (pointD rnd) session keys.length)
    ([] ++ keBytes .exIntermediate (pointQ x25519 (pointD rnd))) [] keys
  have hrounds := clientRounds_steps x25519 d
    ([] ++ keBytes .exIntermediate (pointQ x25519 (pointD rnd))) (pointD rnd) session hne
  rw [List.nil_append] at himpose hrounds hpublish
  rw [List.nil_append] at himpose
  rw [← keyFrames_cons] at hrounds
  exact hpublish.trans (himpose.trans hrounds)

theorem relay_steps (rnd rnd' session : Key) {rounds : ℕ} (hrounds : 0 < rounds) :
    ∃ up, Net.Steps
      (star 1 (relay x25519 rnd rounds) (fun _ => nPartyClient x25519 rnd' session rounds)
        (fun _ => []) (fun _ => []))
      (star 1
        (.ret (.agreed (sha256KeyDigest
          (pointKx x25519 (pointD rnd) (pointQ x25519 (pointD rnd'))))))
        (fun _ => .ret (.agreed (sha256KeyDigest
          (pointKx x25519 (pointD rnd') (pointQ x25519 (pointD rnd))))))
        (fun _ => up) (fun _ => [])) := by
  have hlength := List.length_replicate (n := rounds) (a := pointQ x25519 (pointD rnd))
  have hne : List.replicate rounds (pointQ x25519 (pointD rnd)) ≠ [] :=
    List.ne_nil_of_length_pos (by omega)
  have hlast := List.eq_of_mem_replicate (List.getLast_mem hne)
  -- the client publishes, the relay reads it, writes its own points back and has the key
  have hpublish := one_client_snd (relay x25519 rnd rounds) [] [] (pointQ x25519 (pointD rnd'))
    (show nPartyClient x25519 rnd' session rounds = _ from rfl)
  have hread : Net.Steps
      (star 1 (relay x25519 rnd rounds) (fun _ => clientRounds x25519 (pointD rnd') session rounds)
        (fun _ => keyFrames [pointQ x25519 (pointD rnd')]) (fun _ => []))
      (star 1 (relayReply x25519 (pointD rnd) rounds (some (pointQ x25519 (pointD rnd'))))
        (fun _ => clientRounds x25519 (pointD rnd') session rounds) (fun _ => []) (fun _ => [])) :=
    star_daemon_rcv le_rfl le_rfl (show relay x25519 rnd rounds = _ from rfl) (keyFrames_cons _ [])
      (fun i hi hn hne => absurd (Nat.le_antisymm hn hi) hne)
  generalize hkeys : List.replicate rounds (pointQ x25519 (pointD rnd)) = keys at *
  have himpose := impose_steps (.ret (.agreed (sha256KeyDigest
      (pointKx x25519 (pointD rnd) (pointQ x25519 (pointD rnd'))))))
    (clientRounds x25519 (pointD rnd') session rounds) [] [] keys
  have hclient := clientRounds_steps x25519 (.ret (.agreed (sha256KeyDigest
      (pointKx x25519 (pointD rnd) (pointQ x25519 (pointD rnd')))))) [] (pointD rnd') session hne
  rw [hlength, hlast] at hclient
  rw [List.nil_append] at himpose hpublish
  rw [relayReply, hkeys] at hread
  have hframe : keBytes .exIntermediate (pointQ x25519 (pointD rnd')) =
      keyFrames [pointQ x25519 (pointD rnd')] := (List.append_nil _).symm
  rw [hframe] at hpublish
  exact ⟨_, hpublish.trans (hread.trans (himpose.trans hclient))⟩

end

/-- A relay with a secret of its own ends holding the session key of the client, whatever
the interleaving: no client can tell it from the daemon. -/
theorem relay_shares_session_key (rnd rnd' session : Key) {rounds : ℕ} (hrounds : 0 < rounds)
    (s : Net ℕ UInt8 Outcome)
    (hs : Net.Steps (star 1 (relay X25519.x25519 rnd rounds)
      (fun _ => nPartyClient X25519.x25519 rnd' session rounds) (fun _ => []) (fun _ => [])) s) :
    (¬s.Final → ∃ s', s.Step s') ∧
      (s.Final → ∃ key, s.proc daemon = .ret (.agreed key) ∧ s.proc 1 = .ret (.agreed key)) := by
  obtain ⟨up, hrun⟩ := relay_steps X25519.x25519 rnd rnd' session hrounds
  have hsecret : pointKx X25519.x25519 (pointD rnd') (pointQ X25519.x25519 (pointD rnd)) =
      pointKx X25519.x25519 (pointD rnd) (pointQ X25519.x25519 (pointD rnd')) :=
    X25519.foldr_perm (List.Perm.swap (pointD rnd) (pointD rnd') []) basepoint
  rw [hsecret] at hrun
  obtain ⟨hprogress, hunique⟩ := (star_one_final _ _ _ _).unique hrun hs
  refine ⟨hprogress, fun hfinal => ?_⟩
  rw [hunique hfinal]
  exact ⟨_, star_proc_daemon, star_proc_client le_rfl le_rfl⟩

/-- One client and one relay, with two rounds. -/
theorem relay_shares_session_key_two :
    let start := star 1 (relay X25519.x25519 (threeSecrets 0) 2)
      (fun _ => nPartyClient X25519.x25519 (threeSecrets 1) (threeSecrets 2) 2) (fun _ => [])
      (fun _ => [])
    ∃ s key, Net.Steps start s ∧ s.Final ∧ s.proc daemon = .ret (.agreed key) ∧
      s.proc 1 = .ret (.agreed key) := by
  have hrounds : 0 < 2 := by decide
  obtain ⟨up, hrun⟩ := relay_steps X25519.x25519 (threeSecrets 0) (threeSecrets 1)
    (threeSecrets 2) hrounds
  have hfinal := star_one_final (.agreed (sha256KeyDigest (pointKx X25519.x25519
      (pointD (threeSecrets 0)) (pointQ X25519.x25519 (pointD (threeSecrets 1))))))
    (.agreed (sha256KeyDigest (pointKx X25519.x25519
      (pointD (threeSecrets 1)) (pointQ X25519.x25519 (pointD (threeSecrets 0)))))) (fun _ => up)
    (fun _ => [])
  obtain ⟨key, hrelay, hclient⟩ := (relay_shares_session_key (threeSecrets 0) (threeSecrets 1)
    (threeSecrets 2) hrounds _ hrun).2 hfinal
  exact ⟨_, key, hrun, hfinal, hrelay, hclient⟩

open Montgomery Rfc7748

/-- The eightfold of the point over a public key is infinity. -/
def SmallOrder (point : Key) : Prop :=
  ∃ Q : Curve25519.Point, uCoordinate Q = embed (decodeUCoordinate point) ∧ 8 • Q = 0

theorem smallOrder_of_ladder {u : ZMod p} (hu : u ≠ 0)
    (hz : (eagerLoop 121665 u (8 : ℕ).testBit 4 ⟨1, 0, u, 1⟩).z₂ = 0) :
    SmallOrder (encodeUCoordinate u) := by
  obtain ⟨Q, hQ⟩ := exists_point u
  refine ⟨Q, ?_, nsmul_eq_zero_of_ladder hQ hu 8 4 hz⟩
  rw [decode_encode, hQ]

theorem eight_dvd_scalar (rnd : Key) : 8 ∣ X25519.scalar (pointD rnd) := by
  have hfirst : (pointD rnd).toList[0]? = some (rnd[0] &&& 0xf8) := by
    rw [Vector.getElem?_toList, Vector.getElem?_eq_getElem (by omega), pointD]
    simp only [Vector.getElem_set, OfNat.ofNat_ne_zero, ↓reduceIte]
  have hbyte : (rnd[0] &&& 0xf8).toNat % 8 = 0 := by
    rw [UInt8.toNat_and, show 8 = 2 ^ 3 by rfl, Nat.and_mod_two_pow]
    exact Nat.and_zero _
  cases hbytes : (pointD rnd).toList with
  | nil =>
    rw [hbytes] at hfirst
    cases hfirst
  | cons b rest =>
    rw [hbytes, List.getElem?_cons_zero, Option.some.injEq] at hfirst
    have hdecode : decodeLittleEndian (b :: rest) = b.toNat + 256 * decodeLittleEndian rest := rfl
    rw [X25519.scalar, hbytes, hdecode, hfirst]
    omega

theorem encode_zero : encodeUCoordinate 0 = Vector.replicate 32 0 := by
  ext i hi
  rw [encodeUCoordinate, Vector.getElem_ofFn, Vector.getElem_replicate, ZMod.val_zero,
    Nat.zero_shiftRight]
  rfl

theorem SmallOrder.pointKx {point : Key} (h : SmallOrder point) (rnd : Key) :
    pointKx X25519.x25519 (pointD rnd) point = Vector.replicate 32 0 := by
  obtain ⟨Q, hQ, horder⟩ := h
  obtain ⟨u, hu, hmultiple⟩ := X25519.x25519_multiple (pointD rnd) point hQ
  obtain ⟨m, hm⟩ := eight_dvd_scalar rnd
  have hinfinity : X25519.scalar (pointD rnd) • Q = 0 := by
    rw [hm, mul_comm, mul_nsmul', horder, nsmul_zero]
  have hzero : embed u = embed 0 := by
    rw [hmultiple, hinfinity, map_zero]
    rfl
  rw [Parcel.pointKx, hu, embed_injective hzero, encode_zero]

/-- A public key of small order is not refused: every client that is sent it in the last
round agrees on the digest of zeros, and one that joins takes the control key out of a
cable that anyone can write. -/
theorem small_order_fixes_secret (point : Key) (hpoint : SmallOrder point) :
    (∀ (rnd session : Key) (keys : List Key) (s : Net ℕ UInt8 Outcome),
      Net.Steps (star 1 (impose (keys ++ [point]) (.ret .failed))
        (fun _ => nPartyClient X25519.x25519 rnd session (keys.length + 1)) (fun _ => [])
        (fun _ => [])) s →
      (¬s.Final → ∃ s', s.Step s') ∧
        (s.Final → s.proc 1 = .ret (.agreed (Fips180.sha256 (List.replicate 32 0))))) ∧
    ∀ (rnd planted : Key) (iv : Aes.Block), ∃ w, initWireFromSessionKey planted (some iv) = some w ∧
      twoPartyClient X25519.x25519 rnd point
        (initCable (encryptWire w (Vector.replicate 32 0)).bytes) = some planted := by
  constructor
  · intro rnd session keys s hs
    have hlength : (keys ++ [point]).length = keys.length + 1 := List.length_append
    have hne := List.append_ne_nil_of_right_ne_nil keys (List.cons_ne_nil point [])
    have hrun := imposed_client_steps X25519.x25519 (.ret .failed) rnd session hne
    rw [hlength, List.getLast_append_singleton, hpoint.pointKx] at hrun
    obtain ⟨hprogress, hunique⟩ := (star_one_final _ _ _ _).unique hrun hs
    refine ⟨hprogress, fun hfinal => ?_⟩
    rw [hunique hfinal, star_proc_client le_rfl le_rfl, sha256KeyDigest_eq, Vector.toList_replicate]
  · intro rnd planted iv
    have hlength : planted.toList.length = 32 := Vector.length_toList
    have hfit : 64 + 14 + ceil16 planted.toList.length < 2 ^ 64 := by
      rw [hlength]
      decide
    obtain ⟨w, hw, hdata, hdec⟩ := initWire_decoded .sessionKey iv hfit
    obtain ⟨-, w', hopen, hdec'⟩ := openCable_initCable hfit hdec hdata
      (selectedKey_first (encryptWire_verifies w (Vector.replicate 32 0)) none)
    refine ⟨w, hw, ?_⟩
    rw [twoPartyClient, hpoint.pointKx, hopen, if_pos ⟨rfl, hdec'.type⟩, hdec'.data, readVec_append]

def orderEight : ZMod p :=
  325606250916557431795983626356110631294008115727848805560023387167927233504

theorem orderEight_smallOrder : SmallOrder (encodeUCoordinate orderEight) := by
  apply smallOrder_of_ladder
  · decide +kernel
  · decide +kernel

/-- Two clients with different secrets and the same session key. -/
theorem small_order_fixes_secret_eight : SmallOrder (encodeUCoordinate orderEight) ∧
    ∀ i, ∃ s, Net.Steps (star 1 (impose [encodeUCoordinate orderEight] (.ret .failed))
        (fun _ => nPartyClient X25519.x25519 (threeSecrets i) (threeSecrets 0) 1) (fun _ => [])
        (fun _ => [])) s ∧ s.Final ∧
      s.proc 1 = .ret (.agreed (Fips180.sha256 (List.replicate 32 0))) := by
  refine ⟨orderEight_smallOrder, fun i => ?_⟩
  have hrun := imposed_client_steps X25519.x25519 (.ret .failed) (threeSecrets i)
    (threeSecrets 0) (List.cons_ne_nil (encodeUCoordinate orderEight) [])
  have hfinal := star_one_final .failed (.agreed (sha256KeyDigest (pointKx X25519.x25519
    (pointD (threeSecrets i)) (encodeUCoordinate orderEight))))
    (fun _ => keyFrames [pointQ X25519.x25519 (pointD (threeSecrets i))]) (fun _ => [])
  have hclient := ((small_order_fixes_secret _ orderEight_smallOrder).1 (threeSecrets i)
    (threeSecrets 0) [] _ hrun).2 hfinal
  exact ⟨_, hrun, hfinal, hclient⟩

end Parcel
