import Parcel.CbcChunks
import Parcel.Client

/-!
# Key separation at the client

Control wires come from the daemon under the control key, text, files and status from
other clients under the session key. `decrypt_wire` tries both keys and reports only
success, and `handle_wire` goes by the type in the header, so that the separation holds
of a cable when its sender sealed it with the key that is meant for its type.
-/

namespace Parcel
open ByteStrings Aes

/-- The wire has the IV, the encrypted header and the inner MAC of a wire that
`encrypt_wire` was given with the key. -/
structure SealedFrom (key : Key) (plain w : Wire) : Prop where
  iv : w.iv = (encryptWire plain key).iv
  header : w.header = (encryptWire plain key).header
  macInner : w.macInner = (encryptWire plain key).macInner

def SealedAs (key : Key) (type : WireType) (w : Wire) : Prop :=
  ∃ plain, headerCheckSignature plain.header = true ∧ wireGetType plain = type.code ∧
    SealedFrom key plain w

/-- The wire was not sealed with the session key as a control wire, and with the control
key as text, a file or status only if that is a seal of the session key as well. -/
structure SealedByRole (keys : Keys) (w : Wire) : Prop where
  daemon : ¬SealedAs keys.session .ctrl w
  group : ∀ type ∈ [WireType.text, .file, .stat], SealedAs keys.ctrl type w →
    ∃ plain, SealedFrom keys.session plain w

section

variable {key : Key} {w plain : Wire}

theorem encryptWire_iv (plain : Wire) (key : Key) : (encryptWire plain key).iv = plain.iv := by
  rw [encryptWire, wireGenCmacs]

theorem encryptWire_header_bytes (plain : Wire) (key : Key) : (encryptWire plain key).header =
    Header.ofBytes (aes128Encrypt (aes128Init plain.iv key.cipher) plain.header.bytes blockLen).2 :=
  rfl

theorem encryptWire_macInner (plain : Wire) (key : Key) : (encryptWire plain key).macInner =
    aes128Cmac (aes128InitCmac key.mac) (encryptWire plain key).header.bytes blockLen := rfl

theorem encryptBlocks_decryptBlocks_one (rk : RoundKey) (iv : Block) {chunk : List UInt8}
    (hchunk : chunk.length = 16) :
    (encryptBlocks rk 1 iv (decryptBlocks rk 1 iv chunk).2).2 = chunk := by
  have hnone : chunk.drop 16 = [] := List.drop_of_length_le hchunk.le
  have hread (b : Block) : readVec 16 (b.toList ++ []) = b := readVec_append b []
  have hdrop (b : Block) : (b.toList ++ ([] : List UInt8)).drop 16 = [] :=
    List.drop_left' Vector.length_toList
  rw [decryptBlocks, decryptBlocks, hnone, encryptBlocks, encryptBlocks]
  dsimp only
  rw [hread, hdrop, xor128_cancel, aesXcrypt_inverse', List.append_nil,
    toList_readVec hchunk.ge, List.take_of_length_le hchunk.le]

theorem encrypt_decrypted_header (w : Wire) (key : Key) :
    Header.ofBytes (aes128Encrypt (aes128Init w.iv key.cipher) (Header.ofBytes
      (aes128Decrypt (aes128Init w.iv key.cipher) w.header.bytes blockLen).2).bytes blockLen).2 =
      w.header := by
  have hone : (blockLen + 15) / 16 = 1 := rfl
  have hlength : (decryptBlocks (aesKeyExpansion key.cipher) 1 w.iv w.header.bytes).2.length =
      16 := by
    rw [decryptBlocks_eq, List.length_append, ofBlocks_length, Cbc.decrypt_length, toBlocks_length,
      List.length_drop, Header.bytes_length]
  have hbytes := Header.bytes_ofBytes hlength.ge
  rw [List.take_of_length_le hlength.le] at hbytes
  simp only [aes128Decrypt, aes128Encrypt, aes128Init, hone]
  rw [hbytes, encryptBlocks_decryptBlocks_one _ _ (Header.bytes_length w.header),
    Header.ofBytes_bytes]

/-- The wire with the header that it has under the key. -/
def plainWire (key : Key) (w : Wire) : Wire :=
  let header := (aes128Decrypt (aes128Init w.iv key.cipher) w.header.bytes blockLen).2
  { w with header := Header.ofBytes header }

theorem SealedFrom.verifies (h : SealedFrom key plain w) :
    wireVerifyInnerMac (aes128InitCmac key.mac) w = true := by
  rw [wireVerifyInnerMac, h.macInner, h.header]
  exact decide_eq_true (encryptWire_macInner plain key)

theorem sealedFrom_of_verifies
    (h : wireVerifyInnerMac (aes128InitCmac key.mac) w = true) :
    SealedFrom key (plainWire key w) w := by
  have hheader : w.header = (encryptWire (plainWire key w) key).header := by
    rw [encryptWire_header_bytes]
    exact (encrypt_decrypted_header w key).symm
  refine ⟨?_, hheader, ?_⟩
  · rw [encryptWire_iv, plainWire]
  · rw [encryptWire_macInner, ← hheader]
    exact of_decide_eq_true h

theorem SealedFrom.typeUnder (h : SealedFrom key plain w)
    (hsig : headerCheckSignature plain.header = true) :
    typeUnder w key = wireGetType plain := by
  have hone : (blockLen + 15) / 16 = 1 := rfl
  have hlength : (encryptBlocks (aesKeyExpansion key.cipher) 1 plain.iv plain.header.bytes).2.length
      = 16 := by
    rw [encryptBlocks_length _ _ _ _ (Header.bytes_length _).ge, Header.bytes_length]
  have hbytes := Header.bytes_ofBytes hlength.ge
  rw [List.take_of_length_le hlength.le] at hbytes
  have hiv : w.iv = plain.iv := h.iv.trans (encryptWire_iv plain key)
  rw [Parcel.typeUnder, wireDecryptHeader, h.header, encryptWire_header_bytes, hiv]
  simp only [aes128Decrypt, aes128Encrypt, aes128Init, hone, hbytes]
  rw [decryptBlocks_encryptBlocks _ _ _ _ (Header.bytes_length _).ge, Header.ofBytes_bytes,
    if_pos hsig, wireGetType]

/-- A wire is sealed as one of a type when its MAC verifies and its header has the type. -/
theorem sealedAs_iff {type : WireType} (htype : type ≠ .none) : SealedAs key type w ↔
    wireVerifyInnerMac (aes128InitCmac key.mac) w = true ∧ typeUnder w key = type.code := by
  constructor
  · rintro ⟨plain, hsig, hcode, hsealed⟩
    exact ⟨hsealed.verifies, (hsealed.typeUnder hsig).trans hcode⟩
  · rintro ⟨hverifies, hcode⟩
    have hpositive : type.code ≠ 0 := by
      cases type with
      | none => exact absurd rfl htype
      | _ => decide
    rw [typeUnder, wireDecryptHeader] at hcode
    dsimp only at hcode
    split at hcode
    next hsig => exact ⟨plainWire key w, hsig, hcode, sealedFrom_of_verifies hverifies⟩
    next => exact absurd hcode.symm hpositive

end

/-- The function `handle_wire` passes the wire to the handler of the type. -/
def ProcessedAs (ctx : ClientState) (wire : Wire) (type : WireType) : Prop :=
  wireGetType wire = type.code ∧ ∀ env, handleWire env ctx wire =
    match type with
    | .ctrl => procCtrl env ctx wire.data
    | .file => (env.procFile wire.data, ctx)
    | .text => ((procText wire.data).toBool, ctx)
    | .stat => ((procStat wire.data).toBool, ctx)
    | _ => (false, ctx)

theorem processedAs_iff {ctx : ClientState} {wire : Wire} {type : WireType} :
    ProcessedAs ctx wire type ↔ wireGetType wire = type.code := by
  refine ⟨fun h => h.1, fun h => ⟨h, fun env => ?_⟩⟩
  rw [handleWire, h]
  cases type <;> rfl

/-- What changes the client's keys, or is processed as a control wire, was verified with
the control key, and what is processed as text, a file or status with the session key. -/
def KeySeparated (ctx : ClientState) (cable : Cable) (wire : Wire) : Prop :=
  ((∃ env, (handleWire env ctx wire).2.keys ≠ ctx.keys) ∨ ProcessedAs ctx wire .ctrl →
    verifyingKey ctx.keys cable = some ctx.keys.ctrl) ∧
  ∀ type ∈ [WireType.text, .file, .stat], ProcessedAs ctx wire type →
    verifyingKey ctx.keys cable = some ctx.keys.session

theorem handlerOf_ctrl {type : UInt8} (h : handlerOf type = .ctrl) : type = WireType.ctrl.code := by
  unfold handlerOf at h
  split_ifs at h with hctrl
  exact hctrl

theorem keySeparated_iff {ctx : ClientState} {cable : Cable} {wire : Wire} :
    KeySeparated ctx cable wire ↔
      (wireGetType wire = WireType.ctrl.code →
        verifyingKey ctx.keys cable = some ctx.keys.ctrl) ∧
      ∀ type ∈ [WireType.text, .file, .stat], wireGetType wire = type.code →
        verifyingKey ctx.keys cable = some ctx.keys.session := by
  have hctrl : ((∃ env, (handleWire env ctx wire).2.keys ≠ ctx.keys) ∨
      ProcessedAs ctx wire .ctrl) ↔ wireGetType wire = WireType.ctrl.code := by
    constructor
    · rintro (⟨env, hkeys⟩ | hprocessed)
      · exact handlerOf_ctrl (handleWire_keys hkeys)
      · exact hprocessed.1
    · exact fun htype => Or.inr (processedAs_iff.mpr htype)
  rw [KeySeparated, hctrl]
  simp only [processedAs_iff]

/-- Key separation holds of an accepted cable exactly when its wire was sealed with the
key for its type. -/
theorem key_separation_iff (ctx : ClientState) (cable : Cable) (wire : Wire)
    (hne : ctx.keys.session ≠ ctx.keys.ctrl) (h : decryptCabledWire ctx cable = some wire) :
    KeySeparated ctx cable wire ↔ SealedByRole ctx.keys (cabledWire cable) := by
  obtain ⟨key, hkey, htype⟩ := decryptCabledWire_some h
  have hcodes : ∀ type ∈ [WireType.text, .file, .stat], type ≠ .none := by decide
  have hdaemon : SealedAs ctx.keys.session .ctrl (cabledWire cable) ↔ _ :=
    sealedAs_iff (by decide)
  rw [keySeparated_iff, hkey, htype]
  rw [verifyingKey, selectedKey] at hkey
  by_cases hfirst :
      wireVerifyInnerMac (aes128InitCmac ctx.keys.session.mac) (cabledWire cable) = true
  · -- the session key verifies: only a control wire is in the wrong place
    rw [if_pos hfirst] at hkey
    obtain rfl := Option.some.inj hkey
    constructor
    · rintro ⟨hctrl, -⟩
      refine ⟨fun hsealed => ?_, fun _ _ _ => ⟨_, sealedFrom_of_verifies hfirst⟩⟩
      exact hne (Option.some.inj (hctrl (hdaemon.mp hsealed).2))
    · intro hrole
      exact ⟨fun hctrl => absurd (hdaemon.mpr ⟨hfirst, hctrl⟩) hrole.daemon, fun _ _ _ => rfl⟩
  · -- the control key verifies: only a control wire is in its place
    rw [if_neg hfirst] at hkey
    have hfilter := Option.filter_eq_some_iff.mp hkey
    obtain rfl := Option.some.inj hfilter.1
    have hsecond := hfilter.2
    constructor
    · rintro ⟨-, hgroup⟩
      refine ⟨fun hsealed => hfirst (hdaemon.mp hsealed).1, fun type hmem hsealed => ?_⟩
      have hcode := ((sealedAs_iff (hcodes type hmem)).mp hsealed).2
      exact absurd (Option.some.inj (hgroup type hmem hcode)).symm hne
    · intro hrole
      refine ⟨fun _ => rfl, fun type hmem hcode => ?_⟩
      obtain ⟨plain, hsealed⟩ := hrole.group type hmem
        ((sealedAs_iff (hcodes type hmem)).mpr ⟨hsecond, hcode⟩)
      exact absurd hsealed.verifies hfirst

/-- Text that a client of the group sends is processed as text, and separated. -/
theorem key_separation_text :
    onesClient.keys.session ≠ onesClient.keys.ctrl ∧
      ∃ cable wire, decryptCabledWire onesClient cable = some wire ∧
        ProcessedAs onesClient wire .text ∧ KeySeparated onesClient cable wire := by
  have hne : onesClient.keys.session ≠ onesClient.keys.ctrl := by decide
  obtain ⟨hsized, hdata, -, -⟩ := textMsgFromText_spec
    (show 0 ∉ [97] by decide) (by decide) (show 73 + [104].length < 2 ^ 64 by decide)
  obtain ⟨w, -, hopen⟩ := openCable_msg .text (Vector.replicate 16 0) hsized
    (by rw [hdata]; decide)
  have hinner := encryptWire_verifies w onesClient.keys.session
  obtain ⟨wire, hwire, htype, -⟩ := hopen (selectedKey_first hinner (some onesClient.keys.ctrl))
  have haccepted : decryptCabledWire onesClient
      (initCable (encryptWire w onesClient.keys.session).bytes) = some wire := by
    rw [decryptCabledWire, hwire, if_pos rfl]
  refine ⟨hne, _, wire, haccepted, processedAs_iff.mpr htype, ?_⟩
  obtain ⟨key, hkey, hunder⟩ := decryptCabledWire_some haccepted
  rw [verifyingKey, cabledWire_initCable, selectedKey_first hinner] at hkey
  obtain rfl := Option.some.inj hkey
  rw [cabledWire_initCable, htype] at hunder
  refine (key_separation_iff onesClient _ wire hne haccepted).mpr ⟨?_, ?_⟩
  · rw [cabledWire_initCable, sealedAs_iff (by decide), ← hunder]
    exact fun hsealed => absurd hsealed.2 (by decide)
  · intro _ _ _
    rw [cabledWire_initCable]
    exact ⟨_, sealedFrom_of_verifies hinner⟩

/-- A holder of the session key replaces both keys of another client: a control
message sealed with the session key is handled like one from the daemon. -/
theorem session_holder_sets_keys :
    ∃ cable wire,
      initCtrlKeyCable 1 (Vector.replicate 32 5) onesClient.keys.session
        (some (Vector.replicate 16 0)) = some cable ∧
      decryptCabledWire onesClient cable = some wire ∧
      (handleWire sevens onesClient wire).2.keys =
        ⟨Vector.replicate 32 7, Vector.replicate 32 5⟩ ∧
      ¬KeySeparated onesClient cable wire := by
  obtain ⟨hsized, hdata, -, -⟩ := initCtrl_spec 1 (Vector.replicate 32 5)
  obtain ⟨w, hw, hopen⟩ := openCable_msg .ctrl (Vector.replicate 16 0) hsized
    (by rw [hdata]; decide)
  have hinner := encryptWire_verifies w onesClient.keys.session
  obtain ⟨wire, hwire, htype, hmsg⟩ := hopen (selectedKey_first hinner (some onesClient.keys.ctrl))
  have hcable : initCtrlKeyCable 1 (Vector.replicate 32 5) onesClient.keys.session
      (some (Vector.replicate 16 0)) =
        some (initCable (encryptWire w onesClient.keys.session).bytes) := by
    rw [initCtrlKeyCable, initWireFromCtrlMsg, hw, Option.map_some]
  have hhandler : handlerOf (wireGetType wire) = .ctrl := by
    rw [htype]
    decide
  have hkeys : (handleWire sevens onesClient wire).2.keys =
      ⟨Vector.replicate 32 7, Vector.replicate 32 5⟩ := by
    rw [handleWire, hhandler]
    exact procCtrl_initCtrl hmsg rfl
  refine ⟨_, wire, hcable, ?_, hkeys, ?_⟩
  · rw [decryptCabledWire, hwire, if_pos rfl]
  · rintro ⟨hctrl, -⟩
    have hkey := hctrl (Or.inl ⟨sevens, by rw [hkeys]; decide⟩)
    rw [verifyingKey, cabledWire_initCable, selectedKey_first hinner] at hkey
    exact absurd (Option.some.inj hkey) (by decide)

end Parcel
