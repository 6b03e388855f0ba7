import Parcel.BoundedReads
import Parcel.Client
import Parcel.FileMessages

/-!
# Reads of the message handlers

`handle_wire` and its handlers over the authenticated data of a wire, with every
read of that data and every index into a table checked: the result is `none` as
soon as one leaves its bounds. Where it is not, it is the result of the handlers.
The condition for that is read off the messages: a type that the table names, and
every string, array and length that the handler gets to lying inside the data.
-/

namespace Parcel
open ByteStrings BoundedReads Aes

/-- The bytes of `wire->data` that the outer MAC covers and `decrypt_wire` decrypted. -/
def payload (wire : Wire) : List UInt8 := wire.data.take (wireGetAlignedDataLength wire)

/-! ## The handlers -/

/-- The table `types` of `handle_wire`. -/
def typeNames : List String :=
  ["TYPE_NONE", "TYPE_TEXT", "TYPE_FILE", "TYPE_CTRL", "TYPE_STAT", "TYPE_SESSION_KEY"]

/-- The table `msgs` of `proc_stat`. -/
def statMsgs : List String :=
  ["\x1b[2K\r\x1b[32m⏺\x1b[3;90m %s is online\x1b[0m\n",
    "\x1b[2K\r\x1b[31m⏺\x1b[3;90m %s is offline\x1b[0m\n",
    "\x1b[2K\r\x1b[90m⏺\x1b[3;90m %s → %s\x1b[0m\n"]

def textReads (data : List UInt8) : Option (Except ProcError ShownText) := do
  let type ← byteAt data 0
  if type ≠ textMsgNormal then return .error .invalidTextType
  else
    let user ← fieldAt data 9 64
    if user = [] then return .error .emptyUser
    else
      let aux ← stringIn (data.drop 73)
      return .ok ⟨user, some aux⟩

def statReads (data : List UInt8) : Option (Except ProcError ShownStat) := do
  let type ← byteAt data 0
  let user ← fieldAt data 9 64
  if user = [] then return .error .emptyUser
  else if type = StatMsgType.userConnect.code then
    let _ ← statMsgs[type.toNat]?
    return .ok (.online user)
  else if type = StatMsgType.userDisconnect.code then
    let _ ← statMsgs[type.toNat]?
    return .ok (.offline user)
  else if type = StatMsgType.userRename.code then
    let _ ← statMsgs[type.toNat]?
    let aux ← stringIn (data.drop 73)
    return .ok (.renamed user (some aux))
  else return .ok .nothing

/-- The function `file_msg_get_payload_length`, for a length field that neither
wraps the subtraction nor goes past the data. -/
def payloadLengthOf (data : List UInt8) : Option ℕ := do
  let len ← copyAt data 1 8
  if Msg.size 4170 ≤ packLE len ∧ packLE len ≤ data.length then
    return packLE len - Msg.size 4170
  else none

/-- The function `file_msg_to_file`: the contents are read when the file opens,
the mode in any case. -/
def saveReads (env : Saving) (data : List UInt8) : Option (Option SavedFile) := do
  let filename ← fieldAt data 73 4095
  if filename = [] then return none
  else
    let path := match env.home with
      | some directory => directory ++ 0x2f :: filename
      | none => filename
    let size ← payloadLengthOf data
    let contents ← if env.opened then copyAt data (Msg.size 4170) size else some []
    let mode ← copyAt data 4177 2
    return if env.opened && env.written && env.chmod then
      some ⟨path, contents, packLE mode &&& 0o777⟩ else none

def fileReads (env : Saving) (data : List UInt8) : Option (Except FileError ShownFile) := do
  let filename ← fieldAt data 73 4095
  if filename = [] then return .error .emptyFilename
  else
    let sender ← fieldAt data 9 64
    if sender ≠ [] then return .error .emptyUser
    else
      let filesize ← payloadLengthOf data
      let saved ← saveReads env data
      return match saved with
        | none => .error .writing
        | some saved => .ok ⟨sender, filename, filesize >>> 10, saved⟩

/-- The end of `proc_ctrl`, with the session key that the exchange left. -/
def renewReads (env : Outcomes) (ctx : ClientState) (data : List UInt8) :
    Option Key → Option (Bool × ClientState)
  | none => return (false, ctx)
  | some session => do
    let renewedKey ← copyAt data 11 32
    let ctx := { ctx with keys := ⟨session, readVec 32 renewedKey⟩ }
    return if ctx.connAnnounced then (true, ctx)
      else (env.announceConnection, { ctx with connAnnounced := env.announceConnection })

def ctrlReads (env : Outcomes) (ctx : ClientState) (data : List UInt8) :
    Option (Bool × ClientState) := do
  let type ← byteAt data 0
  if type = CtrlMsgType.dhke.code then
    let cnt ← copyAt data 9 2
    renewReads env ctx data (env.nPartyClient (packLE cnt))
  else renewReads env ctx data (some (Vector.replicate 32 0))

/-- The arguments of `log_trace` are evaluated at every log level. -/
def handleReads (env : Outcomes) (saving : Saving) (ctx : ClientState) (wire : Wire) :
    Option (Bool × ClientState) := do
  let _ ← typeNames[(wireGetType wire).toNat]?
  match handlerOf (wireGetType wire) with
  | .ctrl => ctrlReads env ctx (payload wire)
  | .file => (fileReads saving (payload wire)).map fun r => (r.toBool, ctx)
  | .text => (textReads (payload wire)).map fun r => (r.toBool, ctx)
  | .stat => (statReads (payload wire)).map fun r => (r.toBool, ctx)
  | .default => return (false, ctx)

/-- A text of the normal type has its name inside and, unless that is empty, a NUL
behind the fixed fields. -/
def TextWithin (data : List UInt8) : Prop :=
  data ≠ [] ∧ (data.getD 0 0 = textMsgNormal →
    StringWithin data 9 64 ∧ (data.getD 9 0 ≠ 0 → 0 ∈ data.drop 73))

/-- Of the status messages only a rename is read behind the fixed fields. -/
def StatWithin (data : List UInt8) : Prop :=
  data ≠ [] ∧ StringWithin data 9 64 ∧
    (data.getD 9 0 ≠ 0 → data.getD 0 0 = StatMsgType.userRename.code → 0 ∈ data.drop 73)

/-- The length field is between the size of a `file_msg_t` and that of the data. -/
def LengthWithin (data : List UInt8) : Prop :=
  Msg.size 4170 ≤ packLE ((data.drop 1).take 8) ∧ packLE ((data.drop 1).take 8) ≤ data.length

/-- A file message with a file name and without a user name, which is the one that
is saved, has its length inside. -/
def FileWithin (data : List UInt8) : Prop :=
  StringWithin data 73 4095 ∧ (data.getD 73 0 ≠ 0 → data.getD 9 0 = 0 → LengthWithin data)

/-- A control message has its count inside when it asks for an exchange, and the
key unless that exchange fails. -/
def CtrlWithin (env : Outcomes) (data : List UInt8) : Prop :=
  data ≠ [] ∧ (data.getD 0 0 = CtrlMsgType.dhke.code → 11 ≤ data.length) ∧
    ((data.getD 0 0 = CtrlMsgType.dhke.code →
      env.nPartyClient (packLE ((data.drop 9).take 2)) ≠ none) → 43 ≤ data.length)

/-- The type is one of the table's, and the message of that type is inside. -/
def MessageWithin (env : Outcomes) (type : UInt8) (data : List UInt8) : Prop :=
  type.toNat < typeNames.length ∧
    match handlerOf type with
    | .ctrl => CtrlWithin env data
    | .file => FileWithin data
    | .text => TextWithin data
    | .stat => StatWithin data
    | .default => True

/-! ## The reads of each handler -/

theorem getUser_ofBytes (data : List UInt8) :
    getUser (Msg.ofBytes 64 data) = fieldString data 9 64 := by
  rw [getUser, take_strnlen, fieldString, Msg.ofBytes, takeWhile_readVec _ le_rfl]

theorem fileMsgGetUser_ofBytes (data : List UInt8) :
    fileMsgGetUser (Msg.ofBytes 4170 data) = fieldString data 9 64 := by
  rw [fileMsgGetUser, take_strnlen, fieldString, getField, Msg.ofBytes,
    readVec_drop_readVec _ (by decide), List.drop_zero, takeWhile_readVec _ le_rfl]

theorem fileMsgGetFilename_ofBytes (data : List UInt8) :
    fileMsgGetFilename (Msg.ofBytes 4170 data) = fieldString data 73 4095 := by
  rw [fileMsgGetFilename, take_strnlen, fieldString, getField, Msg.ofBytes,
    readVec_drop_readVec _ (by decide), List.drop_drop, takeWhile_readVec _ (by decide)]

theorem userWithin_iff (data : List UInt8) (Q : Prop) :
    (StringWithin data 9 64 ∧ (¬fieldString data 9 64 = [] → Q)) ↔
      StringWithin data 9 64 ∧ (data.getD 9 0 ≠ 0 → Q) := by
  apply and_congr_right
  intro h
  rw [fieldString_eq_nil_iff (by decide) h]

theorem readsWhen_text (data : List UInt8) :
    ReadsWhen (textReads data) (TextWithin data) (procText data) := by
  unfold textReads
  refine ReadsWhen.congr (ReadsWhen.bind (readsWhen_byteAt data 0) fun _ =>
    ReadsWhen.ite (fun _ => ReadsWhen.pure _) fun _ =>
      ReadsWhen.bind (readsWhen_fieldAt data 9 (by decide)) fun _ =>
        ReadsWhen.ite (fun _ => ReadsWhen.pure _) fun _ =>
          ReadsWhen.bind (readsWhen_stringIn (data.drop 73)) fun _ => ReadsWhen.pure _) ?_ ?_
  · simp only [imp_true_iff, true_and, and_true, not_not, TextWithin, List.length_pos_iff]
    apply and_congr_right
    intro _
    apply imp_congr_right
    intro _
    exact userWithin_iff data _
  · rintro ⟨-, -, hrest⟩
    have hshown : procText data = if data.getD 0 0 ≠ textMsgNormal then .error .invalidTextType
        else if fieldString data 9 64 = [] then .error .emptyUser
        else .ok ⟨fieldString data 9 64, cString (data.drop 73)⟩ := by
      rw [procText, getUser_ofBytes]
      rfl
    rw [hshown]
    split_ifs with htype huser
    · rfl
    · rfl
    · have hbody : cString (data.drop 73) = some ((data.drop 73).takeWhile (· != 0)) :=
        if_pos ((hrest htype).2.2 huser).1
      rw [hbody]

theorem readsWhen_stat (data : List UInt8) :
    ReadsWhen (statReads data) (StatWithin data) (procStat data) := by
  have htable (type : StatMsgType) : type.code.toNat < statMsgs.length := by
    cases type <;> decide
  unfold statReads
  -- the reads in the order of the source: type, user, table of texts, the new name
  refine ReadsWhen.congr (ReadsWhen.bind (readsWhen_byteAt data 0) fun _ =>
    ReadsWhen.bind (readsWhen_fieldAt data 9 (by decide)) fun _ =>
      ReadsWhen.ite (fun _ => ReadsWhen.pure _) fun _ =>
      ReadsWhen.ite (fun _ => ReadsWhen.bind (readsWhen_getElem? _ _ "") fun _ => ReadsWhen.pure _)
        fun _ =>
      ReadsWhen.ite (fun _ => ReadsWhen.bind (readsWhen_getElem? _ _ "") fun _ => ReadsWhen.pure _)
        fun _ =>
      ReadsWhen.ite (fun _ => ReadsWhen.bind (readsWhen_getElem? _ _ "") fun _ =>
        ReadsWhen.bind (readsWhen_stringIn (data.drop 73)) fun _ => ReadsWhen.pure _)
        fun _ => ReadsWhen.pure _) ?_ ?_
  -- the bounds: the table is long enough for all types, so the name's end remains
  · rw [StatWithin, List.length_pos_iff]
    apply and_congr_right
    intro _
    rw [← userWithin_iff]
    apply and_congr_right
    intro _
    simp only [imp_true_iff, true_and, and_true]
    apply imp_congr_right
    intro _
    constructor
    -- the result is the one of the handler
    · rintro ⟨-, hother⟩ hren
      have h1 : ¬data.getD 0 0 = StatMsgType.userConnect.code := by rw [hren]; decide
      have h2 : ¬data.getD 0 0 = StatMsgType.userDisconnect.code := by rw [hren]; decide
      exact (((hother h1).2 h2) hren).2
    · intro hren
      refine ⟨fun h => ?_, fun _ => ⟨fun h => ?_, fun _ h => ⟨?_, hren h⟩⟩⟩ <;>
        · rw [h]
          exact htable _
  · rintro ⟨-, -, -, hrest⟩
    have hshown : procStat data = if fieldString data 9 64 = [] then .error .emptyUser
        else if data.getD 0 0 = StatMsgType.userConnect.code then
          .ok (.online (fieldString data 9 64))
        else if data.getD 0 0 = StatMsgType.userDisconnect.code then
          .ok (.offline (fieldString data 9 64))
        else if data.getD 0 0 = StatMsgType.userRename.code then
          .ok (.renamed (fieldString data 9 64) (cString (data.drop 73)))
        else .ok .nothing := by
      rw [procStat, getUser_ofBytes]
      rfl
    rw [hshown]
    split_ifs with huser h1 h2 h3
    · rfl
    · rfl
    · rfl
    · have hbody : cString (data.drop 73) = some ((data.drop 73).takeWhile (· != 0)) :=
        if_pos ((((hrest huser).2 h1).2 h2).1 h3).2.1
      rw [hbody]
    · rfl

theorem readsWhen_payloadLengthOf (data : List UInt8) :
    ReadsWhen (payloadLengthOf data) (LengthWithin data)
      (packLE ((data.drop 1).take 8) - Msg.size 4170) := by
  unfold payloadLengthOf
  refine ReadsWhen.congr (ReadsWhen.bind (readsWhen_copyAt data 1 (by decide)) fun _ =>
    ReadsWhen.guard _) ?_ fun _ => rfl
  rw [LengthWithin, Msg.size]
  omega

theorem fileMsgGetPayloadLength_ofBytes {data : List UInt8} (h : LengthWithin data) :
    fileMsgGetPayloadLength (Msg.ofBytes 4170 data) =
      packLE ((data.drop 1).take 8) - Msg.size 4170 := by
  have hlong : 8 ≤ (data.drop 1).length := by
    rw [LengthWithin, Msg.size] at h
    rw [List.length_drop]
    omega
  have hlt : packLE ((data.drop 1).take 8) < 2 ^ 64 := by
    have hpack := packLE_lt ((data.drop 1).take 8)
    rw [List.length_take, Nat.min_eq_left hlong] at hpack
    norm_num at hpack ⊢
    exact hpack
  rw [fileMsgGetPayloadLength, Msg.getWireLength, Msg.ofBytes, wirePack64, toList_readVec hlong,
    sizeSub_eq h.1 hlt]

theorem fileMsgGetMode_ofBytes {data : List UInt8} (h : 4179 ≤ data.length) :
    fileMsgGetMode (Msg.ofBytes 4170 data) = packLE ((data.drop 4177).take 2) := by
  rw [fileMsgGetMode, getField, Msg.ofBytes, readVec_drop_readVec _ (by decide), List.drop_drop,
    toList_readVec (by rw [List.length_drop]; omega)]

theorem saveReads_eq (env : Saving) {data : List UInt8} (hname : StringWithin data 73 4095)
    (hlen : LengthWithin data) :
    saveReads env data = some (fileMsgToFile (Msg.ofBytes 4170 data) env) := by
  have hlong : 4179 ≤ data.length := hlen.1.trans hlen.2
  have hsize : Msg.size 4170 + (packLE ((data.drop 1).take 8) - Msg.size 4170) ≤ data.length := by
    rw [LengthWithin] at hlen
    omega
  have hcontents : copyAt data (Msg.size 4170) (packLE ((data.drop 1).take 8) - Msg.size 4170) =
      some ((Msg.ofBytes 4170 data).data.take (packLE ((data.drop 1).take 8) - Msg.size 4170)) :=
    copyAt_eq hsize
  have hmode : copyAt data 4177 2 = some ((data.drop 4177).take 2) := copyAt_eq hlong
  rw [saveReads, (readsWhen_fieldAt data 73 (by decide)).1 hname,
    (readsWhen_payloadLengthOf data).1 hlen, fileMsgToFile, fileMsgGetFilename_ofBytes,
    fileMsgGetPayloadLength_ofBytes hlen, fileMsgGetMode_ofBytes hlong, hmode]
  simp only [Option.bind_eq_bind, Option.bind_some, hcontents]
  by_cases hfile : fieldString data 73 4095 = []
  · rw [if_pos hfile, if_pos hfile]
    rfl
  · rw [if_neg hfile, if_neg hfile]
    by_cases hopen : env.opened = true
    · rw [if_pos hopen]
      rfl
    · rw [if_neg hopen]
      simp only [Bool.not_eq_true] at hopen
      simp only [hopen, Bool.false_and, Bool.false_eq_true, ↓reduceIte]
      rfl

theorem readsWhen_file (env : Saving) (data : List UInt8) :
    ReadsWhen (fileReads env data) (FileWithin data) (procFile env data) := by
  have hsave : StringWithin data 73 4095 → LengthWithin data →
      ReadsWhen (saveReads env data) True (fileMsgToFile (Msg.ofBytes 4170 data) env) :=
    fun hname hlen => ⟨fun _ => saveReads_eq env hname hlen, fun h => absurd trivial h⟩
  unfold fileReads
  refine ReadsWhen.congr (ReadsWhen.bind (readsWhen_fieldAt data 73 (by decide)) fun hname =>
    ReadsWhen.ite (fun _ => ReadsWhen.pure _) fun _ =>
      ReadsWhen.bind (readsWhen_fieldAt data 9 (by decide)) fun _ =>
        ReadsWhen.ite (fun _ => ReadsWhen.pure _) fun _ =>
          ReadsWhen.bind (readsWhen_payloadLengthOf data) fun hlen =>
            ReadsWhen.bind (hsave hname hlen) fun _ => ReadsWhen.pure _) ?_ ?_
  · rw [FileWithin]
    apply and_congr_right
    intro hname
    have hlt := hname.lt_length (by decide)
    have huser : StringWithin data 9 64 := Or.inl (by omega)
    simp only [imp_true_iff, true_and, and_true, not_not, huser,
      fieldString_eq_nil_iff (by decide) hname, fieldString_eq_nil_iff (by decide) huser]
  · rintro ⟨hname, -, hrest⟩
    rw [procFile, fileMsgGetFilename_ofBytes, fileMsgGetUser_ofBytes]
    split_ifs with hfile huser
    · rfl
    · rfl
    · have hlen : LengthWithin data := (((hrest hfile).2).2 huser).1
      rewrite [fileMsgGetPayloadLength_ofBytes hlen]
      cases fileMsgToFile (Msg.ofBytes 4170 data) env with
      | none => rfl
      | some saved => rfl

/-- The end of `proc_ctrl`, without the checks. -/
def renewKeys (env : Outcomes) (ctx : ClientState) (data : List UInt8) :
    Option Key → Bool × ClientState
  | none => (false, ctx)
  | some session =>
    let ctx := { ctx with keys := ⟨session, readVec 32 (data.drop 11)⟩ }
    if ctx.connAnnounced then (true, ctx)
    else (env.announceConnection, { ctx with connAnnounced := env.announceConnection })

theorem procCtrl_eq (env : Outcomes) (ctx : ClientState) (data : List UInt8) :
    procCtrl env ctx data = renewKeys env ctx data
      (if data.getD 0 0 = CtrlMsgType.dhke.code then
        env.nPartyClient (ctrlMsgGetCnt (Msg.ofBytes 2 data))
        else some (Vector.replicate 32 0)) := by
  have htype : (Msg.ofBytes 2 data).type = data.getD 0 0 := rfl
  rw [procCtrl, htype]
  generalize (if data.getD 0 0 = CtrlMsgType.dhke.code then
    env.nPartyClient (ctrlMsgGetCnt (Msg.ofBytes 2 data)) else some (Vector.replicate 32 0)) = key
  cases key with
  | none => rfl
  | some session => rfl

theorem readsWhen_renew (env : Outcomes) (ctx : ClientState) (data : List UInt8)
    (session : Option Key) :
    ReadsWhen (renewReads env ctx data session) (session ≠ none → 43 ≤ data.length)
      (renewKeys env ctx data session) := by
  cases session with
  | none => exact (ReadsWhen.pure _).congr (by simp) fun _ => rfl
  | some session =>
    refine ReadsWhen.congr (ReadsWhen.bind (readsWhen_copyAt data 11 (by decide)) fun _ =>
      ReadsWhen.pure _) (by simp) ?_
    rintro ⟨hlong, -⟩
    have hkey : readVec 32 ((data.drop 11).take 32) = readVec 32 (data.drop 11) := by
      rw [← toList_readVec (by rw [List.length_drop]; omega), readVec_toList]
    rw [hkey]
    rfl

theorem readsWhen_ctrl (env : Outcomes) (ctx : ClientState) (data : List UInt8) :
    ReadsWhen (ctrlReads env ctx data) (CtrlWithin env data) (procCtrl env ctx data) := by
  unfold ctrlReads
  refine ReadsWhen.congr (ReadsWhen.bind (readsWhen_byteAt data 0) fun _ =>
    ReadsWhen.ite (fun _ => ReadsWhen.bind (readsWhen_copyAt data 9 (by decide)) fun _ =>
      readsWhen_renew env ctx data _) fun _ => readsWhen_renew env ctx data _) ?_ ?_
  · rw [CtrlWithin, List.length_pos_iff]
    apply and_congr_right
    intro _
    generalize data.getD 0 0 = type
    by_cases hdhke : type = CtrlMsgType.dhke.code <;> simp [hdhke]
  · rintro ⟨-, hcnt, -⟩
    rw [procCtrl_eq]
    split_ifs with hdhke
    · have hlong := (hcnt hdhke).1
      rw [ctrlMsgGetCnt, Msg.ofBytes, wirePack16, toList_readVec (by rw [List.length_drop]; omega)]
    · rfl

/-- The dispatch of `handle_wire` on data, with `proc_file` written out. -/
def handleData (env : Outcomes) (saving : Saving) (ctx : ClientState) (type : UInt8)
    (data : List UInt8) : Bool × ClientState :=
  match handlerOf type with
  | .ctrl => procCtrl env ctx data
  | .file => ((procFile saving data).toBool, ctx)
  | .text => ((procText data).toBool, ctx)
  | .stat => ((procStat data).toBool, ctx)
  | .default => (false, ctx)

theorem handleData_eq {env : Outcomes} {saving : Saving}
    (hfile : ∀ data, env.procFile data = (procFile saving data).toBool) (ctx : ClientState)
    (wire : Wire) :
    handleData env saving ctx (wireGetType wire) wire.data = handleWire env ctx wire := by
  rewrite [handleData, handleWire, hfile]
  cases handlerOf (wireGetType wire) with
  | ctrl => rfl
  | file => rfl
  | text => rfl
  | stat => rfl
  | default => rfl

theorem readsWhen_handleData (env : Outcomes) (saving : Saving) (ctx : ClientState) (wire : Wire) :
    ReadsWhen (handleReads env saving ctx wire)
      (MessageWithin env (wireGetType wire) (payload wire))
      (handleData env saving ctx (wireGetType wire) (payload wire)) := by
  rw [handleReads, handleData, MessageWithin]
  generalize payload wire = data
  refine ReadsWhen.bind (readsWhen_getElem? typeNames _ "") fun _ => ?_
  cases handlerOf (wireGetType wire) with
  | ctrl => exact readsWhen_ctrl env ctx data
  | file => exact (readsWhen_file saving data).map _
  | text => exact (readsWhen_text data).map _
  | stat => exact (readsWhen_stat data).map _
  | default => exact ReadsWhen.pure _

/-- The handlers stay inside the authenticated data and inside their tables, and
the payload length they compute is one of the data. -/
def Contained (env : Outcomes) (saving : Saving) (ctx : ClientState) (wire : Wire) : Prop :=
  (handleReads env saving ctx wire).isSome

/-- For every wire, whatever its type, its data and their length, the handlers
stay inside exactly when the message does. -/
theorem handlers_contained_iff (env : Outcomes) (saving : Saving) (ctx : ClientState)
    (wire : Wire) :
    Contained env saving ctx wire ↔ MessageWithin env (wireGetType wire) (payload wire) :=
  (readsWhen_handleData env saving ctx wire).isSome_iff

theorem payload_decoded {w : Wire} {type : WireType} {p : List UInt8} (h : Decoded w type p)
    (hfit : 64 + 14 + ceil16 p.length < 2 ^ 64) : payload w = w.data := by
  have hle := le_ceil16 p.length
  have hlen : w.data.length = ceil16 p.length := by
    rw [h.data, List.length_append, List.length_replicate, h.alignment]
    omega
  have haligned : wireGetAlignedDataLength w = ceil16 p.length := by
    have hwire : headerGetLength w.header = wireSize + ceil16 p.length := h.wireLen
    rw [wireGetAlignedDataLength, headerGetAlignedDataLength, hwire,
      sizeSub_eq (Nat.le_add_right _ _) (by rw [wireSize]; omega), Nat.add_sub_cancel_left]
  rw [payload, haligned]
  exact List.take_of_length_le hlen.le

theorem textWithin_iff {m : Msg 64} (htype : m.type = textMsgNormal) (huser : getUser m ≠ [])
    (rest : List UInt8) : TextWithin (m.bytes ++ rest) ↔ 0 ∈ m.data ++ rest := by
  have hmsg := Msg.ofBytes_append m rest
  have hlong : 73 ≤ (m.bytes ++ rest).length := by
    rw [List.length_append, m.bytes_length, Msg.size]
    omega
  have hstring : StringWithin (m.bytes ++ rest) 9 64 := Or.inl (by omega)
  have htype' : (m.bytes ++ rest).getD 0 0 = textMsgNormal :=
    (congrArg Msg.type hmsg).trans htype
  have hdata : (m.bytes ++ rest).drop 73 = m.data ++ rest := congrArg Msg.data hmsg
  have huser' : (m.bytes ++ rest).getD 9 0 ≠ 0 := by
    rw [Ne, ← fieldString_eq_nil_iff (by decide) hstring, ← getUser_ofBytes, hmsg,
      getUser_withData]
    exact huser
  have hne : m.bytes ++ rest ≠ [] := List.ne_nil_of_length_pos (by omega)
  rw [TextWithin, hdata]
  constructor
  · intro h
    exact (h.2 htype').2 huser'
  · intro h
    exact ⟨hne, fun _ => ⟨hstring, fun _ => h⟩⟩

/-- A text of the client itself, accepted by another one, is read past its end
when it fills its last block: the seven letters `hello!!` do. -/
theorem seven_letters_read_outside :
    ∃ cable wire, decryptCabledWire onesClient cable = some wire ∧
      ¬Contained sevens readOnly onesClient wire := by
  obtain ⟨hsized, hdata, htype, huser⟩ := textMsgFromText_spec (show 0 ∉ [97] by decide)
    (by decide) (t := [104, 101, 108, 108, 111, 33, 33]) (by decide)
  generalize textMsgFromText (cStr [97]) _ = m at hsized hdata htype huser
  -- seven letters fill the last block, so there is no padding behind them
  have hlength : m.bytes.length = 80 := by
    rw [m.bytes_length, hdata]
    rfl
  have hceil : ceil16 m.bytes.length = 80 := by
    rw [hlength]
    rfl
  have hfit : 64 + 14 + ceil16 m.bytes.length < 2 ^ 64 := by
    rw [hceil]
    decide
  obtain ⟨w, -, hwlen, hw⟩ := initWire_decoded .text (Vector.replicate 16 0) hfit
  obtain ⟨-, wire, hopen, hwire⟩ := openCable_initCable hfit hw hwlen
    (selectedKey_first (encryptWire_verifies w onesClient.keys.session) (some onesClient.keys.ctrl))
  have haccepted : decryptCabledWire onesClient
      (initCable (encryptWire w onesClient.keys.session).bytes) = some wire := by
    rw [decryptCabledWire, hopen, if_pos rfl]
  have halign : wire.header.alignment.toNat = 0 := by
    rw [hwire.alignment, hceil, hlength]
  have hpayload : payload wire = m.bytes ++ [] := by
    rw [payload_decoded hwire hfit, hwire.data, halign, List.replicate_zero]
  refine ⟨_, wire, haccepted, ?_⟩
  rw [Contained, (readsWhen_handleData sevens readOnly onesClient wire).isSome_iff, hwire.type,
    hpayload, MessageWithin]
  rintro ⟨-, hwithin⟩
  have hmem := (textWithin_iff htype (by rw [huser]; decide) []).mp hwithin
  rw [hdata] at hmem
  exact absurd hmem (by decide)

end Parcel
