import Parcel.Messages

/-!
# File messages and the sender's name

The struct `file_msg_t` with its constructor and `proc_file`, and the name of the
sender in the three kinds of messages. Text and status messages are built with
the name and show it; `file_msg_from_file` takes the name and does not store it,
and `proc_file` turns away the messages that carry one.
-/

namespace Parcel
open ByteStrings Aes

/-- The fields `user[64]`, `filename[PATH_MAX]`, `gid[4]`, `uid[4]` and `mode[2]`. -/
abbrev FileMsg := Msg 4170

inductive FileMsgType
  | unknown | binary | text
  deriving DecidableEq, Repr

def FileMsgType.code : FileMsgType → UInt8
  | .unknown => 0
  | .binary => 1
  | .text => 2

def fileDataMaxSize : ℕ := 2 ^ 31 - (255 + 16)

def getField {n : ℕ} (m : Msg n) (offset k : ℕ) : Vector UInt8 k :=
  readVec k (m.fields.toList.drop offset)

def setField {n k : ℕ} (m : Msg n) (offset : ℕ) (v : Vector UInt8 k) : Msg n :=
  let fields := m.fields.toList.take offset ++ (v.toList ++ m.fields.toList.drop (offset + k))
  { m with fields := readVec n fields }

/-- A `memset` of the array and a `memcpy` of at most `k - 1` bytes of a string. -/
def setString {n : ℕ} (m : Msg n) (offset k : ℕ) (s : List UInt8) : Msg n :=
  setField m offset (readVec k (s.take (strnlen s (k - 1))))

/-- The bytes that `file_msg_get_user` copies; it reports whether there are any. -/
def fileMsgGetUser (fm : FileMsg) : List UInt8 :=
  let user := (getField fm 0 64).toList
  user.take (strnlen user 64)

def fileMsgSetFilename (fm : FileMsg) (name : List UInt8) : FileMsg := setString fm 64 4096 name

def fileMsgGetFilename (fm : FileMsg) : List UInt8 :=
  let filename := (getField fm 64 4096).toList
  filename.take (strnlen filename 4095)

def fileMsgSetGid (fm : FileMsg) (gid : ℕ) : FileMsg := setField fm 4160 (unpackLE 4 gid)
def fileMsgSetUid (fm : FileMsg) (uid : ℕ) : FileMsg := setField fm 4164 (unpackLE 4 uid)
def fileMsgSetMode (fm : FileMsg) (mode : ℕ) : FileMsg := setField fm 4168 (unpackLE 2 mode)
def fileMsgGetMode (fm : FileMsg) : ℕ := packLE (getField fm 4168 2).toList

def fileMsgGetPayloadLength (fm : FileMsg) : ℕ := sizeSub fm.getWireLength (Msg.size 4170)

/-- What the system says about a path: the bytes that `fopen` and `fread` give,
if it opens, and the results of `stat`. -/
structure DiskFile where
  contents : Option (List UInt8)
  size : ℕ
  gid : ℕ
  uid : ℕ
  mode : ℕ

def xconstbasename (path : List UInt8) : List UInt8 :=
  (path.reverse.takeWhile fun c => c != 0x2f && c != 0x5c).reverse

def xfiletype (file : DiskFile) : Bool :=
  match file.contents with
  | none => false
  | some contents =>
    let data := contents.take 8192
    let ascii := data.countP fun c => (0x20 ≤ c && c ≤ 0x7e) || c == 9 || c == 10 || c == 13
    if data = [] then false
    else if 0 ∈ data then true
    else decide (100 * ascii / data.length < 70)

/-- The function `file_msg_from_file`; `NULL` arguments are `none`. -/
def fileMsgFromFile (user path : Option (List UInt8)) (file : DiskFile) : Option FileMsg :=
  match path, user, file.contents with
  | some path, some _, some contents =>
    if file.size = 0 ∨ fileDataMaxSize < file.size then none
    else
      let type := if xfiletype file then FileMsgType.binary else FileMsgType.text
      let fm := Msg.init 4170 type.code file.size
      let fm := fileMsgSetFilename fm (cStr (xconstbasename path))
      let fm := fileMsgSetGid fm file.gid
      let fm := fileMsgSetUid fm file.uid
      let fm := fileMsgSetMode fm file.mode
      -- `fread` stops at the end of the file
      if contents.length < file.size then none
      else some (fm.setData (contents.take file.size))
  | _, _, _ => none

def initWireFromFileMsg (fm : FileMsg) (rnd : Option Block) : Option Wire :=
  initWireFromMsg .file fm rnd

/-- What `proc_file` logs when it returns `false`. -/
inductive FileError
  | emptyFilename | emptyUser | writing
  deriving DecidableEq, Repr

/-- The home directory and the results of the calls that write the file. -/
structure Saving where
  home : Option (List UInt8)
  opened : Bool
  written : Bool
  chmod : Bool

/-- The file that `file_msg_to_file` writes. -/
structure SavedFile where
  path : List UInt8
  contents : List UInt8
  mode : ℕ
  deriving DecidableEq

def fileMsgToFile (fm : FileMsg) (env : Saving) : Option SavedFile :=
  let filename := fileMsgGetFilename fm
  if filename = [] then none
  else
    let path := match env.home with
      | some directory => directory ++ 0x2f :: filename
      | none => filename
    if env.opened && env.written && env.chmod then
      some ⟨path, fm.data.take (fileMsgGetPayloadLength fm), fileMsgGetMode fm &&& 0o777⟩
    else none

/-- What `proc_file` prints, with the size in `kb`, and the file. -/
structure ShownFile where
  sender : List UInt8
  filename : List UInt8
  kb : ℕ
  saved : SavedFile
  deriving DecidableEq

/-- The function `proc_file`. The test of the name is the reverse of the one in
`proc_text` and `proc_stat`: a name that is there is the error. -/
def procFile (env : Saving) (data : List UInt8) : Except FileError ShownFile :=
  let fm := Msg.ofBytes 4170 data
  if fileMsgGetFilename fm = [] then .error .emptyFilename
  else if fileMsgGetUser fm ≠ [] then .error .emptyUser
  else
    match fileMsgToFile fm env with
    | none => .error .writing
    | some saved =>
      .ok ⟨fileMsgGetUser fm, fileMsgGetFilename fm, fileMsgGetPayloadLength fm >>> 10, saved⟩

theorem setField_fields {n k : ℕ} (m : Msg n) {offset : ℕ} (v : Vector UInt8 k)
    (h : offset + k ≤ n) : (setField m offset v).fields.toList =
      m.fields.toList.take offset ++ (v.toList ++ m.fields.toList.drop (offset + k)) := by
  rw [setField, toList_readVec, List.take_of_length_le]
  all_goals
    simp only [List.length_append, List.length_take, List.length_drop, Vector.length_toList]
    omega

theorem getField_setField {n k i j : ℕ} (m : Msg n) {offset : ℕ} (v : Vector UInt8 k)
    (h : offset + k ≤ n) (hj : i + j ≤ offset) : getField (setField m offset v) i j =
      getField m i j := by
  have hlen : m.fields.toList.length = n := Vector.length_toList
  apply Vector.ext
  intro l hl
  simp only [getField, getElem_readVec, setField_fields m v h, List.getD_eq_getElem?_getD,
    List.getElem?_drop]
  rw [List.getElem?_append_left (by rw [List.length_take, hlen]; omega),
    List.getElem?_take_of_lt (by omega)]

theorem getField_setField_self {n k : ℕ} (m : Msg n) {offset : ℕ} (v : Vector UInt8 k)
    (h : offset + k ≤ n) : getField (setField m offset v) offset k = v := by
  have htake : (m.fields.toList.take offset).length = offset := by
    rw [List.length_take, Vector.length_toList]
    omega
  rw [getField, setField_fields m v h, List.drop_left' htake, readVec_append]

theorem fileMsgGetUser_setField {k : ℕ} (m : FileMsg) {offset : ℕ} (v : Vector UInt8 k)
    (h : offset + k ≤ 4170) (hj : 64 ≤ offset) :
    fileMsgGetUser (setField m offset v) = fileMsgGetUser m := by
  rw [fileMsgGetUser, fileMsgGetUser, getField_setField m v h (by omega)]

theorem fileMsgGetUser_withData (m : FileMsg) (data : List UInt8) :
    fileMsgGetUser { m with data := data } = fileMsgGetUser m := by
  rw [fileMsgGetUser, fileMsgGetUser, getField, getField]

theorem fileMsgGetUser_init (type : UInt8) (len : ℕ) :
    fileMsgGetUser (Msg.init 4170 type len) = [] := by
  have hzero : (getField (Msg.init 4170 type len) 0 64).toList = 0 :: List.replicate 63 0 := by
    rw [getField, Msg.init, List.drop_zero, Vector.toList_replicate,
      toList_readVec (by rw [List.length_replicate]; decide), List.take_replicate,
      Nat.min_eq_left (by decide)]
    rfl
  rw [fileMsgGetUser, hzero]
  rfl

theorem setField_data {n k : ℕ} (m : Msg n) (offset : ℕ) (v : Vector UInt8 k) :
    (setField m offset v).data = m.data := by
  rw [setField]

theorem setField_sized {n k : ℕ} {m : Msg n} (hm : m.Sized) (offset : ℕ) (v : Vector UInt8 k) :
    (setField m offset v).Sized := by
  rw [Msg.Sized, Msg.getWireLength, setField]
  exact hm

/-- The fields that `file_msg_from_file` fills in. -/
def fileFields (path : List UInt8) (file : DiskFile) : FileMsg :=
  let type := if xfiletype file then FileMsgType.binary else FileMsgType.text
  fileMsgSetMode (fileMsgSetUid (fileMsgSetGid (fileMsgSetFilename
    (Msg.init 4170 type.code file.size) (cStr (xconstbasename path))) file.gid) file.uid) file.mode

theorem fileFields_spec (path : List UInt8) (file : DiskFile) (hmax : file.size ≤ fileDataMaxSize) :
    (fileFields path file).Sized ∧ (fileFields path file).data.length = file.size ∧
      fileMsgGetUser (fileFields path file) = [] := by
  have hfit : Msg.size 4170 + file.size < 2 ^ 64 := by
    rw [fileDataMaxSize] at hmax
    rw [Msg.size]
    omega
  simp only [fileFields, fileMsgSetMode, fileMsgSetUid, fileMsgSetGid, fileMsgSetFilename,
    setString]
  generalize (if xfiletype file then FileMsgType.binary else FileMsgType.text).code = type
  refine ⟨?_, ?_, ?_⟩
  · apply setField_sized
    apply setField_sized
    apply setField_sized
    apply setField_sized
    exact Msg.init_sized type hfit
  · rw [setField_data, setField_data, setField_data, setField_data, Msg.init,
      List.length_replicate]
  · rw [fileMsgGetUser_setField _ _ (by decide) (by decide),
      fileMsgGetUser_setField _ _ (by decide) (by decide),
      fileMsgGetUser_setField _ _ (by decide) (by decide),
      fileMsgGetUser_setField _ _ (by decide) (by decide), fileMsgGetUser_init]

structure Readable (file : DiskFile) (contents : List UInt8) : Prop where
  opens : file.contents = some contents
  nonempty : file.size ≠ 0
  small : file.size ≤ fileDataMaxSize
  complete : file.size ≤ contents.length

/-- `file_msg_from_file` never stores the name that it is given. -/
theorem fileMsgFromFile_spec (user path : List UInt8) {file : DiskFile} {contents : List UInt8}
    (h : Readable file contents) :
    ∃ fm, fileMsgFromFile (some user) (some path) file = some fm ∧ fm.Sized ∧
      fm.data.length = file.size ∧ fileMsgGetUser fm = [] := by
  obtain ⟨hsized, hlength, huser⟩ := fileFields_spec path file h.small
  have htake : (contents.take file.size).length = file.size := by
    rw [List.length_take, Nat.min_eq_left h.complete]
  obtain ⟨hdata, hsized'⟩ := Msg.setData_sized hsized (htake.trans hlength.symm)
  have hfm : fileMsgFromFile (some user) (some path) file =
      some ((fileFields path file).setData (contents.take file.size)) := by
    simp only [fileMsgFromFile, h.opens]
    rw [if_neg (not_or.mpr ⟨h.nonempty, h.small.not_gt⟩), if_neg h.complete.not_gt]
    rfl
  refine ⟨_, hfm, hsized', ?_, ?_⟩
  · rw [hdata, htake]
  · rw [Msg.setData, fileMsgGetUser_withData, huser]

inductive Sent
  | text (t : List UInt8)
  | conn (type : StatMsgType)
  | rename (newName : List UInt8)
  | file (path : List UInt8) (disk : DiskFile)

/-- Texts that fit the address space and files that can be sent. -/
def Sent.Admissible : Sent → Prop
  | .text t => 64 + 14 + ceil16 (73 + t.length) < 2 ^ 64
  | .conn _ => True
  | .rename _ => True
  | .file _ disk => ∃ contents, Readable disk contents

def Sent.IsFile : Sent → Prop
  | .file .. => True
  | _ => False

/-- The wire of a message for `user`. -/
def Sent.wire (user : List UInt8) (rnd : Option Block) : Sent → Option Wire
  | .text t => initWireFromTextMsg (textMsgFromText (cStr user) t) rnd
  | .conn type => initWireFromStatMsg (initStatConnMsg type (cStr user)) rnd
  | .rename newName => initWireFromStatMsg (initStatRenameMsg (cStr user) (cStr newName)) rnd
  | .file path disk =>
    (fileMsgFromFile (some (cStr user)) (some path) disk).bind (initWireFromFileMsg · rnd)

/-- What the `_get_user` function of the kind copies out of received data. -/
def Sent.getUser (data : List UInt8) : Sent → List UInt8
  | .file .. => fileMsgGetUser (Msg.ofBytes 4170 data)
  | _ => Parcel.getUser (Msg.ofBytes 64 data)

def Sent.RejectsUser (env : Saving) (data : List UInt8) : Sent → Prop
  | .text _ => procText data = .error .emptyUser
  | .conn _ => procStat data = .error .emptyUser
  | .rename _ => procStat data = .error .emptyUser
  | .file .. => procFile env data = .error .emptyUser

/-- The receiver reads back the name, with the result `true` for the bytes that
are there, and its handler does not object to it. -/
def NameSurvives (env : Saving) (user : List UInt8) (sent : Sent) (iv : Block)
    (session ctrl : Key) : Prop :=
  ∃ w, sent.wire user (some iv) = some w ∧
    ∃ w', openCable (initCable (encryptWire w session).bytes) session (some ctrl) = (true, w') ∧
      sent.getUser w'.data = user ∧ sent.getUser w'.data ≠ [] ∧ ¬sent.RejectsUser env w'.data

/-- A message opened with the session key it was sealed with, up to the padding
behind its data. -/
theorem msg_opened {n : ℕ} (type : WireType) {m : Msg n} (hm : m.Sized)
    (hfit : 64 + 14 + ceil16 (Msg.size n + m.data.length) < 2 ^ 64) (iv : Block)
    (session ctrl : Key) :
    ∃ w w' pad, initWireFromMsg type m (some iv) = some w ∧
      openCable (initCable (encryptWire w session).bytes) session (some ctrl) = (true, w') ∧
      Msg.ofBytes n w'.data = { m with data := m.data ++ pad } := by
  obtain ⟨w, hw, hopen⟩ := openCable_msg type iv hm hfit
  obtain ⟨w', hw', -, hmsg⟩ :=
    hopen (selectedKey_first (encryptWire_verifies w session) (some ctrl))
  exact ⟨w, w', _, hw, hw', hmsg⟩

theorem procText_not_emptyUser {data : List UInt8} (h : getUser (Msg.ofBytes 64 data) ≠ []) :
    procText data ≠ .error .emptyUser := by
  rw [procText, if_neg h]
  split <;> · intro he; cases he

theorem procStat_not_emptyUser {data : List UInt8} (h : getUser (Msg.ofBytes 64 data) ≠ []) :
    procStat data ≠ .error .emptyUser := by
  rw [procStat, if_neg h]
  split
  · intro he
    cases he
  · split
    · intro he
      cases he
    · split <;> · intro he; cases he

section

variable {user : List UInt8} (hnul : 0 ∉ user) (hlen : user.length ≤ 63) (huser : user ≠ [])

include hnul hlen

theorem initStatConnMsg_spec (type : StatMsgType) :
    let m := initStatConnMsg type (cStr user)
    m.Sized ∧ m.data = [] ∧ getUser m = user := by
  refine ⟨setUser_sized (Msg.init_sized (n := 64) type.code (by decide)) _, ?_,
    getUser_setUser _ hnul hlen⟩
  rw [initStatConnMsg, setUser_data]
  rfl

theorem initStatRenameMsg_user (newName : List UInt8) :
    let m := initStatRenameMsg (cStr user) newName
    m.Sized ∧ m.data.length ≤ 64 ∧ getUser m = user := by
  have hcut : strnlen newName 64 ≤ (newName.take 64).length :=
    (List.takeWhile_sublist _).length_le
  have htake : (newName.take (strnlen newName 64)).length = strnlen newName 64 := by
    rw [List.length_take] at hcut ⊢
    omega
  have hle : strnlen newName 64 ≤ 64 := by
    rw [List.length_take] at hcut
    omega
  have hinit := setUser_sized (Msg.init_sized (n := 64) StatMsgType.userRename.code
    (show Msg.size 64 + strnlen newName 64 < 2 ^ 64 by rw [Msg.size]; omega)) (cStr user)
  obtain ⟨hdata, hsized⟩ := Msg.setData_sized hinit
    (htake.trans (by rw [setUser_data, Msg.init, List.length_replicate]))
  refine ⟨hsized, ?_, ?_⟩
  · rw [initStatRenameMsg, hdata, htake]
    exact hle
  · rw [initStatRenameMsg, Msg.setData, getUser_withData, getUser_setUser _ hnul hlen]

include huser

theorem name_survives (env : Saving) {sent : Sent} (h : sent.Admissible) (hfile : ¬sent.IsFile)
    (iv : Block) (session ctrl : Key) : NameSurvives env user sent iv session ctrl := by
  cases sent with
  | text t =>
    have hfit : 64 + 14 + ceil16 (73 + t.length) < 2 ^ 64 := h
    obtain ⟨hsized, hdata, -, hget⟩ := textMsgFromText_spec hnul hlen (t := t)
      (by have := le_ceil16 (73 + t.length); omega)
    obtain ⟨w, w', pad, hw, hw', hmsg⟩ := msg_opened .text hsized (by rw [hdata]; exact hfit) iv
      session ctrl
    have hname : getUser (Msg.ofBytes 64 w'.data) = user := by rw [hmsg, getUser_withData, hget]
    have hne : getUser (Msg.ofBytes 64 w'.data) ≠ [] := by rw [hname]; exact huser
    exact ⟨w, hw, w', hw', hname, hne, procText_not_emptyUser hne⟩
  | conn type =>
    obtain ⟨hsized, hdata, hget⟩ := initStatConnMsg_spec hnul hlen type
    obtain ⟨w, w', pad, hw, hw', hmsg⟩ := msg_opened .stat hsized (by rw [hdata]; decide) iv
      session ctrl
    have hname : getUser (Msg.ofBytes 64 w'.data) = user := by rw [hmsg, getUser_withData, hget]
    have hne : getUser (Msg.ofBytes 64 w'.data) ≠ [] := by rw [hname]; exact huser
    exact ⟨w, hw, w', hw', hname, hne, procStat_not_emptyUser hne⟩
  | rename newName =>
    obtain ⟨hsized, hdata, hget⟩ := initStatRenameMsg_user hnul hlen (cStr newName)
    obtain ⟨w, w', pad, hw, hw', hmsg⟩ := msg_opened .stat hsized
      (by rw [Msg.size, ceil16]; omega) iv session ctrl
    have hname : getUser (Msg.ofBytes 64 w'.data) = user := by rw [hmsg, getUser_withData, hget]
    have hne : getUser (Msg.ofBytes 64 w'.data) ≠ [] := by rw [hname]; exact huser
    exact ⟨w, hw, w', hw', hname, hne, procStat_not_emptyUser hne⟩
  | file path disk => exact absurd trivial hfile

end

theorem file_name_empty {user path : List UInt8} {disk : DiskFile} {contents : List UInt8}
    (h : Readable disk contents) (iv : Block) (session ctrl : Key) {w w' : Wire}
    (hw : (Sent.file path disk).wire user (some iv) = some w)
    (hw' : openCable (initCable (encryptWire w session).bytes) session (some ctrl) = (true, w')) :
    fileMsgGetUser (Msg.ofBytes 4170 w'.data) = [] := by
  obtain ⟨fm, hfm, hsized, hlength, hget⟩ := fileMsgFromFile_spec (cStr user) path h
  have hsmall := h.small
  have hfit : 64 + 14 + ceil16 (Msg.size 4170 + fm.data.length) < 2 ^ 64 := by
    rw [fileDataMaxSize] at hsmall
    rw [hlength, Msg.size, ceil16]
    omega
  obtain ⟨v, v', pad, hv, hv', hmsg⟩ := msg_opened .file hsized hfit iv session ctrl
  rw [Sent.wire, hfm, Option.bind_some] at hw
  obtain rfl : v = w := Option.some.inj (hv.symm.trans hw)
  obtain rfl : v' = w' := (Prod.mk.inj (hv'.symm.trans hw')).2
  rw [hmsg, fileMsgGetUser_withData, hget]

/-- The name survives in text and status messages, and in no file message. -/
theorem name_survives_iff (env : Saving) (user : List UInt8) (hnul : 0 ∉ user)
    (h1 : 1 ≤ user.length) (hlen : user.length ≤ 63) (sent : Sent) (h : sent.Admissible)
    (iv : Block) (session ctrl : Key) :
    NameSurvives env user sent iv session ctrl ↔ ¬sent.IsFile := by
  have huser : user ≠ [] := List.ne_nil_of_length_pos h1
  constructor
  · rintro ⟨w, hw, w', hw', -, hne, -⟩ hfile
    cases sent with
    | text t => exact hfile
    | conn type => exact hfile
    | rename newName => exact hfile
    | file path disk =>
      obtain ⟨contents, hreadable⟩ := h
      exact hne (file_name_empty hreadable iv session ctrl hw hw')
  · intro hfile
    exact name_survives hnul hlen huser env h hfile iv session ctrl

def readOnly : Saving := ⟨none, false, false, false⟩

/-- A one-letter user sends one letter. -/
theorem name_survives_text :
    (0 ∉ [97] ∧ 1 ≤ [97].length ∧ [97].length ≤ 63 ∧ (Sent.text [104]).Admissible) ∧
      NameSurvives readOnly [97] (.text [104]) (Vector.replicate 16 0) (Vector.replicate 32 0)
        (Vector.replicate 32 1) :=
  have hfit : (Sent.text [104]).Admissible := by
    change 64 + 14 + ceil16 (73 + 1) < 2 ^ 64
    decide
  ⟨⟨by decide, by decide, by decide, hfit⟩,
    (name_survives_iff readOnly [97] (by decide) (by decide) (by decide) (.text [104]) hfit
      _ _ _).mpr id⟩

/-- The file `/x` with the one byte `h`. -/
def smallFile : DiskFile := ⟨some [104], 1, 0, 0, 0o644⟩

/-- The same user sends a file: it arrives without a name. -/
theorem file_name_does_not_survive :
    (Sent.file [0x2f, 0x78] smallFile).Admissible ∧
      ¬NameSurvives readOnly [97] (.file [0x2f, 0x78] smallFile) (Vector.replicate 16 0)
        (Vector.replicate 32 0) (Vector.replicate 32 1) := by
  have hreadable : Readable smallFile [104] := ⟨rfl, by decide, by decide, by decide⟩
  refine ⟨⟨_, hreadable⟩, ?_⟩
  rintro ⟨w, hw, w', hw', -, hne, -⟩
  exact hne (file_name_empty hreadable _ _ _ hw hw')

end Parcel
