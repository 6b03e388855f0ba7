import Parcel.WireRoundTrip

/-!
# Messages

The message structs that `wire-gen.h` generates (a type byte, an eight-byte
length, fixed fields and data) with the text, status and control messages, and
the handlers of `proc-type.c` for the first two. `Msg n` is a message whose fixed
fields take `n` bytes.
-/

namespace Parcel
open ByteStrings Aes

/-- A struct between `TYPE_BEGIN_DEF` and `TYPE_END_DEF`. -/
structure Msg (n : ℕ) where
  type : UInt8
  len : Vector UInt8 8
  fields : Vector UInt8 n
  data : List UInt8

namespace Msg

variable {n : ℕ}

/-- The size of the struct without data. -/
def size (n : ℕ) : ℕ := 9 + n

def bytes (m : Msg n) : List UInt8 :=
  m.type :: (m.len.toList ++ (m.fields.toList ++ m.data))

def ofBytes (n : ℕ) (mem : List UInt8) : Msg n :=
  ⟨mem.getD 0 0, readVec 8 (mem.drop 1), readVec n (mem.drop 9), mem.drop (9 + n)⟩

def getWireLength (m : Msg n) : ℕ := wirePack64 m.len

/-- The generated `init_` functions, on a zeroed allocation. -/
def init (n : ℕ) (type : UInt8) (len : ℕ) : Msg n :=
  ⟨type, wireUnpack64 (sizeAdd (size n) len), Vector.replicate n 0, List.replicate len 0⟩

/-- The generated `_set_data` functions. -/
def setData (m : Msg n) (data : List UInt8) : Msg n :=
  { m with data := data ++ m.data.drop data.length }

theorem bytes_length (m : Msg n) : m.bytes.length = size n + m.data.length := by
  simp only [bytes, List.length_cons, List.length_append, Vector.length_toList, size]
  omega

theorem ofBytes_append (m : Msg n) (rest : List UInt8) :
    ofBytes n (m.bytes ++ rest) = { m with data := m.data ++ rest } := by
  obtain ⟨type, len, fields, data⟩ := m
  have hlen : (len.toList ++ (fields.toList ++ (data ++ rest))).drop 8 =
      fields.toList ++ (data ++ rest) := List.drop_left' (by simp)
  have hfields : (fields.toList ++ (data ++ rest)).drop n = data ++ rest :=
    List.drop_left' (by simp)
  have hsplit : 9 + n = 8 + n + 1 := by omega
  simp only [ofBytes, bytes, List.cons_append, List.append_assoc, List.drop_succ_cons,
    List.drop_zero, hlen, readVec_append, hsplit, ← List.drop_drop, hfields]
  rfl

/-- The length field of a message is the number of its bytes. -/
def Sized (m : Msg n) : Prop := getWireLength m = size n + m.data.length

theorem init_sized (type : UInt8) {len : ℕ} (h : size n + len < 2 ^ 64) :
    (init n type len).Sized := by
  rw [Sized, getWireLength, init, sizeAdd_eq h, wirePack64_unpack64 h, List.length_replicate]

theorem setData_sized {m : Msg n} (hm : m.Sized) {data : List UInt8}
    (h : data.length = m.data.length) : (m.setData data).data = data ∧ (m.setData data).Sized := by
  have hdata : (m.setData data).data = data := by
    rw [setData, List.drop_of_length_le h.ge, List.append_nil]
  refine ⟨hdata, ?_⟩
  rw [Sized, hdata, h]
  exact hm

end Msg

/-- The `init_wire_from_` functions of messages. -/
def initWireFromMsg {n : ℕ} (type : WireType) (m : Msg n) (rnd : Option Block) : Option Wire :=
  initWire type (m.bytes.take m.getWireLength) rnd

def cStr (s : List UInt8) : List UInt8 := s ++ [0]

/-- The `_set_user` functions of text and status messages. -/
def setUser (m : Msg 64) (user : List UInt8) : Msg 64 :=
  { m with fields := readVec 64 (user.take (strnlen user 63)) }

/-- The bytes that the `_get_user` functions copy out; they report whether there are any. -/
def getUser (m : Msg 64) : List UInt8 := m.fields.toList.take (strnlen m.fields.toList 64)

theorem getUser_setUser (m : Msg 64) {user : List UInt8} (hnul : 0 ∉ user)
    (hlen : user.length ≤ 63) : getUser (setUser m (cStr user)) = user := by
  have htake : (cStr user).take (strnlen (cStr user) 63) = user := by
    rw [cStr, strnlen_append_zero hnul [] hlen]
    exact List.take_left' rfl
  have hfields : (setUser m (cStr user)).fields.toList =
      user ++ 0 :: List.replicate (63 - user.length) 0 := by
    rw [setUser, htake, toList_readVec_short (by omega), ← List.replicate_succ]
    congr 2
    omega
  rw [getUser, hfields, strnlen_append_zero hnul _ (by omega)]
  exact List.take_left' rfl

@[simp] theorem setUser_data (m : Msg 64) (user : List UInt8) :
    (setUser m user).data = m.data := by
  rw [setUser]

@[simp] theorem setUser_type (m : Msg 64) (user : List UInt8) :
    (setUser m user).type = m.type := by
  rw [setUser]

theorem setUser_sized {m : Msg 64} (hm : m.Sized) (user : List UInt8) :
    (setUser m user).Sized := by
  rw [Msg.Sized, Msg.getWireLength, setUser]
  exact hm

theorem getUser_withData (m : Msg 64) (data : List UInt8) :
    getUser { m with data := data } = getUser m := by
  rw [getUser, getUser]

def textMsgNormal : UInt8 := 0

inductive StatMsgType
  | userConnect | userDisconnect | userRename
  deriving DecidableEq, Repr

def StatMsgType.code : StatMsgType → UInt8
  | .userConnect => 0
  | .userDisconnect => 1
  | .userRename => 2

def textMsgFromText (user data : List UInt8) : Msg 64 :=
  setUser ((Msg.init 64 textMsgNormal data.length).setData data) user

def initWireFromTextMsg (m : Msg 64) (rnd : Option Block) : Option Wire :=
  initWireFromMsg .text m rnd

def initStatConnMsg (type : StatMsgType) (user : List UInt8) : Msg 64 :=
  setUser (Msg.init 64 type.code 0) user

/-- The function `init_stat_rename_msg`; the names are C strings in memory. -/
def initStatRenameMsg (currName newName : List UInt8) : Msg 64 :=
  let newNameLen := strnlen newName 64
  (setUser (Msg.init 64 StatMsgType.userRename.code newNameLen) currName).setData
    (newName.take newNameLen)

def initWireFromStatMsg (m : Msg 64) (rnd : Option Block) : Option Wire :=
  initWireFromMsg .stat m rnd

/-- What the handlers log when they return `false`. -/
inductive ProcError
  | invalidTextType | emptyUser
  deriving DecidableEq, Repr

/-- What `proc_text` prints: the sender and the body. The body is printed with
`%s`; it is `none` when there is no NUL up to the end of the wire's data. -/
structure ShownText where
  user : List UInt8
  body : Option (List UInt8)
  deriving DecidableEq

/-- The function `proc_text`, apart from the sender line and its timestamp. -/
def procText (data : List UInt8) : Except ProcError ShownText :=
  let text := Msg.ofBytes 64 data
  if text.type ≠ textMsgNormal then .error .invalidTextType
  else if getUser text = [] then .error .emptyUser
  else .ok ⟨getUser text, cString text.data⟩

/-- What `proc_stat` prints; an unknown type prints nothing. -/
inductive ShownStat
  | online (user : List UInt8)
  | offline (user : List UInt8)
  | renamed (user : List UInt8) (aux : Option (List UInt8))
  | nothing
  deriving DecidableEq

def procStat (data : List UInt8) : Except ProcError ShownStat :=
  let stat := Msg.ofBytes 64 data
  let user := getUser stat
  if user = [] then .error .emptyUser
  else if stat.type = StatMsgType.userConnect.code then .ok (.online user)
  else if stat.type = StatMsgType.userDisconnect.code then .ok (.offline user)
  else if stat.type = StatMsgType.userRename.code then .ok (.renamed user (cString stat.data))
  else .ok .nothing

/-- The members of `ctrl_msg_type_t` that a message can carry. -/
inductive CtrlMsgType
  | exit | dhke
  deriving DecidableEq, Repr

def CtrlMsgType.code : CtrlMsgType → UInt8
  | .exit => 0
  | .dhke => 1

def ctrlMsgSetCnt (m : Msg 2) (cnt : ℕ) : Msg 2 := { m with fields := wireUnpack16 cnt }
def ctrlMsgGetCnt (m : Msg 2) : ℕ := wirePack16 m.fields

def initCtrl (count : ℕ) (renewedKey : Key) : Msg 2 :=
  (ctrlMsgSetCnt (Msg.init 2 CtrlMsgType.dhke.code 32) count).setData renewedKey.toList

def initWireFromCtrlMsg (m : Msg 2) (rnd : Option Block) : Option Wire :=
  initWireFromMsg .ctrl m rnd

/-- The function `init_ctrl_key_cable`; a failed `init_wire` is dereferenced, so
there is no cable. -/
def initCtrlKeyCable (count : ℕ) (renewedKey ctrlKey : Key) (rnd : Option Block) : Option Cable :=
  (initWireFromCtrlMsg (initCtrl count renewedKey) rnd).map fun w =>
    initCable (encryptWire w ctrlKey).bytes

def initWireFromSessionKey (sessionKey : Key) (rnd : Option Block) : Option Wire :=
  initWire .sessionKey sessionKey.toList rnd

/-- The zero bytes that `init_wire` puts after a payload. -/
def padding (len : ℕ) : ℕ := ceil16 len - len

section

variable {n : ℕ} (type : WireType) {m : Msg n} (iv : Block)

theorem openCable_msg (hm : m.Sized)
    (hfit : 64 + 14 + ceil16 (Msg.size n + m.data.length) < 2 ^ 64) :
    ∃ w, initWireFromMsg type m (some iv) = some w ∧
      ∀ {key key1 : Key} {key2 : Option Key},
        selectedKey (encryptWire w key) key1 key2 = some key →
        ∃ w', openCable (initCable (encryptWire w key).bytes) key1 key2 = (true, w') ∧
          wireGetType w' = type.code ∧
          Msg.ofBytes n w'.data =
            { m with data := m.data ++
              List.replicate (padding (Msg.size n + m.data.length)) 0 } := by
  have htake : m.bytes.take m.getWireLength = m.bytes :=
    List.take_of_length_le (by rw [m.bytes_length, hm])
  rw [← m.bytes_length] at hfit ⊢
  obtain ⟨w, hw, hdata, hdec⟩ := initWire_decoded type iv hfit
  refine ⟨w, by rw [initWireFromMsg, htake, hw], ?_⟩
  intro key key1 key2 hsel
  obtain ⟨-, w', hopen, hdec'⟩ := openCable_initCable hfit hdec hdata hsel
  refine ⟨w', hopen, hdec'.type, ?_⟩
  rw [hdec'.data, hdec'.alignment, Msg.ofBytes_append, padding]

end

theorem initCtrl_spec (count : ℕ) (renewedKey : Key) :
    let m := initCtrl count renewedKey
    m.Sized ∧ m.data = renewedKey.toList ∧ m.type = CtrlMsgType.dhke.code ∧
      ctrlMsgGetCnt m = count % 2 ^ 16 := by
  have hinit : (ctrlMsgSetCnt (Msg.init 2 CtrlMsgType.dhke.code 32) count).Sized := by
    rw [Msg.Sized, Msg.getWireLength, ctrlMsgSetCnt]
    exact Msg.init_sized (n := 2) CtrlMsgType.dhke.code (by decide)
  have hlength : renewedKey.toList.length =
      (ctrlMsgSetCnt (Msg.init 2 CtrlMsgType.dhke.code 32) count).data.length := by
    rw [ctrlMsgSetCnt, Msg.init, List.length_replicate, Vector.length_toList]
  obtain ⟨hdata, hsized⟩ := Msg.setData_sized hinit hlength
  refine ⟨hsized, hdata, ?_, ?_⟩
  · rw [initCtrl, Msg.setData, ctrlMsgSetCnt, Msg.init]
  · rw [ctrlMsgGetCnt, initCtrl, Msg.setData, ctrlMsgSetCnt]
    exact packLE_unpackLE 2 count

/-- The receiver with the same session key prints the text that was sent, and
finds its end inside the wire's data. -/
def TextArrives (user t : List UInt8) (iv : Block) (session ctrl : Key) : Prop :=
  ∃ w, initWireFromTextMsg (textMsgFromText (cStr user) t) (some iv) = some w ∧
    ∃ w', openCable (initCable (encryptWire w session).bytes) session (some ctrl) = (true, w') ∧
      ∃ shown, procText w'.data = .ok shown ∧ shown.body = some t

/-- The same for a new name and the line that `proc_stat` prints. -/
def RenameArrives (user newName : List UInt8) (iv : Block) (session ctrl : Key) : Prop :=
  ∃ w, initWireFromStatMsg (initStatRenameMsg (cStr user) (cStr newName)) (some iv) = some w ∧
    ∃ w', openCable (initCable (encryptWire w session).bytes) session (some ctrl) = (true, w') ∧
      ∃ shownUser, procStat w'.data = .ok (.renamed shownUser (some newName))

theorem padding_ne_zero_iff (len : ℕ) : padding len ≠ 0 ↔ len % 16 ≠ 0 := by
  unfold padding ceil16
  omega

section

variable {user : List UInt8} (hnul : 0 ∉ user) (hlen : user.length ≤ 63)

include hnul hlen

theorem textMsgFromText_spec {t : List UInt8} (hfit : 73 + t.length < 2 ^ 64) :
    let m := textMsgFromText (cStr user) t
    m.Sized ∧ m.data = t ∧ m.type = textMsgNormal ∧ getUser m = user := by
  dsimp only
  obtain ⟨hdata, hsized⟩ := Msg.setData_sized (Msg.init_sized (n := 64) textMsgNormal hfit)
    (List.length_replicate (a := (0 : UInt8))).symm
  refine ⟨setUser_sized hsized _, ?_, ?_, getUser_setUser _ hnul hlen⟩
  · rw [textMsgFromText, setUser_data, hdata]
  · rw [textMsgFromText, setUser_type, Msg.setData, Msg.init]

theorem initStatRenameMsg_spec {newName : List UInt8} (hnew : 0 ∉ newName)
    (hnewLen : newName.length ≤ 63) :
    let m := initStatRenameMsg (cStr user) (cStr newName)
    m.Sized ∧ m.data = newName ∧ m.type = StatMsgType.userRename.code ∧ getUser m = user := by
  have hstrnlen : strnlen (cStr newName) 64 = newName.length := by
    rw [cStr, strnlen_append_zero hnew [] (by omega)]
  have htake : (cStr newName).take newName.length = newName := List.take_left' rfl
  have hinit := setUser_sized (Msg.init_sized (n := 64) StatMsgType.userRename.code
    (show Msg.size 64 + newName.length < 2 ^ 64 by rw [Msg.size]; omega)) (cStr user)
  have hlength : newName.length = (setUser (Msg.init 64 StatMsgType.userRename.code
      newName.length) (cStr user)).data.length := by
    rw [setUser_data, Msg.init, List.length_replicate]
  obtain ⟨hdata, hsized⟩ := Msg.setData_sized hinit hlength
  dsimp only
  rw [initStatRenameMsg, hstrnlen, htake]
  refine ⟨hsized, hdata, ?_, ?_⟩
  · rw [Msg.setData, setUser_type, Msg.init]
  · rw [Msg.setData, getUser_withData, getUser_setUser _ hnul hlen]

end

section

variable {user : List UInt8} (hnul : 0 ∉ user) (hlen : user.length ≤ 63) (huser : user ≠ [])

include hnul hlen huser

theorem text_arrives_iff {t : List UInt8} (ht : 0 ∉ t)
    (hfit : 64 + 14 + ceil16 (73 + t.length) < 2 ^ 64) (iv : Block) (session ctrl : Key) :
    TextArrives user t iv session ctrl ↔ t.length % 16 ≠ 7 := by
  obtain ⟨hsized, hdata, htype, hget⟩ := textMsgFromText_spec hnul hlen (t := t)
    (by have := le_ceil16 (73 + t.length); omega)
  obtain ⟨w, hw, hopen⟩ := openCable_msg .text iv hsized (by rw [hdata]; exact hfit)
  obtain ⟨w', hw', -, hmsg⟩ :=
    hopen (selectedKey_first (encryptWire_verifies w session) (some ctrl))
  have hshown : procText w'.data =
      .ok ⟨user, cString (t ++ List.replicate (padding (73 + t.length)) 0)⟩ := by
    rw [procText, hmsg, getUser_withData, hget, hdata, if_neg (not_not.mpr htype), if_neg huser]
    rfl
  have hpad : padding (73 + t.length) ≠ 0 ↔ t.length % 16 ≠ 7 := by
    rw [padding_ne_zero_iff]
    omega
  rw [← hpad, ← cString_pad_iff ht]
  constructor
  · rintro ⟨v, hv, v', hv', shown, hproc, hbody⟩
    obtain rfl : w = v := Option.some.inj (hw.symm.trans hv)
    obtain rfl : w' = v' := (Prod.mk.inj (hw'.symm.trans hv')).2
    obtain rfl := Except.ok.inj (hshown.symm.trans hproc)
    exact hbody
  · intro hbody
    exact ⟨w, hw, w', hw', _, hshown, hbody⟩

theorem rename_arrives_iff {newName : List UInt8} (hnew : 0 ∉ newName)
    (hnewLen : newName.length ≤ 63) (iv : Block) (session ctrl : Key) :
    RenameArrives user newName iv session ctrl ↔ newName.length % 16 ≠ 7 := by
  obtain ⟨hsized, hdata, htype, hget⟩ := initStatRenameMsg_spec hnul hlen hnew hnewLen
  obtain ⟨w, hw, hopen⟩ := openCable_msg .stat iv hsized
    (by rw [hdata, Msg.size, ceil16]; omega)
  obtain ⟨w', hw', -, hmsg⟩ :=
    hopen (selectedKey_first (encryptWire_verifies w session) (some ctrl))
  have hshown : procStat w'.data = .ok (.renamed user
      (cString (newName ++ List.replicate (padding (73 + newName.length)) 0))) := by
    rw [procStat, hmsg, getUser_withData, hget, hdata, if_neg huser, htype]
    rfl
  have hpad : padding (73 + newName.length) ≠ 0 ↔ newName.length % 16 ≠ 7 := by
    rw [padding_ne_zero_iff]
    omega
  rw [← hpad, ← cString_pad_iff hnew]
  constructor
  · rintro ⟨v, hv, v', hv', shown, hproc⟩
    obtain rfl : w = v := Option.some.inj (hw.symm.trans hv)
    obtain rfl : w' = v' := (Prod.mk.inj (hw'.symm.trans hv')).2
    exact (ShownStat.renamed.inj (Except.ok.inj (hshown.symm.trans hproc))).2
  · intro hbody
    rw [hbody] at hshown
    exact ⟨w, hw, w', hw', user, hshown⟩

end

/-- Text and new names arrive as sent exactly when the message does not fill its
last block: the encoder stores no terminator and the padding stands in for it. -/
theorem messages_arrive_iff (user : List UInt8) (hnul : 0 ∉ user) (huser : 1 ≤ user.length)
    (hlen : user.length ≤ 63) (iv : Block) (session ctrl : Key) :
    (∀ t : List UInt8, 0 ∉ t → 1 ≤ t.length → 64 + 14 + ceil16 (73 + t.length) < 2 ^ 64 →
      (TextArrives user t iv session ctrl ↔ t.length % 16 ≠ 7)) ∧
    (∀ newName : List UInt8, 0 ∉ newName → 1 ≤ newName.length → newName.length ≤ 63 →
      (RenameArrives user newName iv session ctrl ↔ newName.length % 16 ≠ 7)) := by
  have hne : user ≠ [] := List.ne_nil_of_length_pos huser
  constructor
  · intro t ht _ hfit
    exact text_arrives_iff hnul hlen hne ht hfit iv session ctrl
  · intro newName hnew _ hnewLen
    exact rename_arrives_iff hnul hlen hne hnew hnewLen iv session ctrl

/-- A one-letter user sends six letters. -/
theorem messages_arrive_six :
    (0 ∉ [97] ∧ 1 ≤ [97].length ∧ [97].length ≤ 63) ∧
      TextArrives [97] [104, 101, 108, 108, 111, 33] (Vector.replicate 16 0) (Vector.replicate 32 0)
        (Vector.replicate 32 1) := by
  refine ⟨by decide, ?_⟩
  exact ((messages_arrive_iff [97] (by decide) (by decide) (by decide) _ _ _).1 _
    (by decide) (by decide) (by decide)).mpr (by decide)

/-- With a seventh letter the message fills its block, and its end is not in the
received data. -/
theorem seven_letters_do_not_arrive :
    ¬TextArrives [97] [104, 101, 108, 108, 111, 33, 33] (Vector.replicate 16 0)
      (Vector.replicate 32 0) (Vector.replicate 32 1) := by
  rw [text_arrives_iff (by decide) (by decide) (by decide) (by decide) (by decide)]
  decide

end Parcel
