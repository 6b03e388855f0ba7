import Parcel.FileMessages

/-!
# File transfers

The file functions for any `PATH_MAX`, which the system header of the build gives, and
a file system as a map from paths. Between builds with the same `PATH_MAX` a file
arrives as it was sent. The struct has no fixed layout, so that builds with different
values read each other's messages differently.
-/

namespace Parcel
open ByteStrings Aes

/-- A build of the program with its `PATH_MAX`, the size of an array. -/
structure Platform where
  pathMax : ℕ
  nonempty : 0 < pathMax
  fits : pathMax < 2 ^ 63

namespace Platform

def linux : Platform := ⟨4096, by decide, by decide⟩
def windows : Platform := ⟨260, by decide, by decide⟩

theorem ext_pathMax {p q : Platform} (h : p.pathMax = q.pathMax) : p = q := by
  cases p
  cases q
  cases h
  rfl

variable (p : Platform)

/-- The size of the fields `user[64]`, `filename[PATH_MAX]`, `gid[4]`, `uid[4]` and `mode[2]`. -/
def fileFieldsSize : ℕ := 74 + p.pathMax

abbrev FileMsg := Msg p.fileFieldsSize

def fileMsgSetFilename (fm : p.FileMsg) (name : List UInt8) : p.FileMsg :=
  setString fm 64 p.pathMax name

def fileMsgGetFilename (fm : p.FileMsg) : List UInt8 :=
  let filename := (getField fm 64 p.pathMax).toList
  filename.take (strnlen filename (p.pathMax - 1))

def fileMsgSetGid (fm : p.FileMsg) (gid : ℕ) : p.FileMsg :=
  setField fm (64 + p.pathMax) (unpackLE 4 gid)

def fileMsgSetUid (fm : p.FileMsg) (uid : ℕ) : p.FileMsg :=
  setField fm (68 + p.pathMax) (unpackLE 4 uid)

def fileMsgSetMode (fm : p.FileMsg) (mode : ℕ) : p.FileMsg :=
  setField fm (72 + p.pathMax) (unpackLE 2 mode)

def fileMsgGetMode (fm : p.FileMsg) : ℕ := packLE (getField fm (72 + p.pathMax) 2).toList

def fileMsgGetPayloadLength (fm : p.FileMsg) : ℕ :=
  sizeSub fm.getWireLength (Msg.size p.fileFieldsSize)

def fileMsgFromFile (user path : Option (List UInt8)) (file : DiskFile) : Option p.FileMsg :=
  match path, user, file.contents with
  | some path, some _, some contents =>
    if file.size = 0 ∨ fileDataMaxSize < file.size then none
    else
      let type := if xfiletype file then FileMsgType.binary else FileMsgType.text
      let fm := Msg.init p.fileFieldsSize type.code file.size
      let fm := p.fileMsgSetFilename fm (cStr (xconstbasename path))
      let fm := p.fileMsgSetGid fm file.gid
      let fm := p.fileMsgSetUid fm file.uid
      let fm := p.fileMsgSetMode fm file.mode
      if contents.length < file.size then none
      else some (fm.setData (contents.take file.size))
  | _, _, _ => none

theorem linux_fileMsgFromFile : linux.fileMsgFromFile = Parcel.fileMsgFromFile := rfl
theorem linux_fileMsgGetFilename : linux.fileMsgGetFilename = Parcel.fileMsgGetFilename := rfl
theorem linux_fileMsgGetMode : linux.fileMsgGetMode = Parcel.fileMsgGetMode := rfl
theorem linux_fileMsgGetPayloadLength :
    linux.fileMsgGetPayloadLength = Parcel.fileMsgGetPayloadLength := rfl

end Platform

/-- A regular file: its bytes and its `st_mode`. -/
structure FileEntry where
  content : List UInt8
  mode : ℕ
  deriving DecidableEq

/-- The bits that `chmod` sets. -/
def FileEntry.permissions (e : FileEntry) : ℕ := e.mode % 0o10000

/-- What `fopen`, `fread` and `stat` report of a file that does not change. -/
def FileEntry.disk (e : FileEntry) (gid uid : ℕ) : DiskFile :=
  ⟨some e.content, e.content.length, gid, uid, e.mode⟩

abbrev FileSystem := List UInt8 → Option FileEntry

namespace FileSystem

/-- The call `fopen(path, "wb")`: a file that is there is truncated and keeps its mode,
a new one has the mode `0666` without the bits of the mask. -/
def fopenWb (fs : FileSystem) (umask : ℕ) (path : List UInt8) : FileSystem :=
  let mode := match fs path with
    | some e => e.mode
    | none => 0o100000 + (0o666 ^^^ (0o666 &&& umask))
  Function.update fs path (some ⟨[], mode⟩)

def fwrite (fs : FileSystem) (path data : List UInt8) : FileSystem :=
  Function.update fs path ((fs path).map fun e => { e with content := e.content ++ data })

/-- The function `xchmod` where there is a `chmod`. -/
def xchmod (fs : FileSystem) (path : List UInt8) (mode : ℕ) : Bool × FileSystem :=
  match fs path with
  | none => (false, fs)
  | some e =>
    let mode := e.mode / 0o10000 * 0o10000 + (mode &&& 0o777)
    (true, Function.update fs path (some { e with mode := mode }))

end FileSystem

theorem FileSystem.saved (fs : FileSystem) (umask : ℕ) (path data : List UInt8) (mode : ℕ) :
    let r := ((fs.fopenWb umask path).fwrite path data).xchmod path mode
    r.1 = true ∧
      (∃ e, r.2 path = some e ∧ e.content = data ∧ e.permissions = mode &&& 0o777) ∧
      ∀ other, other ≠ path → r.2 other = fs other := by
  have hmode : mode &&& 0o777 < 0o10000 := Nat.and_le_right.trans_lt (by decide)
  rw [fopenWb]
  dsimp only
  generalize (match fs path with | some e => e.mode | none => _) = old
  have hopened : Function.update fs path (some ⟨[], old⟩) path = some ⟨[], old⟩ :=
    Function.update_self ..
  rw [fwrite, hopened, Option.map_some, List.nil_append, Function.update_idem, xchmod,
    Function.update_self]
  dsimp only
  rw [Function.update_idem]
  refine ⟨rfl, ⟨_, Function.update_self .., rfl, ?_⟩, ?_⟩
  · rw [FileEntry.permissions]
    dsimp only
    omega
  · intro other hother
    exact Function.update_of_ne hother ..

theorem FileSystem.xchmod_of_ne (fs : FileSystem) (path : List UInt8) (mode : ℕ)
    {other : List UInt8} (h : other ≠ path) : (fs.xchmod path mode).2 other = fs other := by
  rw [xchmod]
  cases fs path with
  | none => rfl
  | some e => exact Function.update_of_ne h ..

/-- The function `file_msg_to_file`, where `opens` says at which paths `fopen` succeeds; the mode
is changed in both cases. -/
def Platform.fileMsgToFile (p : Platform) (opens : List UInt8 → Bool) (fm : p.FileMsg)
    (directory : Option (List UInt8)) (umask : ℕ) (fs : FileSystem) : Bool × FileSystem :=
  let filename := p.fileMsgGetFilename fm
  if filename = [] then (false, fs)
  else
    let path := match directory with
      | some directory => directory ++ 0x2f :: filename
      | none => filename
    let fs :=
      if opens path then
        (fs.fopenWb umask path).fwrite path (fm.data.take (p.fileMsgGetPayloadLength fm))
      else fs
    let r := fs.xchmod path (p.fileMsgGetMode fm)
    (opens path && r.1, r.2)

/-! ## Fields of a message -/

namespace Platform

variable (p : Platform)

theorem fileMsgGetFilename_setFilename (fm : p.FileMsg) {name : List UInt8} (hnul : 0 ∉ name)
    (hlen : name.length < p.pathMax) :
    p.fileMsgGetFilename (p.fileMsgSetFilename fm (cStr name)) = name := by
  have htake : (cStr name).take (strnlen (cStr name) (p.pathMax - 1)) = name := by
    rw [cStr, strnlen_append_zero hnul [] (by omega)]
    exact List.take_left' rfl
  have hfield : (getField (p.fileMsgSetFilename fm (cStr name)) 64 p.pathMax).toList =
      name ++ 0 :: List.replicate (p.pathMax - 1 - name.length) 0 := by
    rw [fileMsgSetFilename, setString, htake,
      getField_setField_self _ _ (by rw [fileFieldsSize]; omega),
      toList_readVec_short (by omega), ← List.replicate_succ]
    congr 2
    omega
  rw [fileMsgGetFilename, hfield, strnlen_append_zero hnul _ (by omega)]
  exact List.take_left' rfl

theorem fileMsgGetFilename_setField {k offset : ℕ} (fm : p.FileMsg) (v : Vector UInt8 k)
    (h : offset + k ≤ p.fileFieldsSize) (hbehind : 64 + p.pathMax ≤ offset) :
    p.fileMsgGetFilename (setField fm offset v) = p.fileMsgGetFilename fm := by
  rw [fileMsgGetFilename, fileMsgGetFilename, getField_setField fm v h hbehind]

theorem fileMsgGetMode_setMode (fm : p.FileMsg) (mode : ℕ) :
    p.fileMsgGetMode (p.fileMsgSetMode fm mode) = mode % 2 ^ 16 := by
  rw [fileMsgGetMode, fileMsgSetMode,
    getField_setField_self _ _ (by rw [fileFieldsSize]; omega), packLE_unpackLE]
  norm_num

theorem fields_withData (fm : p.FileMsg) (data : List UInt8) :
    p.fileMsgGetFilename { fm with data := data } = p.fileMsgGetFilename fm ∧
      p.fileMsgGetMode { fm with data := data } = p.fileMsgGetMode fm ∧
      p.fileMsgGetPayloadLength { fm with data := data } = p.fileMsgGetPayloadLength fm := by
  refine ⟨?_, ?_, ?_⟩
  · rw [fileMsgGetFilename, fileMsgGetFilename, getField, getField]
  · rw [fileMsgGetMode, fileMsgGetMode, getField, getField]
  · rw [fileMsgGetPayloadLength, fileMsgGetPayloadLength, Msg.getWireLength, Msg.getWireLength]

/-- A file that `file_msg_from_file` sends: its name fits the array. -/
structure Sendable (path : List UInt8) (e : FileEntry) : Prop where
  string : 0 ∉ path
  named : xconstbasename path ≠ []
  short : (xconstbasename path).length < p.pathMax
  nonempty : e.content ≠ []
  small : e.content.length ≤ fileDataMaxSize

theorem size_fits {len : ℕ} (h : len ≤ fileDataMaxSize) :
    Msg.size p.fileFieldsSize + len < 2 ^ 64 - 128 := by
  have := p.fits
  rw [fileDataMaxSize] at h
  rw [Msg.size, fileFieldsSize]
  omega

/-- The fields that `file_msg_from_file` fills in. -/
def fileFields (path : List UInt8) (file : DiskFile) : p.FileMsg :=
  let type := if xfiletype file then FileMsgType.binary else FileMsgType.text
  p.fileMsgSetMode (p.fileMsgSetUid (p.fileMsgSetGid (p.fileMsgSetFilename
    (Msg.init p.fileFieldsSize type.code file.size) (cStr (xconstbasename path))) file.gid)
    file.uid) file.mode

theorem fileFields_sized (path : List UInt8) {file : DiskFile} (h : file.size ≤ fileDataMaxSize) :
    (p.fileFields path file).Sized ∧ (p.fileFields path file).data.length = file.size := by
  have hfits := p.size_fits h
  rw [fileFields]
  generalize (if xfiletype _ then FileMsgType.binary else FileMsgType.text).code = type
  constructor
  · apply setField_sized
    apply setField_sized
    apply setField_sized
    apply setField_sized
    exact Msg.init_sized type (hfits.trans (by decide))
  · rw [fileMsgSetMode, fileMsgSetUid, fileMsgSetGid, fileMsgSetFilename, setString, setField_data,
      setField_data, setField_data, setField_data, Msg.init, List.length_replicate]

theorem fileFields_spec {path : List UInt8} {e : FileEntry} (h : p.Sendable path e)
    (gid uid : ℕ) :
    let fm := p.fileFields path (e.disk gid uid)
    fm.Sized ∧ fm.data.length = e.content.length ∧
      p.fileMsgGetFilename fm = xconstbasename path ∧ p.fileMsgGetMode fm = e.mode % 2 ^ 16 := by
  have hbase : 0 ∉ xconstbasename path := by
    intro hmem
    rw [xconstbasename, List.mem_reverse] at hmem
    exact h.string (List.mem_reverse.mp ((List.takeWhile_sublist _).subset hmem))
  obtain ⟨hsized, hlength⟩ := p.fileFields_sized path (show (e.disk gid uid).size ≤ _ from h.small)
  refine ⟨hsized, hlength, ?_, fileMsgGetMode_setMode p _ _⟩
  rw [fileFields]
  generalize (if xfiletype _ then FileMsgType.binary else FileMsgType.text).code = type
  rw [fileMsgSetMode, fileMsgGetFilename_setField p _ _ (by rw [fileFieldsSize]; omega) (by omega),
    fileMsgSetUid, fileMsgGetFilename_setField p _ _ (by rw [fileFieldsSize]; omega) (by omega),
    fileMsgSetGid, fileMsgGetFilename_setField p _ _ (by rw [fileFieldsSize]; omega) (by omega),
    fileMsgGetFilename_setFilename p _ hbase h.short]

theorem Sendable.readable {p : Platform} {path : List UInt8} {e : FileEntry}
    (h : p.Sendable path e) (gid uid : ℕ) : Readable (e.disk gid uid) e.content :=
  ⟨rfl, fun hnil => h.nonempty (List.length_eq_zero_iff.mp hnil), h.small, le_refl _⟩

theorem fileMsgFromFile_eq (user path : List UInt8) {file : DiskFile} {contents : List UInt8}
    (h : Readable file contents) (hwhole : contents.length = file.size) :
    p.fileMsgFromFile (some user) (some path) file =
      some ((p.fileFields path file).setData contents) := by
  have htake : contents.take file.size = contents := by rw [← hwhole, List.take_length]
  simp only [fileMsgFromFile, h.opens]
  rw [if_neg (not_or.mpr ⟨h.nonempty, h.small.not_gt⟩), if_neg h.complete.not_gt, htake]
  rfl

theorem fileMsgFromFile_spec {path : List UInt8} {e : FileEntry} (h : p.Sendable path e)
    (user : List UInt8) (gid uid : ℕ) :
    ∃ fm, p.fileMsgFromFile (some user) (some path) (e.disk gid uid) = some fm ∧ fm.Sized ∧
      fm.data = e.content ∧ p.fileMsgGetFilename fm = xconstbasename path ∧
      p.fileMsgGetMode fm = e.mode % 2 ^ 16 := by
  have hreadable := h.readable gid uid
  obtain ⟨hsized, hlength, hname, hmode⟩ := p.fileFields_spec h gid uid
  obtain ⟨hdata, hsized'⟩ := Msg.setData_sized hsized hlength.symm
  obtain ⟨hname', hmode', -⟩ := p.fields_withData (p.fileFields path (e.disk gid uid))
    ((p.fileFields path (e.disk gid uid)).setData e.content).data
  exact ⟨_, p.fileMsgFromFile_eq user path hreadable rfl, hsized', hdata, hname'.trans hname,
    hmode'.trans hmode⟩

theorem fileMsgGetPayloadLength_eq {fm : p.FileMsg} (h : fm.Sized)
    (hfits : Msg.size p.fileFieldsSize + fm.data.length < 2 ^ 64) :
    p.fileMsgGetPayloadLength fm = fm.data.length := by
  rw [fileMsgGetPayloadLength, h, sizeSub_eq (Nat.le_add_right _ _) hfits, Nat.add_sub_cancel_left]

theorem fileMsgToFile_spec (opens : List UInt8 → Bool) (fm : p.FileMsg) (directory : List UInt8)
    (umask : ℕ) (fs : FileSystem) (hname : p.fileMsgGetFilename fm ≠ [])
    (hopens : opens (directory ++ 0x2f :: p.fileMsgGetFilename fm) = true) :
    let path := directory ++ 0x2f :: p.fileMsgGetFilename fm
    let r := p.fileMsgToFile opens fm (some directory) umask fs
    r.1 = true ∧
      (∃ e, r.2 path = some e ∧ e.content = fm.data.take (p.fileMsgGetPayloadLength fm) ∧
        e.permissions = p.fileMsgGetMode fm &&& 0o777) ∧
      ∀ other, other ≠ path → r.2 other = fs other := by
  dsimp only
  rw [fileMsgToFile]
  dsimp only
  rw [if_neg hname, if_pos hopens, hopens, Bool.true_and]
  exact fs.saved umask _ _ _

theorem fileMsgToFile_other (opens : List UInt8 → Bool) (fm : p.FileMsg) (directory : List UInt8)
    (umask : ℕ) (fs : FileSystem) {other : List UInt8}
    (hother : other ≠ directory ++ 0x2f :: p.fileMsgGetFilename fm) :
    (p.fileMsgToFile opens fm (some directory) umask fs).2 other = fs other := by
  by_cases hname : p.fileMsgGetFilename fm = []
  · rw [fileMsgToFile, if_pos hname]
  cases hopens : opens (directory ++ 0x2f :: p.fileMsgGetFilename fm) with
  | true => exact (p.fileMsgToFile_spec opens fm directory umask fs hname hopens).2.2 other hother
  | false =>
    rw [fileMsgToFile]
    dsimp only
    rw [if_neg hname, hopens, if_neg Bool.false_ne_true]
    exact fs.xchmod_of_ne _ _ hother

/-- The padding of a wire behind the data of a message does not change what is read of it. -/
theorem padded_fields {path : List UInt8} {e : FileEntry} {fm : p.FileMsg}
    (h : p.Sendable path e) (hsized : fm.Sized) (hdata : fm.data = e.content)
    (hname : p.fileMsgGetFilename fm = xconstbasename path)
    (hmode : p.fileMsgGetMode fm = e.mode % 2 ^ 16) (pad : List UInt8) :
    let padded : p.FileMsg := { fm with data := fm.data ++ pad }
    p.fileMsgGetFilename padded = xconstbasename path ∧
      p.fileMsgGetPayloadLength padded = e.content.length ∧
      padded.data.take (p.fileMsgGetPayloadLength padded) = e.content ∧
      p.fileMsgGetMode padded &&& 0o777 = e.mode &&& 0o777 := by
  have hfits := p.size_fits h.small
  rw [← hdata] at hfits
  obtain ⟨hname', hmode', hlength⟩ := p.fields_withData fm (fm.data ++ pad)
  have hbits : e.mode % 2 ^ 16 &&& 0o777 = e.mode &&& 0o777 := by
    rw [show 0o777 = 2 ^ 9 - 1 by rfl, Nat.and_two_pow_sub_one_eq_mod,
      Nat.and_two_pow_sub_one_eq_mod]
    exact Nat.mod_mod_of_dvd _ (by decide)
  dsimp only
  rw [hname', hmode', hmode, hbits, hlength, p.fileMsgGetPayloadLength_eq hsized (by omega),
    List.take_left' rfl, hname, hdata]
  exact ⟨rfl, rfl, rfl, rfl⟩

/-- The model of `file_msg_to_file` with the results of its calls names the file that is there. -/
theorem fileMsgToFile_saved (opens : List UInt8 → Bool) (fm : linux.FileMsg)
    (directory : List UInt8) (umask : ℕ) (fs : FileSystem)
    (hname : linux.fileMsgGetFilename fm ≠ [])
    (hopens : opens (directory ++ 0x2f :: linux.fileMsgGetFilename fm) = true) :
    let path := directory ++ 0x2f :: linux.fileMsgGetFilename fm
    ∃ e, (linux.fileMsgToFile opens fm (some directory) umask fs).2 path = some e ∧
      Parcel.fileMsgToFile fm ⟨some directory, true, true, true⟩ =
        some ⟨path, e.content, e.permissions⟩ := by
  obtain ⟨-, ⟨e, he, hcontent, hmode⟩, -⟩ :=
    linux.fileMsgToFile_spec opens fm directory umask fs hname hopens
  refine ⟨e, he, ?_⟩
  rw [hcontent, hmode]
  exact if_neg hname

end Platform

/-- A file that is sent, sealed, opened with the same key and saved where files can be opened. -/
theorem file_round_trip (p : Platform) (sender receiver : FileSystem) (path : List UInt8)
    (e : FileEntry) (hfile : sender path = some e) (h : p.Sendable path e)
    (user directory : List UInt8) (gid uid umask : ℕ) (iv : Block) (key : Key)
    (key2 : Option Key) :
    ∃ fm w w', (sender path).bind (fun file =>
          p.fileMsgFromFile (some user) (some path) (file.disk gid uid)) = some fm ∧
      initWireFromMsg .file fm (some iv) = some w ∧
      openCable (initCable (encryptWire w key).bytes) key key2 = (true, w') ∧
      let target := directory ++ 0x2f :: xconstbasename path
      let r := p.fileMsgToFile (fun _ => true) (Msg.ofBytes _ w'.data) (some directory) umask
        receiver
      r.1 = true ∧
        (∃ saved, r.2 target = some saved ∧ saved.content = e.content ∧
          saved.permissions = e.mode &&& 0o777) ∧
        ∀ other, other ≠ target → r.2 other = receiver other := by
  obtain ⟨fm, hfm, hsized, hdata, hname, hmode⟩ := p.fileMsgFromFile_spec h user gid uid
  have hfits := p.size_fits h.small
  rw [← hdata] at hfits
  obtain ⟨w, hw, hopen⟩ := openCable_msg .file iv hsized
    (by rw [ceil16]; omega)
  obtain ⟨w', hw', -, hmsg⟩ := hopen (selectedKey_first (encryptWire_verifies w key) key2)
  refine ⟨fm, w, w', by rw [hfile]; exact hfm, hw, hw', ?_⟩
  dsimp only
  rw [hmsg]
  -- the receiver sees the fields with the padding behind the data
  obtain ⟨hname', -, hpayload, hmode'⟩ := p.padded_fields h hsized hdata hname hmode
    (List.replicate (padding (Msg.size p.fileFieldsSize + fm.data.length)) 0)
  have hsaved := p.fileMsgToFile_spec (fun _ => true)
    { fm with data := fm.data ++
        List.replicate (padding (Msg.size p.fileFieldsSize + fm.data.length)) 0 }
    directory umask receiver (by rw [hname']; exact h.named) rfl
  dsimp only at hsaved
  rw [hname', hmode', hpayload] at hsaved
  exact hsaved

/-- The file `/x` with the one byte `h`. -/
def smallEntry : FileEntry := ⟨[104], 0o100644⟩

/-- It is saved in an empty directory. -/
theorem small_file_round_trip :
    ∃ fm w w', (Function.update (fun _ => none) [0x2f, 0x78] (some smallEntry) :
          FileSystem) [0x2f, 0x78] = some smallEntry ∧
      Platform.linux.fileMsgFromFile (some [97]) (some [0x2f, 0x78]) (smallEntry.disk 0 0) =
        some fm ∧
      initWireFromMsg .file fm (some (Vector.replicate 16 0)) = some w ∧
      openCable (initCable (encryptWire w (Vector.replicate 32 0)).bytes) (Vector.replicate 32 0)
        none = (true, w') ∧
      let r := Platform.linux.fileMsgToFile (fun _ => true) (Msg.ofBytes _ w'.data)
        (some [0x2f, 0x64]) 0o022 fun _ => none
      ∃ saved, r.2 [0x2f, 0x64, 0x2f, 0x78] = some saved ∧ saved.content = [104] ∧
        saved.permissions = 0o644 := by
  have hfile : (Function.update (fun _ => none) [0x2f, 0x78] (some smallEntry) : FileSystem)
      [0x2f, 0x78] = some smallEntry := Function.update_self ..
  have hsend : Platform.linux.Sendable [0x2f, 0x78] smallEntry :=
    ⟨by decide, by decide, by decide, by decide, by decide⟩
  obtain ⟨fm, w, w', hfm, hw, hw', -, hsaved, -⟩ := file_round_trip .linux _ (fun _ => none)
    [0x2f, 0x78] smallEntry hfile hsend [97] [0x2f, 0x64] 0 0 0o022 (Vector.replicate 16 0)
    (Vector.replicate 32 0) none
  have htarget : [0x2f, 0x64] ++ 0x2f :: xconstbasename [0x2f, 0x78] =
      [0x2f, 0x64, 0x2f, 0x78] := by decide
  have hmode : smallEntry.mode &&& 0o777 = 0o644 := by decide
  rw [hfile] at hfm
  rw [htarget, hmode] at hsaved
  exact ⟨fm, w, w', hfile, hfm, hw, hw', hsaved⟩

/-! ## Builds that exchange files -/

structure ReceivedFile where
  filename : List UInt8
  payloadLength : ℕ
  mode : ℕ
  payload : List UInt8
  deriving DecidableEq

def Platform.received (p : Platform) (mem : List UInt8) : ReceivedFile :=
  let fm := Msg.ofBytes p.fileFieldsSize mem
  let len := p.fileMsgGetPayloadLength fm
  ⟨p.fileMsgGetFilename fm, len, p.fileMsgGetMode fm, fm.data.take len⟩

/-- A build reads its own messages, whatever follows them. -/
theorem Platform.received_own (p : Platform) {path : List UInt8} {e : FileEntry} {fm : p.FileMsg}
    (hsized : fm.Sized) (hdata : fm.data = e.content)
    (hname : p.fileMsgGetFilename fm = xconstbasename path)
    (hmode : p.fileMsgGetMode fm = e.mode % 2 ^ 16) (h : p.Sendable path e)
    (rest : List UInt8) : p.received (fm.bytes ++ rest) =
      ⟨xconstbasename path, e.content.length, e.mode % 2 ^ 16, e.content⟩ := by
  have hfits := p.size_fits h.small
  obtain ⟨hname', hmode', hlength⟩ := p.fields_withData fm (fm.data ++ rest)
  rw [received, Msg.ofBytes_append]
  dsimp only
  rw [hname', hmode', hlength, p.fileMsgGetPayloadLength_eq hsized (by rw [hdata]; omega),
    List.take_left' rfl, hname, hmode, hdata]

theorem Platform.received_payloadLength (p q : Platform) {fm : p.FileMsg} (hsized : fm.Sized)
    (rest : List UInt8) : (q.received (fm.bytes ++ rest)).payloadLength =
      sizeSub (83 + p.pathMax + fm.data.length) (83 + q.pathMax) := by
  have hlen : (Msg.ofBytes q.fileFieldsSize (fm.bytes ++ rest)).len = fm.len := by
    rw [Msg.ofBytes, Msg.bytes, List.cons_append, List.drop_succ_cons, List.drop_zero,
      List.append_assoc, readVec_append]
  rw [received, fileMsgGetPayloadLength, Msg.getWireLength, hlen]
  change sizeSub fm.getWireLength _ = _
  have hp : Msg.size p.fileFieldsSize = 83 + p.pathMax := by
    rw [Msg.size, fileFieldsSize]
    omega
  have hq : Msg.size q.fileFieldsSize = 83 + q.pathMax := by
    rw [Msg.size, fileFieldsSize]
    omega
  rw [hsized, hp, hq]

/-- Two builds read a file message alike exactly when they have the same `PATH_MAX`; the
mode has to be one that two bytes hold. -/
theorem file_format_agrees_iff (p q : Platform) (path : List UInt8) (e : FileEntry)
    (h : p.Sendable path e) (user : List UInt8) (gid uid : ℕ) (fm : p.FileMsg)
    (hfm : p.fileMsgFromFile (some user) (some path) (e.disk gid uid) = some fm)
    (rest : List UInt8) :
    q.received (fm.bytes ++ rest) =
        ⟨xconstbasename path, e.content.length, e.mode, e.content⟩ ↔
      p.pathMax = q.pathMax ∧ e.mode < 2 ^ 16 := by
  obtain ⟨fm', hfm', hsized, hdata, hname, hmode⟩ := p.fileMsgFromFile_spec h user gid uid
  obtain rfl : fm' = fm := Option.some.inj (hfm'.symm.trans hfm)
  have hown := p.received_own hsized hdata hname hmode h rest
  constructor
  · intro hreceived
    have hlength := p.received_payloadLength q hsized rest
    rw [hreceived, hdata, sizeSub] at hlength
    dsimp only at hlength
    have hsame : p.pathMax = q.pathMax := by
      have := p.fits
      have := q.fits
      have := h.small
      rw [fileDataMaxSize] at this
      omega
    obtain rfl := Platform.ext_pathMax hsame
    rw [hown] at hreceived
    injection hreceived with _ _ hbits
    exact ⟨rfl, by omega⟩
  · rintro ⟨hsame, hbits⟩
    obtain rfl := Platform.ext_pathMax hsame
    rw [hown, Nat.mod_eq_of_lt hbits]

/-- A file from one build for Linux to another. -/
theorem file_format_agrees_linux :
    ∃ fm, Platform.linux.Sendable [0x2f, 0x78] smallEntry ∧
      Platform.linux.fileMsgFromFile (some [97]) (some [0x2f, 0x78]) (smallEntry.disk 0 0) =
        some fm ∧
      Platform.linux.received (fm.bytes ++ []) = ⟨[0x78], 1, 0o100644, [104]⟩ := by
  have hsend : Platform.linux.Sendable [0x2f, 0x78] smallEntry :=
    ⟨by decide, by decide, by decide, by decide, by decide⟩
  obtain ⟨fm, hfm, -⟩ := Platform.linux.fileMsgFromFile_spec hsend [97] 0 0
  have hname : xconstbasename [0x2f, 0x78] = [0x78] := by decide
  have hsame := (file_format_agrees_iff .linux .linux [0x2f, 0x78] smallEntry hsend [97] 0 0 fm hfm
    []).mpr ⟨rfl, by decide⟩
  rw [hname] at hsame
  exact ⟨fm, hsend, hfm, hsame⟩

/-- The same file from Linux to Windows: it is taken for a longer one. -/
theorem file_format_differs_windows :
    ∃ fm, Platform.linux.fileMsgFromFile (some [97]) (some [0x2f, 0x78]) (smallEntry.disk 0 0) =
        some fm ∧
      (Platform.windows.received fm.bytes).payloadLength = 3837 ∧
      Platform.windows.received fm.bytes ≠ ⟨[0x78], 1, 0o100644, [104]⟩ := by
  have hsend : Platform.linux.Sendable [0x2f, 0x78] smallEntry :=
    ⟨by decide, by decide, by decide, by decide, by decide⟩
  obtain ⟨fm, hfm, hsized, hdata, -⟩ := Platform.linux.fileMsgFromFile_spec hsend [97] 0 0
  have hlength := Platform.linux.received_payloadLength .windows hsized []
  have hvalue : sizeSub (83 + Platform.linux.pathMax + smallEntry.content.length)
      (83 + Platform.windows.pathMax) = 3837 := by decide
  rw [List.append_nil, hdata, hvalue] at hlength
  refine ⟨fm, hfm, hlength, ?_⟩
  intro hsame
  rw [hsame] at hlength
  exact absurd hlength (by decide)

end Parcel
