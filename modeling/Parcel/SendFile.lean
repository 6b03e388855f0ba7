import Parcel.FileTransfer

/-!
# The file command

The command that sends a file, from the entered path to the cable. A failure below it is a
NULL wire, and `transmit_wire` reads the header of what it is given.
-/

namespace Parcel
open ByteStrings Aes

/-- What the calls of the command give: whether the path opens for `xfexists`, what
`file_msg_from_file` finds there, the IV, and whether the cable is sent. -/
structure FileAttempt where
  openable : Bool
  disk : DiskFile
  rnd : Option Block
  delivered : Bool

/-- How the command ends, and the cable that it sends; the wire that is read may be NULL. -/
inductive Transmission
  | returned (ok : Bool) (cable : Option Cable)
  | crashed

def transmitWire (session : Key) (delivered : Bool) : Option Wire → Transmission
  | none => .crashed
  | some wire => .returned delivered (some (initCable (encryptWire wire session).bytes))

namespace Platform

variable (p : Platform)

def clientInitFileWire (user path : List UInt8) (disk : DiskFile) (rnd : Option Block) :
    Option Wire := do
  let fileMsg ← p.fileMsgFromFile (some (cStr user)) (some path) disk
  initWireFromMsg .file fileMsg rnd

def cmdSendFile (user : List UInt8) (session : Key) (path : List UInt8) (a : FileAttempt) :
    Transmission :=
  if !a.openable then .returned false none
  else transmitWire session a.delivered (p.clientInitFileWire user path a.disk a.rnd)

/-- The receiver opens the cable with the session key, finds a file message in it, and would
save the bytes of the file. -/
def Carries (session : Key) (disk : DiskFile) (cable : Cable) : Prop :=
  ∃ w, openCable cable session none = (true, w) ∧ wireGetType w = WireType.file.code ∧
    ∃ contents, disk.contents = some contents ∧
      (Msg.ofBytes p.fileFieldsSize w.data).data.take
        (p.fileMsgGetPayloadLength (Msg.ofBytes p.fileFieldsSize w.data)) =
          contents.take disk.size

def Clean (session : Key) (disk : DiskFile) : Transmission → Prop
  | .returned ok cable => ok = true → ∃ c, cable = some c ∧ p.Carries session disk c
  | .crashed => False

theorem fileMsgFromFile_isSome_iff (user path : List UInt8) (disk : DiskFile) :
    p.fileMsgFromFile (some user) (some path) disk ≠ none ↔ ∃ contents, Readable disk contents := by
  cases hopens : disk.contents with
  | none =>
    refine iff_of_false (fun h => h ?_) fun ⟨contents, h⟩ => ?_
    · simp only [fileMsgFromFile, hopens]
    · exact Option.some_ne_none contents (h.opens.symm.trans hopens)
  | some contents =>
    have hreadable : (∃ contents, Readable disk contents) ↔
        ¬(disk.size = 0 ∨ fileDataMaxSize < disk.size) ∧ ¬contents.length < disk.size := by
      constructor
      · rintro ⟨contents', h⟩
        obtain rfl := Option.some.inj (h.opens.symm.trans hopens)
        exact ⟨not_or.mpr ⟨h.nonempty, h.small.not_gt⟩, h.complete.not_gt⟩
      · rintro ⟨hsize, hcomplete⟩
        have hsize' := not_or.mp hsize
        exact ⟨contents, hopens, hsize'.1, not_lt.mp hsize'.2, not_lt.mp hcomplete⟩
    simp only [fileMsgFromFile, hopens, hreadable]
    by_cases hsize : disk.size = 0 ∨ fileDataMaxSize < disk.size
    · rw [if_pos hsize]
      exact iff_of_false (fun h => h rfl) fun h => h.1 hsize
    · rw [if_neg hsize]
      by_cases hcomplete : contents.length < disk.size
      · rw [if_pos hcomplete]
        exact iff_of_false (fun h => h rfl) fun h => h.2 hcomplete
      · rw [if_neg hcomplete]
        exact iff_of_true (Option.some_ne_none _) ⟨hsize, hcomplete⟩

theorem fileMsgFromFile_data (user path : List UInt8) {disk : DiskFile} {contents : List UInt8}
    (h : Readable disk contents) :
    ∃ fm, p.fileMsgFromFile (some user) (some path) disk = some fm ∧ fm.Sized ∧
      fm.data = contents.take disk.size := by
  obtain ⟨hsized, hlength⟩ := p.fileFields_sized path h.small
  have htake : (contents.take disk.size).length = disk.size := List.length_take_of_le h.complete
  obtain ⟨hdata, hsized'⟩ := Msg.setData_sized hsized (htake.trans hlength.symm)
  refine ⟨_, ?_, hsized', hdata⟩
  simp only [fileMsgFromFile, h.opens]
  rw [if_neg (not_or.mpr ⟨h.nonempty, h.small.not_gt⟩), if_neg h.complete.not_gt]
  rfl

theorem clientInitFileWire_carries (user path : List UInt8) {disk : DiskFile}
    {contents : List UInt8} (h : Readable disk contents) (iv : Block) (session : Key) :
    ∃ wire, p.clientInitFileWire user path disk (some iv) = some wire ∧
      p.Carries session disk (initCable (encryptWire wire session).bytes) := by
  obtain ⟨fm, hfm, hsized, hdata⟩ := p.fileMsgFromFile_data (cStr user) path h
  have hlength : fm.data.length = disk.size := by
    rw [hdata]
    exact List.length_take_of_le h.complete
  have hfits := p.size_fits h.small
  rw [← hlength] at hfits
  obtain ⟨wire, hwire, hopen⟩ := openCable_msg .file iv hsized (by rw [ceil16]; omega)
  obtain ⟨w, hw, htype, hmsg⟩ := hopen (selectedKey_first (encryptWire_verifies wire session) none)
  refine ⟨wire, ?_, w, hw, htype, contents, h.opens, ?_⟩
  · rw [clientInitFileWire, hfm]
    exact hwire
  · rw [hmsg, (p.fields_withData fm _).2.2, p.fileMsgGetPayloadLength_eq hsized (by omega)]
    rw [List.take_left, hdata]

theorem clientInitFileWire_eq_none (user path : List UInt8) {disk : DiskFile} {rnd : Option Block}
    (h : (¬∃ contents, Readable disk contents) ∨ rnd = none) :
    p.clientInitFileWire user path disk rnd = none := by
  rw [clientInitFileWire]
  rcases h with hdisk | rfl
  · rw [not_not.mp (mt (p.fileMsgFromFile_isSome_iff (cStr user) path disk).mp hdisk)]
    rfl
  · cases p.fileMsgFromFile (some (cStr user)) (some path) disk <;> rfl

end Platform

/-- The command fails cleanly where the first open fails already; past it, exactly for a file
that can be sent, and with entropy for its wire. -/
theorem cmd_send_file_clean_iff (p : Platform) (user : List UInt8) (session : Key)
    (path : List UInt8) (a : FileAttempt) :
    p.Clean session a.disk (p.cmdSendFile user session path a) ↔
      (a.openable = true → (∃ contents, Readable a.disk contents) ∧ a.rnd ≠ none) := by
  obtain ⟨openable, disk, rnd, delivered⟩ := a
  rw [Platform.cmdSendFile]
  cases openable with
  | false => exact iff_of_true nofun nofun
  | true =>
    by_cases hsent : (∃ contents, Readable disk contents) ∧ rnd ≠ none
    · obtain ⟨⟨contents, hreadable⟩, hrnd⟩ := hsent
      obtain ⟨iv, rfl⟩ := Option.ne_none_iff_exists'.mp hrnd
      obtain ⟨wire, hwire, hcarries⟩ := p.clientInitFileWire_carries user path hreadable iv session
      refine iff_of_true ?_ fun _ => ⟨⟨contents, hreadable⟩, hrnd⟩
      simp only [hwire]
      exact fun _ => ⟨_, rfl, hcarries⟩
    · -- Either way the wire is NULL, and its header is read.
      have hnull : (¬∃ contents, Readable disk contents) ∨ rnd = none :=
        (not_and_or.mp hsent).imp id not_not.mp
      refine iff_of_false ?_ fun h => hsent (h rfl)
      simp only [p.clientInitFileWire_eq_none user path hnull]
      exact id

def emptyAttempt : FileAttempt :=
  ⟨true, ⟨some [], 0, 0, 0, 0o100644⟩, some (Vector.replicate 16 0), true⟩

/-- The NULL wire of an empty file is passed on. -/
theorem empty_file_crashes :
    Platform.linux.cmdSendFile [97] (Vector.replicate 32 0) [0x78] emptyAttempt = .crashed ∧
      ¬Platform.linux.Clean (Vector.replicate 32 0) emptyAttempt.disk
        (Platform.linux.cmdSendFile [97] (Vector.replicate 32 0) [0x78] emptyAttempt) :=
  ⟨rfl, id⟩

end Parcel
