import Parcel.FileTransfer
import Parcel.HandlerBounds

/-!
# A file from one client to another

What `cmd_send_file` sends, up to the file system of the receiver: the cable, the keys,
`handle_wire`, `proc_file` and `file_msg_to_file`.
-/

namespace Parcel
open ByteStrings Aes

/-- The calls of `proc_file` when nothing fails. -/
def savingTo (directory : List UInt8) : Saving := ⟨some directory, true, true, true⟩

theorem procFile_saved {data name directory : List UInt8} {length : ℕ} {saved : SavedFile}
    (hname : fileMsgGetFilename (Msg.ofBytes 4170 data) = name) (hnamed : name ≠ [])
    (huser : fileMsgGetUser (Msg.ofBytes 4170 data) = [])
    (hlength : fileMsgGetPayloadLength (Msg.ofBytes 4170 data) = length)
    (hsaved : fileMsgToFile (Msg.ofBytes 4170 data) (savingTo directory) = some saved) :
    procFile (savingTo directory) data = .ok ⟨[], name, length / 1024, saved⟩ := by
  rw [procFile, hname, if_neg hnamed, if_neg (not_not.mpr huser), hsaved, huser, hlength,
    Nat.shiftRight_eq_div_pow]

theorem handleWire_file {env : Outcomes} {saving : Saving}
    (hfile : ∀ data, env.procFile data = (procFile saving data).toBool) (ctx : ClientState)
    {wire : Wire} (htype : wireGetType wire = WireType.file.code) {shown : ShownFile}
    (hshown : procFile saving wire.data = .ok shown) : handleWire env ctx wire = (true, ctx) := by
  have hhandler : handlerOf (wireGetType wire) = .file := by
    rw [htype]
    decide
  rw [← handleData_eq hfile, handleData, hhandler]
  dsimp only
  rw [hshown]
  rfl

/-- A file that one client sends is on the disk of each other one with its session key, under
its last component and with its permissions; `proc_file` announces it without a sender. -/
theorem sent_file_saved (path : List UInt8) (e : FileEntry) (h : Platform.linux.Sendable path e)
    (user : List UInt8) (gid uid : ℕ) (iv : Block) (ctx : ClientState) (env : Outcomes)
    (directory : List UInt8)
    (hfile : ∀ data, env.procFile data = (procFile (savingTo directory) data).toBool)
    (opens : List UInt8 → Bool) (hopens : opens (directory ++ 0x2f :: xconstbasename path) = true)
    (umask : ℕ) (fs : FileSystem) :
    let target := directory ++ 0x2f :: xconstbasename path
    ∃ w wire, (Sent.file path (e.disk gid uid)).wire user (some iv) = some w ∧
      decryptCabledWire ctx (initCable (encryptWire w ctx.keys.session).bytes) = some wire ∧
      handleWire env ctx wire = (true, ctx) ∧
      procFile (savingTo directory) wire.data = .ok ⟨[], xconstbasename path,
        e.content.length / 1024, ⟨target, e.content, e.mode &&& 0o777⟩⟩ ∧
      let fs' := (Platform.linux.fileMsgToFile opens (Msg.ofBytes _ wire.data) (some directory)
        umask fs).2
      (∃ saved, fs' target = some saved ∧ saved.content = e.content ∧
        saved.permissions = e.mode &&& 0o777) ∧
      ∀ other, other ≠ target → fs' other = fs other := by
  intro target
  -- what the sender packs
  obtain ⟨fm, hfm, hsized, hdata, hname, hmode⟩ :=
    Platform.linux.fileMsgFromFile_spec h (cStr user) gid uid
  obtain ⟨fm', hfm', -, -, huser⟩ := fileMsgFromFile_spec (cStr user) path (h.readable gid uid)
  obtain rfl := Option.some.inj (hfm.symm.trans hfm')
  have hfits := Platform.linux.size_fits h.small
  rw [← hdata] at hfits
  -- what the receiver opens
  obtain ⟨w, hw, hopen⟩ := openCable_msg .file iv hsized (by rw [ceil16]; omega)
  obtain ⟨wire, hwire, htype, hmsg⟩ := hopen
    (selectedKey_first (encryptWire_verifies w ctx.keys.session) (some ctx.keys.ctrl))
  have huser' := (congrArg fileMsgGetUser hmsg).trans ((fileMsgGetUser_withData fm _).trans huser)
  -- padding changes no field of the message
  obtain ⟨hname', hlength, hpayload, hmode'⟩ :
      let received : Platform.linux.FileMsg := Msg.ofBytes _ wire.data
      Platform.linux.fileMsgGetFilename received = xconstbasename path ∧
        Platform.linux.fileMsgGetPayloadLength received = e.content.length ∧
        received.data.take (Platform.linux.fileMsgGetPayloadLength received) = e.content ∧
        Platform.linux.fileMsgGetMode received &&& 0o777 = e.mode &&& 0o777 := by
    dsimp only
    rw [hmsg]
    exact Platform.linux.padded_fields h hsized hdata hname hmode _
  have hnamed : Platform.linux.fileMsgGetFilename (Msg.ofBytes _ wire.data) ≠ [] := by
    rw [hname']
    exact h.named
  rw [← hname'] at hopens
  -- what is written, and what the thread reports of it
  obtain ⟨-, ⟨saved, hsaved, hcontent, hpermissions⟩, hother⟩ :=
    Platform.linux.fileMsgToFile_spec opens _ directory umask fs hnamed hopens
  obtain ⟨saved', hsaved', hmodel⟩ :=
    Platform.fileMsgToFile_saved opens _ directory umask fs hnamed hopens
  obtain rfl := Option.some.inj (hsaved.symm.trans hsaved')
  rw [hpayload] at hcontent
  rw [hmode'] at hpermissions
  rw [hcontent, hpermissions] at hmodel
  rw [hname'] at hsaved hother hmodel
  have hshown := procFile_saved hname' h.named huser' hlength hmodel
  refine ⟨w, wire, ?_, ?_, handleWire_file hfile ctx htype hshown, hshown,
    ⟨saved, hsaved, hcontent, hpermissions⟩, hother⟩
  · rw [Sent.wire, hfm']
    exact hw
  · rw [decryptCabledWire, hwire, if_pos rfl]

/-- The calls of a client whose files go to `/d`. -/
def savingOutcomes : Outcomes :=
  { sevens with procFile := fun data => (procFile (savingTo [0x2f, 0x64]) data).toBool }

/-- The file `/x`, sent to a client that saves it as `/d/x`. -/
theorem sent_file_saved_small :
    ∃ w wire saved, (Sent.file [0x2f, 0x78] (smallEntry.disk 0 0)).wire [97]
        (some (Vector.replicate 16 0)) = some w ∧
      decryptCabledWire onesClient
        (initCable (encryptWire w onesClient.keys.session).bytes) = some wire ∧
      handleWire savingOutcomes onesClient wire = (true, onesClient) ∧
      (Platform.linux.fileMsgToFile (fun _ => true) (Msg.ofBytes _ wire.data) (some [0x2f, 0x64])
        0o022 fun _ => none).2 [0x2f, 0x64, 0x2f, 0x78] = some saved ∧
      saved.content = [104] ∧ saved.permissions = 0o644 := by
  have hsend : Platform.linux.Sendable [0x2f, 0x78] smallEntry :=
    ⟨by decide, by decide, by decide, by decide, by decide⟩
  obtain ⟨w, wire, hw, hopened, hhandled, -, hsaved, -⟩ :=
    sent_file_saved [0x2f, 0x78] smallEntry hsend [97] 0 0 (Vector.replicate 16 0) onesClient
      savingOutcomes [0x2f, 0x64] (fun _ => rfl) (fun _ => true) rfl 0o022 fun _ => none
  have htarget : [0x2f, 0x64] ++ 0x2f :: xconstbasename [0x2f, 0x78] =
      [0x2f, 0x64, 0x2f, 0x78] := by decide
  have hbits : smallEntry.mode &&& 0o777 = 0o644 := by decide
  rw [htarget, hbits] at hsaved
  obtain ⟨saved, hsaved, hcontent, hmode⟩ := hsaved
  exact ⟨w, wire, saved, hw, hopened, hhandled, hsaved, hcontent, hmode⟩

end Parcel
