import Parcel.BoundedReads
import Parcel.FileTransfer

/-!
# Where a received file is saved

The path that `file_msg_to_file` opens and changes the mode of, for a directory and any
filename field. The sender puts the last component of a path into the field; the receiver
takes what is there.
-/

namespace Parcel
open ByteStrings

/-- A name in a directory: one component of a path, and neither `.` nor `..`. -/
structure IsComponent (name : List UInt8) : Prop where
  nonempty : name ≠ []
  noSlash : 0x2f ∉ name
  ne_dot : name ≠ [0x2e]
  ne_dotDot : name ≠ [0x2e, 0x2e]

def InDirectory (directory path : List UInt8) : Prop :=
  ∃ name, IsComponent name ∧ path = directory ++ 0x2f :: name

theorem inDirectory_iff (directory name : List UInt8) :
    InDirectory directory (directory ++ 0x2f :: name) ↔ IsComponent name := by
  constructor
  · rintro ⟨name', hname, heq⟩
    have hcons := List.append_cancel_left heq
    rwa [(List.cons.inj hcons).2]
  · intro h
    exact ⟨name, h, rfl⟩

namespace Platform

variable (p : Platform)

/-- In some state of the file system the function creates the file or changes it. -/
def Saves (fm : p.FileMsg) (directory path : List UInt8) : Prop :=
  ∃ (opens : List UInt8 → Bool) (umask : ℕ) (fs : FileSystem),
    (p.fileMsgToFile opens fm (some directory) umask fs).2 path ≠ fs path

theorem saves_iff {fm : p.FileMsg} (hname : p.fileMsgGetFilename fm ≠ [])
    (directory path : List UInt8) :
    p.Saves fm directory path ↔ path = directory ++ 0x2f :: p.fileMsgGetFilename fm := by
  constructor
  · rintro ⟨opens, umask, fs, hne⟩
    -- Every other path keeps its file.
    by_contra hpath
    exact hne (p.fileMsgToFile_other opens fm directory umask fs hpath)
  · rintro rfl
    obtain ⟨-, ⟨e, he, -⟩, -⟩ :=
      p.fileMsgToFile_spec (fun _ => true) fm directory 0 (fun _ => none) hname rfl
    refine ⟨fun _ => true, 0, fun _ => none, ?_⟩
    rw [he]
    exact Option.some_ne_none e

def filenameField (fm : p.FileMsg) : List UInt8 := (getField fm 64 p.pathMax).toList

/-- No slash before the first NUL and the last byte of the array, and not the string `.`
or `..`. -/
structure PlainField (field : List UInt8) : Prop where
  noSlash : ∀ i < field.length - 1, field[i]? = some 0x2f → ∃ j < i, field[j]? = some 0
  notDot : ¬[0x2e, 0] <+: field
  notDotDot : ¬[0x2e, 0x2e, 0] <+: field

end Platform

theorem mem_takeWhile_iff {bytes : List UInt8} {b : UInt8} (hb : b ≠ 0) :
    b ∈ bytes.takeWhile (· != 0) ↔
      ∃ i : ℕ, bytes[i]? = some b ∧ ∀ j < i, bytes[j]? ≠ some 0 := by
  induction bytes with
  | nil => simp
  | cons c bytes ih =>
    by_cases hc : c = 0
    · -- Nothing of the string is left, and the NUL stands in front of every later byte.
      have hempty : (c :: bytes).takeWhile (· != 0) = [] := by simp [hc]
      rw [hempty]
      refine iff_of_false List.not_mem_nil ?_
      rintro ⟨i, hi, hbefore⟩
      cases i with
      | zero =>
        rw [List.getElem?_cons_zero, hc] at hi
        exact hb (Option.some.inj hi).symm
      | succ i => exact hbefore 0 (Nat.succ_pos i) (by rw [hc]; rfl)
    · have hcons : (c :: bytes).takeWhile (· != 0) = c :: bytes.takeWhile (· != 0) := by simp [hc]
      rw [hcons, List.mem_cons, ih]
      constructor
      · rintro (rfl | ⟨i, hi, hbefore⟩)
        · exact ⟨0, rfl, fun j hj => absurd hj (Nat.not_lt_zero j)⟩
        · refine ⟨i + 1, hi, fun j hj => ?_⟩
          cases j with
          | zero =>
            rw [List.getElem?_cons_zero]
            exact fun h => hc (Option.some.inj h)
          | succ j => exact hbefore j (Nat.lt_of_succ_lt_succ hj)
      · rintro ⟨i, hi, hbefore⟩
        cases i with
        | zero => exact Or.inl (Option.some.inj hi).symm
        | succ i =>
          exact Or.inr ⟨i, hi, fun j hj => hbefore (j + 1) (Nat.succ_lt_succ hj)⟩

theorem takeWhile_eq_iff {bytes t : List UInt8} (ht : 0 ∉ t) :
    bytes.takeWhile (· != 0) = t ↔ t ++ [0] <+: bytes ∨ bytes = t := by
  constructor
  · intro h
    have hsplit := List.takeWhile_append_dropWhile (p := (· != 0)) (l := bytes)
    rw [h] at hsplit
    cases hrest : bytes.dropWhile (· != 0) with
    | nil =>
      rw [hrest, List.append_nil] at hsplit
      exact Or.inr hsplit.symm
    | cons b rest =>
      have hb : b = 0 := by
        have hnot := List.head_dropWhile_not (· != 0)
          (show bytes.dropWhile (· != 0) ≠ [] by rw [hrest]; exact List.cons_ne_nil _ _)
        simp only [hrest, List.head_cons] at hnot
        simpa using hnot
      left
      rw [hrest, hb] at hsplit
      exact ⟨rest, by rw [← hsplit, List.append_assoc]; rfl⟩
  · rintro (⟨rest, rfl⟩ | rfl)
    · rw [List.append_assoc]
      exact takeWhile_append_zero ht rest
    · exact takeWhile_no_zero ht

namespace Platform

variable (p : Platform)

theorem fileMsgGetFilename_eq (fm : p.FileMsg) :
    p.fileMsgGetFilename fm =
      ((p.filenameField fm).take (p.pathMax - 1)).takeWhile (· != 0) := by
  rw [fileMsgGetFilename, filenameField]
  exact BoundedReads.take_strnlen _ _

theorem filenameField_length (fm : p.FileMsg) : (p.filenameField fm).length = p.pathMax := by
  rw [filenameField, Vector.length_toList]

theorem fileMsgGetFilename_eq_iff (fm : p.FileMsg) {t : List UInt8} (ht : 0 ∉ t)
    (hlen : t.length + 1 < p.pathMax) :
    p.fileMsgGetFilename fm = t ↔ t ++ [0] <+: p.filenameField fm := by
  have hfield := p.filenameField_length fm
  rw [fileMsgGetFilename_eq, takeWhile_eq_iff ht]
  constructor
  · rintro (hpre | heq)
    · exact hpre.trans (List.take_prefix _ _)
    · -- The array is longer than `t`, so that it does not end there.
      have hlength := congrArg List.length heq
      rw [List.length_take, hfield] at hlength
      omega
  · intro hpre
    left
    rw [List.prefix_take_iff]
    refine ⟨hpre, ?_⟩
    rw [List.length_append, List.length_singleton]
    omega

theorem isComponent_iff {fm : p.FileMsg} (hname : p.fileMsgGetFilename fm ≠ [])
    (hmax : 3 < p.pathMax) :
    IsComponent (p.fileMsgGetFilename fm) ↔ PlainField (p.filenameField fm) := by
  have hfield := p.filenameField_length fm
  have hslash : 0x2f ∉ p.fileMsgGetFilename fm ↔ ∀ i < (p.filenameField fm).length - 1,
      (p.filenameField fm)[i]? = some 0x2f → ∃ j < i, (p.filenameField fm)[j]? = some 0 := by
    rw [fileMsgGetFilename_eq, mem_takeWhile_iff (by decide), hfield]
    push Not
    constructor
    · intro h i hi hbyte
      obtain ⟨j, hj, hnul⟩ := h i (by rw [List.getElem?_take_of_lt hi, hbyte])
      rw [List.getElem?_take_of_lt (hj.trans hi)] at hnul
      exact ⟨j, hj, hnul⟩
    · intro h i hbyte
      by_cases hi : i < p.pathMax - 1
      · rw [List.getElem?_take_of_lt hi] at hbyte
        obtain ⟨j, hj, hnul⟩ := h i hi hbyte
        exact ⟨j, hj, by rw [List.getElem?_take_of_lt (hj.trans hi), hnul]⟩
      · rw [List.getElem?_take_eq_none (not_lt.mp hi)] at hbyte
        cases hbyte
  have hdot := p.fileMsgGetFilename_eq_iff fm (t := [0x2e]) (by decide) (by simp; omega)
  have hdotDot := p.fileMsgGetFilename_eq_iff fm (t := [0x2e, 0x2e]) (by decide) (by simp; omega)
  constructor
  · intro h
    exact ⟨hslash.mp h.noSlash, fun hpre => h.ne_dot (hdot.mpr hpre),
      fun hpre => h.ne_dotDot (hdotDot.mpr hpre)⟩
  · intro h
    exact ⟨hname, hslash.mpr h.noSlash, fun heq => h.notDot (hdot.mp heq),
      fun heq => h.notDotDot (hdotDot.mp heq)⟩

end Platform

/-- The file is saved as a name in the directory exactly when the array holds such a
name. -/
theorem received_file_stays_iff (fm : Platform.linux.FileMsg) (directory : List UInt8)
    (hname : Platform.linux.fileMsgGetFilename fm ≠ []) :
    (∀ path, Platform.linux.Saves fm directory path → InDirectory directory path) ↔
      Platform.PlainField (Platform.linux.filenameField fm) := by
  rw [← Platform.isComponent_iff _ hname (by decide), ← inDirectory_iff directory]
  simp only [Platform.saves_iff _ hname, forall_eq]

def namedFile (name : List UInt8) : Platform.linux.FileMsg :=
  Platform.linux.fileMsgSetFilename
    (Msg.init Platform.linux.fileFieldsSize FileMsgType.text.code 0) (cStr name)

theorem fileMsgGetFilename_namedFile {name : List UInt8} (hnul : 0 ∉ name)
    (hlen : name.length < 4096) : Platform.linux.fileMsgGetFilename (namedFile name) = name :=
  Platform.linux.fileMsgGetFilename_setFilename _ hnul hlen

/-- The file `x` for the directory `/d`. -/
theorem received_file_stays_plain :
    Platform.linux.fileMsgGetFilename (namedFile [0x78]) ≠ [] ∧
      ∀ path, Platform.linux.Saves (namedFile [0x78]) [0x2f, 0x64] path →
        InDirectory [0x2f, 0x64] path := by
  have hname : Platform.linux.fileMsgGetFilename (namedFile [0x78]) = [0x78] :=
    fileMsgGetFilename_namedFile (by decide) (by decide)
  have hne : Platform.linux.fileMsgGetFilename (namedFile [0x78]) ≠ [] := by
    rw [hname]
    exact List.cons_ne_nil _ _
  refine ⟨hne, ?_⟩
  rw [received_file_stays_iff (namedFile [0x78]) [0x2f, 0x64] hne,
    ← Platform.isComponent_iff _ hne (by decide), hname]
  exact ⟨by decide, by decide, by decide, by decide⟩

/-- The file `../x` for the directory `/d` is saved as `/d/../x`. -/
theorem received_file_leaves_directory :
    ∃ (fm : Platform.linux.FileMsg) (directory path : List UInt8),
      Platform.linux.fileMsgGetFilename fm ≠ [] ∧ Platform.linux.Saves fm directory path ∧
        ¬InDirectory directory path := by
  have hname : Platform.linux.fileMsgGetFilename (namedFile [0x2e, 0x2e, 0x2f, 0x78]) =
      [0x2e, 0x2e, 0x2f, 0x78] := fileMsgGetFilename_namedFile (by decide) (by decide)
  have hne : Platform.linux.fileMsgGetFilename (namedFile [0x2e, 0x2e, 0x2f, 0x78]) ≠ [] := by
    rw [hname]
    exact List.cons_ne_nil _ _
  refine ⟨namedFile [0x2e, 0x2e, 0x2f, 0x78], [0x2f, 0x64], _, hne,
    (Platform.saves_iff _ hne _ _).mpr rfl, ?_⟩
  rw [inDirectory_iff, hname]
  exact fun h => h.noSlash (by decide)

end Parcel
