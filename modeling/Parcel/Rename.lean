import Parcel.Arguments
import Parcel.Messages

/-!
# The name of a client

The command `/username` and the messages that a client builds with its name. The name
that is announced and the name that is used afterwards are cut to length in different
places: `init_stat_rename_msg` takes 64 bytes of it, and `client_get_username` 63.
-/

namespace Parcel
open ByteStrings

/-- The function `client_get_username`, without the NUL that it appends. -/
def clientGetUsername (username : Vector UInt8 64) : List UInt8 :=
  username.toList.take (strnlen username.toList 63)

/-- The `memset` of the name and the `memcpy` of a line over it. -/
def setUsername (line : List UInt8) : Vector UInt8 64 := readVec 64 line

/-- What a client does that sends a message with its name. -/
inductive NameAct
  | rename (line : List UInt8)
  | text (data : List UInt8)
  | announceConnection
  | cmdExit

namespace NameAct

def message (username : Vector UInt8 64) : NameAct → Msg 64
  | .rename line => initStatRenameMsg (cStr (clientGetUsername username)) (cStr line)
  | .text data => textMsgFromText (cStr (clientGetUsername username)) data
  | .announceConnection => initStatConnMsg .userConnect (cStr (clientGetUsername username))
  | .cmdExit => initStatConnMsg .userDisconnect (cStr (clientGetUsername username))

def next (username : Vector UInt8 64) : NameAct → Vector UInt8 64
  | .rename line => setUsername line
  | _ => username

def isRename : NameAct → Bool
  | .rename _ => true
  | _ => false

def after (username : Vector UInt8 64) (acts : List NameAct) : Vector UInt8 64 :=
  acts.foldl next username

end NameAct

/-- A rename: the line that was accepted, the message with the new name, and the name
of the client. -/
structure Renaming where
  line : List UInt8
  announcement : Msg 64
  username : Vector UInt8 64

/-- The function `cmd_username` on the lines that are typed. An accepted line is taken to have
its NUL; of an empty one, whose buffer may never have been written, the code reads what is
there. -/
def cmdUsername (username : Vector UInt8 64) (typed : List (List UInt8)) : Option Renaming :=
  (xprompt usernameMaxLength typed).map fun r =>
    ⟨r.1, (NameAct.rename r.1).message username, (NameAct.rename r.1).next username⟩

/-- Until the next rename, the user field of every message is the announced name; that
of the rename itself as well. -/
def Renaming.AnnouncedUsed (r : Renaming) : Prop :=
  ∀ acts : List NameAct, (∀ act ∈ acts, act.isRename = false) →
    ∀ act : NameAct, getUser (act.message (NameAct.after r.username acts)) = r.announcement.data

theorem clientGetUsername_eq (username : Vector UInt8 64) :
    clientGetUsername username = (username.toList.take 63).takeWhile (· != 0) :=
  BoundedReads.take_strnlen _ _

theorem clientGetUsername_string (username : Vector UInt8 64) :
    0 ∉ clientGetUsername username ∧ (clientGetUsername username).length ≤ 63 := by
  rw [clientGetUsername_eq]
  constructor
  · intro hmem
    exact absurd (List.mem_takeWhile_imp hmem) (by decide)
  · exact ((List.takeWhile_sublist _).length_le).trans (List.length_take_le _ _)

theorem getUser_message (username : Vector UInt8 64) (act : NameAct) :
    getUser (act.message username) = clientGetUsername username := by
  obtain ⟨hnul, hlen⟩ := clientGetUsername_string username
  cases act with
  | rename line =>
    rw [NameAct.message, initStatRenameMsg, Msg.setData, getUser_withData]
    exact getUser_setUser _ hnul hlen
  | text data => exact getUser_setUser _ hnul hlen
  | announceConnection => exact getUser_setUser _ hnul hlen
  | cmdExit => exact getUser_setUser _ hnul hlen

/-- The name stays, by induction on what the client does. -/
theorem NameAct.after_eq (username : Vector UInt8 64) {acts : List NameAct}
    (h : ∀ act ∈ acts, act.isRename = false) : NameAct.after username acts = username := by
  induction acts with
  | nil => rfl
  | cons act acts ih =>
    have hkept : act.next username = username := by
      cases act with
      | rename line => exact absurd (h _ List.mem_cons_self) (by simp [NameAct.isRename])
      | text data => rfl
      | announceConnection => rfl
      | cmdExit => rfl
    rw [NameAct.after, List.foldl_cons, hkept]
    exact ih fun a ha => h a (List.mem_cons_of_mem _ ha)

theorem initStatRenameMsg_data (currName line : List UInt8) :
    (initStatRenameMsg currName (cStr line)).data = (line.take 64).takeWhile (· != 0) := by
  have hname : (cStr line).take (strnlen (cStr line) 64) =
      (line.take 64).takeWhile (· != 0) := by
    have hpad : ((line ++ [0]).takeWhile (· != 0)) = line.takeWhile (· != 0) := by
      rw [List.takeWhile_append]
      split
      · rename_i hall
        rw [(List.takeWhile_prefix _).eq_of_length hall]
        exact List.append_nil _
      · rfl
    rw [BoundedReads.take_strnlen, cStr, ← List.take_takeWhile, hpad, List.take_takeWhile]
  have hlen : strnlen (cStr line) 64 ≤ (cStr line).length :=
    BoundedReads.strnlen_le_length _ _
  rw [initStatRenameMsg, Msg.setData]
  dsimp only
  rw [setUser_data, Msg.init]
  dsimp only
  -- The message has room for the name alone, so that nothing stays behind it.
  rw [List.length_take, Nat.min_eq_left hlen, List.drop_of_length_le
    (by rw [List.length_replicate]), List.append_nil, hname]

theorem clientGetUsername_setUsername (line : List UInt8) :
    clientGetUsername (setUsername line) = (line.take 63).takeWhile (· != 0) := by
  rw [clientGetUsername_eq, setUsername, takeWhile_readVec line (by decide)]

theorem take_eq_take_iff_length (name : List UInt8) :
    name.take 63 = name.take 64 ↔ (name.take 64).length ≤ 63 := by
  constructor
  · intro h
    rw [← h]
    exact List.length_take_le _ _
  · intro h
    rw [List.length_take] at h
    rw [List.take_of_length_le (by omega), List.take_of_length_le (by omega)]

/-- The announced name is the one that is used, until the next rename, exactly when it
has at most 63 bytes before its NUL. -/
theorem announced_name_used_iff (username : Vector UInt8 64) (typed : List (List UInt8))
    (r : Renaming) (h : cmdUsername username typed = some r) :
    r.AnnouncedUsed ↔ strnlen r.line 64 ≤ 63 := by
  obtain ⟨⟨line, rest⟩, -, rfl⟩ := Option.map_eq_some_iff.mp h
  have hused : clientGetUsername (setUsername line) =
      (initStatRenameMsg (cStr (clientGetUsername username)) (cStr line)).data ↔
        strnlen line 64 ≤ 63 := by
    rw [clientGetUsername_setUsername, initStatRenameMsg_data, strnlen, ← List.take_takeWhile,
      ← List.take_takeWhile]
    exact take_eq_take_iff_length _
  rw [← hused]
  constructor
  · intro hall
    rw [← getUser_message _ .cmdExit]
    exact hall [] (fun _ hact => absurd hact List.not_mem_nil) .cmdExit
  · intro heq acts hacts act
    rw [NameAct.after_eq _ hacts, getUser_message]
    exact heq

/-- The name `ab`, after a line that is too long. -/
theorem announced_name_used_short :
    ∃ r, cmdUsername (Vector.replicate 64 0) [List.replicate 65 0x61, [0x61, 0x62]] = some r ∧
      r.AnnouncedUsed :=
  ⟨_, rfl, (announced_name_used_iff (Vector.replicate 64 0)
    [List.replicate 65 0x61, [0x61, 0x62]] _ rfl).mpr (by decide)⟩

/-- A name of 64 bytes is accepted and announced, and then used without its last byte. -/
theorem longest_name_not_used :
    ∃ r, cmdUsername (Vector.replicate 64 0) [List.replicate 64 0x61] = some r ∧
      ¬r.AnnouncedUsed := by
  refine ⟨_, rfl, ?_⟩
  rw [announced_name_used_iff (Vector.replicate 64 0) [List.replicate 64 0x61] _ rfl]
  decide

end Parcel
