import Parcel.Conversation
import Parcel.Rename

/-!
# Commands

The thread of a client that reads lines, sends them or executes them as commands. A command
can be shortened to any beginning that only one command has.
-/

namespace WordTable

variable {α : Type} {table : List (List α)} {word a b : List α} {k : ℕ}

/-- No two words of the table agree in their first `k` letters. -/
def Distinct (k : ℕ) (table : List (List α)) : Prop :=
  table.Pairwise fun a b => a.take k ≠ b.take k

theorem take_eq_of_begins (hlen : k ≤ word.length) (h : word <+: a) : a.take k = word.take k := by
  obtain ⟨rest, rfl⟩ := h
  rw [List.take_append_of_le_length hlen]

theorem not_both (hdistinct : Distinct k (a :: table)) (hlen : k ≤ word.length) (ha : word <+: a)
    (hb : b ∈ table) : ¬word <+: b := by
  intro h
  apply (List.pairwise_cons.mp hdistinct).1 b hb
  rw [take_eq_of_begins hlen ha, take_eq_of_begins hlen h]

theorem Distinct.eq_of_begins (hdistinct : Distinct k table) (hlen : k ≤ word.length)
    (ha : a ∈ table) (hb : b ∈ table) (hbegins : word <+: a) (hbegins' : word <+: b) : a = b := by
  have : Std.Symm fun a b : List α => a.take k ≠ b.take k := ⟨fun _ _ h => h.symm⟩
  by_contra hne
  apply List.Pairwise.forall hdistinct ha hb hne
  rw [take_eq_of_begins hlen hbegins, take_eq_of_begins hlen hbegins']

end WordTable

namespace Parcel
open ByteStrings WordTable Aes Function

/-! ## Parsing -/

/-- The function `strncmp` finds no difference. -/
def sameStart : ℕ → List UInt8 → List UInt8 → Bool
  | 0, _, _ => true
  | n + 1, a, b =>
    if a.headD 0 ≠ b.headD 0 then false
    else if a.headD 0 = 0 then true
    else sameStart n a.tail b.tail

/-- The commands `/list`, `/q`, `/username`, `/encinfo`, `/file`, `/clear` and `/version`. -/
def commandStrings : List (List UInt8) :=
  [[0x2f, 0x6c, 0x69, 0x73, 0x74],
    [0x2f, 0x71],
    [0x2f, 0x75, 0x73, 0x65, 0x72, 0x6e, 0x61, 0x6d, 0x65],
    [0x2f, 0x65, 0x6e, 0x63, 0x69, 0x6e, 0x66, 0x6f],
    [0x2f, 0x66, 0x69, 0x6c, 0x65],
    [0x2f, 0x63, 0x6c, 0x65, 0x61, 0x72],
    [0x2f, 0x76, 0x65, 0x72, 0x73, 0x69, 0x6f, 0x6e]]

/-- The values of `cmd_type_t`; a command has its place in the table. -/
def cmdAmbiguous : ℤ := -1
def cmdNone : ℤ := 0
def cmdList : ℤ := 1
def cmdExit : ℤ := 2
def cmdUsernameType : ℤ := 3
def cmdEncInfo : ℤ := 4
def cmdFile : ℤ := 5
def cmdClear : ℤ := 6
def cmdVersion : ℤ := 7

/-- The loop of `parse_command` from the `i`-th command on. -/
def parseLoop (command : List UInt8) : List (List UInt8) → ℕ → ℤ → ℤ
  | [], _, cmd => cmd
  | s :: strings, i, cmd =>
    if sameStart command.length command s then
      if cmd ≠ 0 then cmdAmbiguous else parseLoop command strings (i + 1) i
    else parseLoop command strings (i + 1) cmd

def parseCommand (command : List UInt8) : ℤ := parseLoop command commandStrings 1 cmdNone

theorem sameStart_iff {command : List UInt8} (hnul : 0 ∉ command) (s : List UInt8) :
    sameStart command.length command s ↔ command <+: s := by
  induction command generalizing s with
  | nil => simp [sameStart]
  | cons c command ih =>
    obtain ⟨hc, hrest⟩ := not_or.mp (mt List.mem_cons.mpr hnul)
    rw [List.length_cons, sameStart, List.headD_cons, List.tail_cons]
    cases s with
    | nil => simp [Ne.symm hc]
    | cons b s =>
      rw [List.headD_cons, List.tail_cons, List.cons_prefix_cons]
      by_cases hb : c = b
      · simp [hb, ← ih hrest s, Ne.symm (hb ▸ hc)]
      · simp [hb]

section

variable {command : List UInt8}

theorem parseLoop_miss {strings : List (List UInt8)} (hnul : 0 ∉ command)
    (h : ∀ s ∈ strings, ¬command <+: s) (i : ℕ) (cmd : ℤ) :
    parseLoop command strings i cmd = cmd := by
  induction strings generalizing i with
  | nil => rfl
  | cons s strings ih =>
    obtain ⟨hs, hrest⟩ := List.forall_mem_cons.mp h
    rw [parseLoop, if_neg (mt (sameStart_iff hnul s).mp hs), ih hrest]

theorem parseLoop_distinct {strings : List (List UInt8)} {k : ℕ} (hnul : 0 ∉ command)
    (hdistinct : Distinct k strings) (hlen : k ≤ command.length) (i : ℕ) :
    parseLoop command strings i 0 =
      match strings.findIdx? (fun s => decide (command <+: s)) with
      | some n => ((i + n : ℕ) : ℤ)
      | none => 0 := by
  induction strings generalizing i with
  | nil => rfl
  | cons s strings ih =>
    rw [parseLoop, List.findIdx?_cons]
    by_cases hs : command <+: s
    · rw [if_pos ((sameStart_iff hnul s).mpr hs), if_neg (not_not.mpr rfl),
        parseLoop_miss hnul fun b hb => not_both hdistinct hlen hs hb]
      simp [hs]
    · rw [if_neg (mt (sameStart_iff hnul s).mp hs), ih (List.pairwise_cons.mp hdistinct).2]
      cases strings.findIdx? (fun s => decide (command <+: s)) with
      | none => simp [hs]
      | some n => simp [hs]; ring

theorem commandStrings_distinct : Distinct 2 commandStrings := by
  unfold Distinct
  decide

end

theorem parseCommand_slash (rest : List UInt8) (hnul : 0 ∉ rest) :
    parseCommand (0x2f :: rest) =
      if rest = [] then cmdAmbiguous
      else
        match commandStrings.findIdx? (fun s => decide (0x2f :: rest <+: s)) with
        | some n => ((n + 1 : ℕ) : ℤ)
        | none => cmdNone := by
  have hslash : 0 ∉ 0x2f :: rest := by simpa using hnul
  cases rest with
  | nil => decide
  | cons c rest =>
    rw [if_neg (List.cons_ne_nil c rest), parseCommand, cmdNone,
      parseLoop_distinct hslash commandStrings_distinct (by simp)]
    simp only [Nat.add_comm 1]

/-- The slash alone begins every command and no other line begins two. Behind it a line is
the command that it begins, if there is one. -/
theorem parseCommand_eq (rest : List UInt8) (hnul : 0 ∉ rest) :
    parseCommand (0x2f :: rest) =
      (if rest = [] then cmdAmbiguous
      else
        match commandStrings.findIdx? (fun s => decide (0x2f :: rest <+: s)) with
        | some n => ((n + 1 : ℕ) : ℤ)
        | none => cmdNone) ∧
    ∀ a ∈ commandStrings, ∀ b ∈ commandStrings,
      0x2f :: rest <+: a → 0x2f :: rest <+: b → rest = [] ∨ a = b := by
  refine ⟨parseCommand_slash rest hnul, fun a ha b hb hbegins hbegins' => ?_⟩
  by_cases hrest : rest = []
  · exact Or.inl hrest
  · have hlen : 2 ≤ (0x2f :: rest).length := by
      have := List.length_pos_of_ne_nil hrest
      rw [List.length_cons]
      omega
    exact Or.inr (commandStrings_distinct.eq_of_begins hlen ha hb hbegins hbegins')

/-- The line `/fi`. -/
theorem parseCommand_eq_file : parseCommand [0x2f, 0x66, 0x69] = cmdFile :=
  (parseCommand_eq [0x66, 0x69] (by decide)).1.trans (by decide)

theorem parseLoop_range (command : List UInt8) (strings : List (List UInt8)) (i : ℕ) (cmd : ℤ) :
    parseLoop command strings i cmd = cmdAmbiguous ∨ parseLoop command strings i cmd = cmd ∨
      ∃ n < strings.length, parseLoop command strings i cmd = ((i + n : ℕ) : ℤ) := by
  induction strings generalizing i cmd with
  | nil => exact Or.inr (Or.inl rfl)
  | cons s strings ih =>
    rw [parseLoop]
    split
    · split
      · exact Or.inl rfl
      · obtain h | h | ⟨n, hn, h⟩ := ih (i + 1) i
        · exact Or.inl h
        · exact Or.inr (Or.inr ⟨0, Nat.succ_pos _, h⟩)
        · exact Or.inr (Or.inr ⟨n + 1, Nat.succ_lt_succ hn, by rw [h]; congr 1; omega⟩)
    · obtain h | h | ⟨n, hn, h⟩ := ih (i + 1) cmd
      · exact Or.inl h
      · exact Or.inr (Or.inl h)
      · exact Or.inr (Or.inr ⟨n + 1, Nat.succ_lt_succ hn, by rw [h]; congr 1; omega⟩)

theorem parseCommand_range (command : List UInt8) :
    cmdAmbiguous ≤ parseCommand command ∧ parseCommand command ≤ cmdVersion := by
  have hlength : commandStrings.length = 7 := rfl
  rw [parseCommand, cmdVersion, cmdAmbiguous]
  obtain h | h | ⟨n, hn, h⟩ := parseLoop_range command commandStrings 1 cmdNone
  · rw [h]
    decide
  · rw [h]
    decide
  · rw [h]
    omega

/-! ## Execution -/

inductive CommandOutput
  | list
  | ambiguous
  | keys (keys : Keys)
  | clear
  | version
  | notFound (command : List UInt8)
  | fileNotFound (path : List UInt8)

/-- A message that was sent whole, with the name of the client then. -/
structure Utterance where
  user : List UInt8
  message : Sent
  wire : List UInt8

/-- The thread has returned, waits for the answer to a prompt, or has read from a null
pointer. -/
inductive SendEnd
  | returned (code : ℤ)
  | waits
  | crashed
  deriving DecidableEq

/-- The state of `send_thread`, with what it has sent and printed. -/
structure Sender where
  username : Vector UInt8 64
  keepAlive : Bool
  shutdown : Bool
  said : List Utterance
  shown : List CommandOutput
  ended : Option SendEnd

/-- A line, what is typed at the prompt of a command, what the calls give, and whether
`recv_thread` finds the connection closed behind the check of `keep_alive`. A line has its NUL,
also an empty one. -/
structure SendPass where
  line : List UInt8
  answers : List (List UInt8)
  openable : Bool
  disk : DiskFile
  iv : Option Block
  keys : Keys
  delivered : Bool
  closes : Bool

def filePathMaxLength : ℕ := 4096

namespace Sender

variable (s : Sender) (p : SendPass)

def print (output : CommandOutput) : Sender := { s with shown := s.shown ++ [output] }

/-- The function `transmit_wire` on a message with the name of the client; `wire_get_length`
reads the wire that could not be built. -/
def transmit (message : Sent) : Except SendEnd Sender :=
  match message.wire (clientGetUsername s.username) p.iv with
  | none => .error .crashed
  | some w =>
    if p.delivered then
      .ok { s with said := s.said ++
        [⟨clientGetUsername s.username, message, (encryptWire w p.keys.session).bytes⟩] }
    else .ok s

def cmdUsername : Except SendEnd Sender :=
  match xprompt usernameMaxLength p.answers with
  | none => .error .waits
  | some (line, _) => do
    let s ← s.transmit p (.rename line)
    return { s with username := setUsername line }

def cmdSendFile : Except SendEnd Sender :=
  match xprompt filePathMaxLength p.answers with
  | none => .error .waits
  | some (path, _) =>
    if !p.openable then return s.print (.fileNotFound path)
    else s.transmit p (.file path p.disk)

def cmdExit : Except SendEnd Sender := do
  let s ← s.transmit p (.conn .userDisconnect)
  return { s with shutdown := true, keepAlive := false }

/-- The function `exec_cmd`; a command ends at its NUL. -/
def execCmd (message : List UInt8) : Except SendEnd Sender :=
  let cmd := parseCommand (message.takeWhile (· != 0))
  if cmd = cmdAmbiguous then return s.print .ambiguous
  else if cmd = cmdList then return s.print .list
  else if cmd = cmdClear then return s.print .clear
  else if cmd = cmdVersion then return s.print .version
  else if cmd = cmdEncInfo then return s.print (.keys p.keys)
  else if cmd = Parcel.cmdExit then s.cmdExit p
  else if cmd = cmdUsernameType then s.cmdUsername p
  else if cmd = cmdFile then s.cmdSendFile p
  else if cmd = cmdNone then return s
  else return s.print (.notFound message)

def isCmd (message : List UInt8) : Bool := message.headD 0 = 0x2f

/-- A pass of the loop of `send_thread`. -/
def pass : Sender :=
  if s.ended ≠ none then s
  else if !s.keepAlive then { s with ended := some (.returned 1) }
  else
    match if isCmd p.line then s.execCmd p p.line else s.transmit p (.text p.line) with
    | .error ended => { s with ended := some ended }
    | .ok s => { s with keepAlive := s.keepAlive && !p.closes }

end Sender

/-- A pass of the loop, or that `recv_thread` finds the connection closed while the thread waits
for a line. -/
inductive SendEvent
  | pass (p : SendPass)
  | closed

namespace Sender

def step (s : Sender) : SendEvent → Sender
  | .pass p => s.pass p
  | .closed => { s with keepAlive := false }

def run (s : Sender) (events : List SendEvent) : Sender := events.foldl step s

def start (username : Vector UInt8 64) : Sender := ⟨username, true, false, [], [], none⟩

end Sender

inductive Request
  | say (message : Sent)
  | print (output : CommandOutput)
  | nothing
  | wait

namespace SendPass

variable (p : SendPass)

def answer (max : ℕ) : Option (List UInt8) := p.answers.find? fun line => line.length ≤ max

def command : List UInt8 := p.line.takeWhile (· != 0)

/-- A line behind a slash asks for the command that it begins. -/
def request : Request :=
  if Sender.isCmd p.line = false then .say (.text p.line)
  else if p.command = [0x2f] then .print .ambiguous
  else
    match commandStrings.findIdx? fun s => decide (p.command <+: s) with
    | some 0 => .print .list
    | some 1 => .say (.conn .userDisconnect)
    | some 2 => (p.answer 64).elim .wait fun line => .say (.rename line)
    | some 3 => .print (.keys p.keys)
    | some 4 => (p.answer 4096).elim .wait fun path =>
      if p.openable then .say (.file path p.disk) else .print (.fileNotFound path)
    | some 5 => .print .clear
    | some 6 => .print .version
    | _ => .nothing

/-- What the thread does not come back from. -/
def ends (user : List UInt8) : Option SendEnd :=
  match p.request with
  | .say message => if (message.wire user p.iv).isNone then some .crashed else none
  | .wait => some .waits
  | _ => none

def leaves : Bool :=
  match p.request with
  | .say (.conn .userDisconnect) => true
  | _ => false

def renames : Option (List UInt8) :=
  match p.request with
  | .say (.rename line) => some line
  | _ => none

def nameAfter (user : List UInt8) : List UInt8 :=
  p.renames.elim user fun line => (line.take 63).takeWhile (· != 0)

def goesOn (user : List UInt8) : Bool := (p.ends user).isNone && !p.leaves && !p.closes

end SendPass

/-- The passes that are carried out, each with the name of the client then. -/
def acted : List UInt8 → List SendEvent → List (List UInt8 × SendPass)
  | _, [] => []
  | _, .closed :: _ => []
  | user, .pass p :: events =>
    (user, p) :: if p.goesOn user then acted (p.nameAfter user) events else []

/-! ## Steps -/

namespace Sender

section

variable (s : Sender) (p : SendPass)

def after : Sent → Sender
  | .rename line => { s with username := setUsername line }
  | .conn .userDisconnect => { s with shutdown := true, keepAlive := false }
  | _ => s

theorem after_eq {message : Sent} (hrename : ∀ line, message ≠ .rename line)
    (hconn : message ≠ .conn .userDisconnect) (s : Sender) : s.after message = s := by
  cases message with
  | text t => rfl
  | conn type => cases type with
    | userDisconnect => exact absurd rfl hconn
    | userConnect => rfl
    | userRename => rfl
  | rename line => exact absurd rfl (hrename line)
  | file path disk => rfl

end

end Sender

namespace Sender

section

variable (s : Sender) (p : SendPass)

end

end Sender

section

variable {user : List UInt8} {p : SendPass}

end

namespace Sender

section

variable {s : Sender} {p : SendPass} {ended : SendEnd}

end

/-! ## Runs -/

def acts (s : Sender) (events : List SendEvent) : List (List UInt8 × SendPass) :=
  acted (clientGetUsername s.username) events

section

variable {s : Sender} {events : List SendEvent}

end

end Sender

section

variable {user : List UInt8} {p : SendPass}

end

namespace Sender

end Sender

end Parcel
