import Parcel.FileMessages

/-!
# The screen of a client

What a client prints for the texts it sends and for the messages it receives. The name
of the sender is printed as a heading when it differs from the last one or when some
time has passed. Own texts have the sender `::self::`, which is a name that another
user can take, and a file that cannot be saved leaves its heading behind.
-/

namespace HeadedLog

variable {α κ : Type} (heading belongs : α → Option κ)

def current (log : List α) : Option κ := log.reverse.findSome? heading

/-- The last heading before each entry is the one that it belongs to. -/
def Attributed (log : List α) : Prop :=
  ∀ before a after, log = before ++ a :: after →
    ∀ k, belongs a = some k → current heading before = some k

variable {heading belongs} {log : List α} {a : α}

theorem current_heading {k : κ} (h : heading a = some k) :
    current heading (log ++ [a]) = some k := by
  rw [current, List.reverse_append, List.reverse_singleton, List.singleton_append,
    List.findSome?_cons_of_isSome (by rw [h]; rfl), h]

theorem current_plain (h : heading a = none) :
    current heading (log ++ [a]) = current heading log := by
  rw [current, List.reverse_append, List.reverse_singleton, List.singleton_append,
    List.findSome?_cons_of_isNone (by rw [h]; rfl), current]

theorem attributed_nil : Attributed heading belongs [] := by
  intro before a after h
  exact absurd h (by simp)

theorem Attributed.append (h : Attributed heading belongs log)
    (ha : ∀ k, belongs a = some k → current heading log = some k) :
    Attributed heading belongs (log ++ [a]) := by
  intro before b after hlog k hk
  rcases List.eq_nil_or_concat after with rfl | ⟨init, last, rfl⟩
  · obtain ⟨rfl, hb⟩ := List.append_inj' hlog rfl
    obtain rfl : a = b := List.singleton_inj.mp hb
    exact ha k hk
  · rw [List.concat_eq_append, ← List.cons_append, ← List.append_assoc] at hlog
    obtain ⟨rfl, -⟩ := List.append_inj' hlog rfl
    exact h before b init rfl k hk

theorem Attributed.append_none (h : Attributed heading belongs log) (ha : belongs a = none) :
    Attributed heading belongs (log ++ [a]) := by
  apply h.append
  intro k hk
  rw [ha] at hk
  cases hk

end HeadedLog

namespace Parcel
open ByteStrings HeadedLog

inductive Heading
  | you
  | user (name : List UInt8)
  | file (name : List UInt8)
  deriving DecidableEq

/-- One `fprintf` of the client, with the time that a heading shows. -/
inductive Printed
  | heading (h : Heading) (stamp : Option ℤ)
  | own (msg : List UInt8)
  | text (user : List UInt8) (body : Option (List UInt8))
  | stat (shown : ShownStat)
  | file (filename : List UInt8) (kb : ℕ)
  | output (command : List UInt8)
  deriving DecidableEq

def Printed.heading? : Printed → Option Heading
  | .heading h _ => some h
  | _ => none

def Printed.belongs? : Printed → Option Heading
  | .own _ => some .you
  | .text user _ => some (.user user)
  | _ => none

/-- The variables of `proc-type.c` and everything printed so far. -/
structure Ui where
  lastSender : List UInt8
  lastMessageTime : ℤ
  screen : List Printed
  deriving DecidableEq

/-- The constant `SELF_SENDER`, the string `::self::`. -/
def selfSender : List UInt8 := [0x3a, 0x3a, 0x73, 0x65, 0x6c, 0x66, 0x3a, 0x3a]

def timestampThreshold : ℤ := 300

/-- The readings of `time` while a message is shown. -/
structure Clock where
  sender : ℤ
  heading : ℤ
  update : ℤ

namespace Ui

def init : Ui := ⟨[], 0, []⟩

def print (ui : Ui) (p : Printed) : Ui := { ui with screen := ui.screen ++ [p] }

def resetLastSender (ui : Ui) : Ui := { ui with lastSender := [], lastMessageTime := 0 }

def needTimestamp (ui : Ui) (now : ℤ) : Bool :=
  let past := decide (0 < ui.lastMessageTime ∧ timestampThreshold ≤ now - ui.lastMessageTime)
  decide (ui.lastMessageTime = 0) || past

/-- The strings are compared up to `USERNAME_MAX_LENGTH`. -/
def needSender (ui : Ui) (username : List UInt8) (now : ℤ) : Bool :=
  decide (username.take 64 ≠ ui.lastSender.take 64) || ui.needTimestamp now

def updateLastSender (ui : Ui) (username : List UInt8) (now : ℤ) : Ui :=
  { ui with lastSender := username.take 63, lastMessageTime := now }

def timestamp (ui : Ui) (now : ℤ) : Option ℤ := if ui.needTimestamp now then some now else none

/-- A pass of `send_thread` with what was typed; commands start with a slash. -/
def sendThread (ui : Ui) (msg : List UInt8) (sent : Bool) (clock : Clock) : Ui :=
  if msg.head? = some 0x2f then (ui.print (.output msg)).resetLastSender
  else if sent then
    let ui := if ui.needSender selfSender clock.sender then ui.print (.heading .you none) else ui
    (ui.print (.own msg)).updateLastSender selfSender clock.update
  else ui

def procText (ui : Ui) (data : List UInt8) (clock : Clock) : Ui :=
  match Parcel.procText data with
  | .error _ => ui
  | .ok shown =>
    let ui :=
      if ui.needSender shown.user clock.sender then
        ui.print (.heading (.user shown.user) (ui.timestamp clock.heading))
      else ui
    (ui.print (.text shown.user shown.body)).updateLastSender shown.user clock.update

/-- The variables are reset before the message is looked at. -/
def procStat (ui : Ui) (data : List UInt8) : Ui :=
  match Parcel.procStat data with
  | .error _ => ui.resetLastSender
  | .ok shown => ui.resetLastSender.print (.stat shown)

/-- The heading and the name of the file, which are printed before it is written. -/
def showFile (ui : Ui) (fm : FileMsg) (clock : Clock) : Ui :=
  (ui.print (.heading (.file (fileMsgGetUser fm)) (ui.timestamp clock.heading))).print
    (.file (fileMsgGetFilename fm) (fileMsgGetPayloadLength fm >>> 10))

def showSaved (ui : Ui) (fm : FileMsg) (clock : Clock) : Except FileError ShownFile → Ui
  | .error .emptyFilename => ui
  | .error .emptyUser => ui
  | .error .writing => ui.showFile fm clock
  | .ok _ => (ui.showFile fm clock).resetLastSender

def procFile (ui : Ui) (data : List UInt8) (env : Saving) (clock : Clock) : Ui :=
  ui.showSaved (Msg.ofBytes 4170 data) clock (Parcel.procFile env data)

end Ui

inductive ClientEvent
  | typed (msg : List UInt8) (sent : Bool) (clock : Clock)
  | text (data : List UInt8) (clock : Clock)
  | stat (data : List UInt8)
  | file (data : List UInt8) (env : Saving) (clock : Clock)

def Ui.step (ui : Ui) : ClientEvent → Ui
  | .typed msg sent clock => ui.sendThread msg sent clock
  | .text data clock => ui.procText data clock
  | .stat data => ui.procStat data
  | .file data env clock => ui.procFile data env clock

def Ui.run (ui : Ui) (events : List ClientEvent) : Ui := events.foldl Ui.step ui

def ClientEvent.NameFits : ClientEvent → Prop
  | .text data _ => (getUser (Msg.ofBytes 64 data)).length ≤ 63
  | _ => True

/-- A text is not from a user with the name of own texts, and a file that is shown
is saved unless the variables are reset as they are. -/
def Ui.Tells (ui : Ui) : ClientEvent → Prop
  | .text data _ => getUser (Msg.ofBytes 64 data) ≠ selfSender
  | .file data env _ => Parcel.procFile env data = .error .writing → ui.lastMessageTime = 0
  | _ => True

/-- Every event of a run does, in the state it is handled in. -/
def Ui.TellsAll (ui : Ui) : List ClientEvent → Prop
  | [] => True
  | e :: events => ui.Tells e ∧ (ui.step e).TellsAll events

/-- Texts are printed below the heading of their sender. -/
def Ui.UnderSender (ui : Ui) : Prop :=
  Attributed Printed.heading? Printed.belongs? ui.screen

def headingOf (sender : List UInt8) : Heading :=
  if sender = selfSender then .you else .user sender

namespace Ui

variable {ui : Ui}

structure Consistent (ui : Ui) : Prop where
  under : ui.UnderSender
  short : ui.lastSender.length ≤ 63
  current : ui.lastMessageTime ≠ 0 →
    HeadedLog.current Printed.heading? ui.screen = some (headingOf ui.lastSender)

theorem UnderSender.print (h : ui.UnderSender) {p : Printed} (hbelongs : p.belongs? = none) :
    (ui.print p).UnderSender :=
  h.append_none hbelongs

theorem Consistent.reset (h : ui.UnderSender) : ui.resetLastSender.Consistent :=
  ⟨h, Nat.zero_le _, fun hzero => absurd rfl hzero⟩

theorem Consistent.print_plain (h : ui.Consistent) {p : Printed} (hbelongs : p.belongs? = none)
    (hheading : p.heading? = none) : (ui.print p).Consistent := by
  refine ⟨h.under.print hbelongs, h.short, ?_⟩
  intro htime
  rw [print, current_plain hheading]
  exact h.current htime

theorem Consistent.same_sender (h : ui.Consistent) {sender : List UInt8}
    (hlen : sender.length ≤ 63) {now : ℤ} (hneed : ui.needSender sender now = false) :
    HeadedLog.current Printed.heading? ui.screen = some (headingOf sender) := by
  rw [needSender, Bool.or_eq_false_iff, decide_eq_false_iff_not, not_not, needTimestamp,
    Bool.or_eq_false_iff, decide_eq_false_iff_not] at hneed
  obtain ⟨hsame, htime, -⟩ := hneed
  have hshort := h.short
  rw [List.take_of_length_le (by omega), List.take_of_length_le (by omega)] at hsame
  rw [hsame]
  exact h.current htime

theorem Consistent.show (h : ui.Consistent) {sender : List UInt8} (hlen : sender.length ≤ 63)
    {head : Heading} (hhead : headingOf sender = head) {line : Printed}
    (hline : line.belongs? = some head) (hplain : line.heading? = none) (stamp : Option ℤ)
    (now update : ℤ) :
    (((if ui.needSender sender now then ui.print (.heading head stamp) else ui).print
      line).updateLastSender sender update).Consistent := by
  generalize hshown : (if ui.needSender sender now then ui.print (.heading head stamp) else ui) =
    shown
  have hcurrent : shown.UnderSender ∧
      HeadedLog.current Printed.heading? shown.screen = some head := by
    rw [← hshown]
    cases hneed : ui.needSender sender now with
    | false =>
      rw [← hhead]
      exact ⟨h.under, h.same_sender hlen hneed⟩
    | true => exact ⟨h.under.print rfl, current_heading rfl⟩
  refine ⟨?_, ?_, ?_⟩
  · apply hcurrent.1.append
    intro k hk
    rw [← hline.symm.trans hk]
    exact hcurrent.2
  · rw [updateLastSender, List.length_take]
    omega
  · intro _
    rw [updateLastSender, print, current_plain hplain, List.take_of_length_le hlen, hhead]
    exact hcurrent.2

theorem sendThread_consistent (h : ui.Consistent) (msg : List UInt8) (sent : Bool)
    (clock : Clock) : (ui.sendThread msg sent clock).Consistent := by
  rw [sendThread]
  split
  · exact Consistent.reset (h.under.print rfl)
  · split
    · exact h.show (by decide) rfl rfl rfl none clock.sender clock.update
    · exact h

theorem procText_user {data : List UInt8} {shown : ShownText}
    (h : Parcel.procText data = .ok shown) : shown.user = getUser (Msg.ofBytes 64 data) := by
  rw [Parcel.procText] at h
  split at h
  · cases h
  · split at h
    · cases h
    · cases h
      rfl

theorem procText_consistent (h : ui.Consistent) {data : List UInt8} {clock : Clock}
    (hfits : (ClientEvent.text data clock).NameFits) (htells : ui.Tells (.text data clock)) :
    (ui.procText data clock).Consistent := by
  rw [procText]
  split
  next => exact h
  next shown hshown =>
    have huser := procText_user hshown
    have hself : shown.user ≠ selfSender := by
      rw [huser]
      exact htells
    have hlen : shown.user.length ≤ 63 := by
      rw [huser]
      exact hfits
    exact h.show hlen (if_neg hself) rfl rfl _ _ _

theorem procStat_consistent (h : ui.Consistent) (data : List UInt8) :
    (ui.procStat data).Consistent := by
  rw [procStat]
  split
  · exact Consistent.reset h.under
  · exact (Consistent.reset h.under).print_plain rfl rfl

theorem UnderSender.showFile (h : ui.UnderSender) (fm : FileMsg) (clock : Clock) :
    (ui.showFile fm clock).UnderSender :=
  (h.print rfl).print rfl

theorem procFile_consistent (h : ui.Consistent) {data : List UInt8} {env : Saving} {clock : Clock}
    (htells : ui.Tells (.file data env clock)) : (ui.procFile data env clock).Consistent := by
  rw [procFile]
  generalize hproc : Parcel.procFile env data = result
  cases result with
  | error e =>
    cases e with
    | emptyFilename => exact h
    | emptyUser => exact h
    | writing =>
      -- the next text is printed with a heading because the time is still zero
      refine ⟨h.under.showFile _ clock, h.short, ?_⟩
      intro htime
      exact absurd (htells hproc) htime
  | ok _ => exact Consistent.reset (h.under.showFile _ clock)

theorem step_consistent (h : ui.Consistent) {e : ClientEvent} (hfits : e.NameFits)
    (htells : ui.Tells e) : (ui.step e).Consistent := by
  cases e with
  | typed msg sent clock => exact sendThread_consistent h msg sent clock
  | text data clock => exact procText_consistent h hfits htells
  | stat data => exact procStat_consistent h data
  | file data env clock => exact procFile_consistent h htells

theorem run_consistent (h : ui.Consistent) {events : List ClientEvent}
    (hfits : ∀ e ∈ events, e.NameFits) (htells : ui.TellsAll events) :
    (ui.run events).Consistent := by
  induction events generalizing ui with
  | nil => exact h
  | cons e events ih =>
    have hstep := step_consistent h (hfits e List.mem_cons_self) htells.1
    exact ih hstep (fun e he => hfits e (List.mem_cons_of_mem _ he)) htells.2

theorem init_consistent : init.Consistent :=
  ⟨attributed_nil, Nat.zero_le _, fun hzero => absurd rfl hzero⟩

end Ui

/-- In every run of such events each text stands below the heading of its sender: a
received text below the name that `proc_text` printed for it, an own text below `you`. -/
theorem texts_under_sender (events : List ClientEvent) (hfits : ∀ e ∈ events, e.NameFits)
    (htells : Ui.init.TellsAll events) : (Ui.init.run events).UnderSender :=
  (Ui.run_consistent Ui.init_consistent hfits htells).under

def textData (name body : List UInt8) : List UInt8 :=
  0 :: (List.replicate 8 0 ++ (name ++ (List.replicate (64 - name.length) 0 ++ (body ++ [0]))))

/-- An own text, then a text of a user within the same second. -/
def answered (name : List UInt8) : List ClientEvent :=
  [.typed [104] true ⟨1000, 1000, 1000⟩, .text (textData name [120]) ⟨1000, 1000, 1000⟩]

/-- The user `b` answers. -/
theorem texts_under_sender_answered :
    ((∀ e ∈ answered [98], e.NameFits) ∧ Ui.init.TellsAll (answered [98])) ∧
      (Ui.init.run (answered [98])).UnderSender := by
  have hfits : ∀ e ∈ answered [98], e.NameFits := by
    intro e he
    rcases List.mem_pair.mp he with rfl | rfl
    · trivial
    · change (getUser (Msg.ofBytes 64 (textData [98] [120]))).length ≤ 63
      decide +kernel
  have htells : Ui.init.TellsAll (answered [98]) := by
    refine ⟨trivial, ?_, trivial⟩
    change getUser (Msg.ofBytes 64 (textData [98] [120])) ≠ selfSender
    decide +kernel
  exact ⟨⟨hfits, htells⟩, texts_under_sender (answered [98]) hfits htells⟩

/-- The user `::self::` answers: the text is printed below `you`. -/
theorem self_sender_under_you :
    (∀ e ∈ answered selfSender, e.NameFits) ∧
      (Ui.init.run (answered selfSender)).screen =
        [.heading .you none, .own [104], .text selfSender (some [120])] ∧
      ¬(Ui.init.run (answered selfSender)).UnderSender := by
  have hscreen : (Ui.init.run (answered selfSender)).screen =
      [.heading .you none, .own [104], .text selfSender (some [120])] := by
    decide +kernel
  refine ⟨?_, hscreen, ?_⟩
  · intro e he
    rcases List.mem_pair.mp he with rfl | rfl
    · trivial
    · change (getUser (Msg.ofBytes 64 (textData selfSender [120]))).length ≤ 63
      decide +kernel
  · intro h
    have hlast := h [.heading .you none, .own [104]] (.text selfSender (some [120])) [] hscreen
      (.user selfSender) rfl
    exact absurd hlast (by decide)

end Parcel
