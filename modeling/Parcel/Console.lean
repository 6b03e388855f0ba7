import Parcel.Utf8

/-!
# Line editor

The functions of `console.c` that edit a line. The line is a buffer of its allocated
size, with the memory below it; the bytes sent to the terminal are kept with it.
Subtractions of sizes are checked in the editing functions, and wrap in `flush_console`,
where the sequences depend on it.
-/

namespace Parcel
open BoundedReads

/-- What stops an edit: an access outside the buffer, a scan through all of the memory
below it, a difference that wraps, and in `flush_console` a division by zero, digits that
overflow their array, and a loop up to `SIZE_MAX`. -/
inductive Fault
  | write
  | read
  | below
  | wrap
  | divide
  | digits
  | endless
  deriving DecidableEq

structure Cursor where
  row : ℕ
  offset : ℕ
  column : ℕ
  renderedColumn : ℕ
  deriving DecidableEq

/-- The structure `line_t`. The memory below the buffer comes nearest first. -/
structure Line where
  prompt : List UInt8
  promptLen : ℕ
  before : List UInt8
  line : List UInt8
  lineLen : ℕ
  lineSize : ℕ
  cursor : Cursor
  consoleWidth : ℕ
  terminal : List UInt8
  deriving DecidableEq

inductive CursorDirection
  | moveUp
  | moveDown
  | moveRight
  | moveLeft
  | moveHome
  | moveEnd
  | jumpForward
  | jumpBackward
  deriving DecidableEq

def orFault {α : Type} (f : Fault) : Option α → Except Fault α
  | some a => .ok a
  | none => .error f

/-- The function `memmove` inside the buffer. -/
def memmove (mem : List UInt8) (dst src n : ℕ) : Except Fault (List UInt8) := do
  let bytes ← orFault .read (copyAt mem src n)
  orFault .write (writeAt mem dst bytes)

@[irreducible] def wrapSub (a b : ℕ) : ℕ := (a + 2 ^ 64 - b) % 2 ^ 64

/-- The function `xutoa`, whose last NUL has the index `2 * k - 1` for `k` digits. -/
def xutoa (value : ℕ) : List UInt8 :=
  (Nat.digits 10 (value % 2 ^ 32)).reverse.map fun d => UInt8.ofNat (48 + d)

/-- The sequence that `move_cursor_pos` appends; its digits go through 11 bytes. -/
def moveCursorPos (dir : UInt8) (dist : ℕ) : Except Fault (List UInt8) :=
  if 2 * (xutoa dist).length ≤ 11 then
    .ok ([0x1b, 0x5b] ++ xutoa dist ++ [0x41 + dir])
  else
    .error .digits

def moveCursorUnlessZero (dir : UInt8) (dist : ℕ) : Except Fault (List UInt8) :=
  if dist = 0 then .ok [] else moveCursorPos dir dist

namespace Line

def updateRowCount (ctx : Line) (rows : ℕ) : Line :=
  if ctx.cursor.row < rows then { ctx with cursor.row := rows } else ctx

def clearRow : List UInt8 := [0x0d, 0x1b, 0x5b, 0x30, 0x4b]

def rowUp : List UInt8 := [0x1b, 0x5b, 0x31, 0x41]

def atEol (ctx : Line) : Bool := ctx.cursor.offset ≠ 0 ∧ ctx.cursor.offset = ctx.lineSize

def columns (ctx : Line) : ℕ := (ctx.promptLen + ctx.cursor.column) % ctx.consoleWidth

/-- The second half of `flush_console`, after the prompt and the text. -/
def placeCursor (ctx : Line) (rows : ℕ) (escSeq : List UInt8) : Except Fault Line := do
  let wrapped := ctx.atEol ∧ ctx.columns = 0
  let rows := if wrapped then rows + 1 else rows
  let ctx := if wrapped then ctx.updateRowCount rows else ctx
  let newline := if wrapped then [0x0a, 0x0d] else []
  -- Up to the row of the cursor, to the left-hand side and to its column.
  let up ← moveCursorUnlessZero 0 (wrapSub rows
    ((ctx.promptLen + ctx.cursor.column + ctx.consoleWidth) / ctx.consoleWidth))
  let right ← moveCursorUnlessZero 2 ctx.columns
  return { ctx with
    cursor.renderedColumn := ctx.cursor.column
    terminal := ctx.terminal ++ (escSeq ++ newline ++ up ++ [0x0d] ++ right) }

def flushConsole (ctx : Line) : Except Fault Line :=
  if ctx.consoleWidth = 0 then .error .divide else do
    let rows := wrapSub (ctx.promptLen + ctx.lineLen + ctx.consoleWidth) 1 / ctx.consoleWidth
    let ctx := ctx.updateRowCount rows
    let down ← moveCursorUnlessZero 1 (wrapSub ctx.cursor.row
      ((ctx.promptLen + ctx.cursor.renderedColumn + ctx.consoleWidth) / ctx.consoleWidth))
    if ctx.cursor.row = 0 then .error .endless else do
      let clear := (List.replicate (ctx.cursor.row - 1) (clearRow ++ rowUp)).flatten ++ clearRow
      let text ← orFault .read (copyAt ctx.line 0 ctx.lineSize)
      placeCursor ctx rows (down ++ clear ++ ctx.prompt ++ text)

/-- The codepoint that `prev_codepoint` finds before the cursor. -/
def prevAtCursor (ctx : Line) : Except Fault Codepoint :=
  if ctx.cursor.offset ≤ ctx.line.length then
    orFault .below (prevCodepoint ((ctx.line.take ctx.cursor.offset).reverse ++ ctx.before))
  else .error .read

def nextAtCursor (ctx : Line) : Except Fault Codepoint :=
  orFault .read (nextCodepoint (ctx.line.drop ctx.cursor.offset))

/-- The `memmove` of `insert_char`, which makes room for `len` bytes. -/
def makeRoom (ctx : Line) (len : ℕ) : Except Fault (List UInt8) :=
  if ctx.lineSize ≠ ctx.cursor.offset then do
    let tail ← orFault .wrap (subWithin ctx.lineSize ctx.cursor.offset)
    memmove ctx.line (ctx.cursor.offset + len) ctx.cursor.offset tail
  else
    return ctx.line

/-- The buffer that `insert_char` leaves. -/
def insertBytes (ctx : Line) (c : List UInt8) (len : ℕ) : Except Fault (List UInt8) := do
  let line ← ctx.makeRoom len
  let bytes ← orFault .read (copyAt c 0 len)
  let line ← orFault .write (writeAt line ctx.cursor.offset bytes)
  orFault .write (writeAt line (ctx.lineSize + len) [0])

/-- The function `insert_char`: whether the codepoint was inserted, and the line. -/
def insertChar (ctx : Line) (c : List UInt8) (len : ℕ) : Except Fault (Bool × Line) := do
  let cpLen ← orFault .read (codepointWidth c len)
  if cpLen = 0 then return (false, ctx)
  let line ← ctx.insertBytes c len
  let ctx ← flushConsole { ctx with
    line := line
    lineSize := ctx.lineSize + len
    lineLen := ctx.lineLen + cpLen
    cursor.offset := ctx.cursor.offset + len
    cursor.column := ctx.cursor.column + cpLen }
  return (true, ctx)

def moveCursorRight (ctx : Line) : Except Fault (Bool × Line) :=
  if ctx.cursor.offset ≠ ctx.lineSize then do
    let cp ← ctx.nextAtCursor
    return (true, { ctx with
      cursor.offset := ctx.cursor.offset + cp.size
      cursor.column := ctx.cursor.column + cp.len })
  else
    return (false, ctx)

def moveCursorLeft (ctx : Line) : Except Fault (Bool × Line) :=
  if 0 < ctx.cursor.offset then do
    let cp ← ctx.prevAtCursor
    let offset ← orFault .wrap (subWithin ctx.cursor.offset cp.size)
    let column ← orFault .wrap (subWithin ctx.cursor.column cp.len)
    return (true, { ctx with cursor.offset := offset, cursor.column := column })
  else
    return (false, ctx)

/-- A loop of `move_cursor_word_start`, over the codepoints whose first byte has `p`. -/
def skipLeft (p : UInt8 → Bool) : ℕ → Line → Except Fault Line
  | 0, _ => .error .endless
  | fuel + 1, ctx => do
    let cp ← ctx.prevAtCursor
    if p cp.lead then
      let moved ← ctx.moveCursorLeft
      if moved.1 then skipLeft p fuel moved.2 else return moved.2
    else
      return ctx

def moveCursorWordStart (ctx : Line) : Except Fault Line := do
  let ctx ← skipLeft (· == 0x20) (ctx.cursor.offset + 1) ctx
  skipLeft (· != 0x20) (ctx.cursor.offset + 1) ctx

/-- A loop of `move_cursor_word_end`. -/
def skipRight (p : UInt8 → Bool) : ℕ → Line → Except Fault Line
  | 0, _ => .error .endless
  | fuel + 1, ctx =>
    if ctx.cursor.offset < ctx.lineSize then do
      let b ← orFault .read (byteAt ctx.line ctx.cursor.offset)
      if b = 0 ∨ p b = false then return ctx
      let moved ← ctx.moveCursorRight
      skipRight p fuel moved.2
    else
      return ctx

def moveCursorWordEnd (ctx : Line) : Except Fault Line := do
  let ctx ← skipRight (· == 0x20) (ctx.lineSize - ctx.cursor.offset + 1) ctx
  skipRight (· != 0x20) (ctx.lineSize - ctx.cursor.offset + 1) ctx

/-- The `switch` of `update_cursor_pos`. -/
def moveCursor (ctx : Line) : CursorDirection → Except Fault Line
  | .moveUp | .moveDown => return ctx
  | .moveRight => do return (← ctx.moveCursorRight).2
  | .moveLeft => do return (← ctx.moveCursorLeft).2
  | .moveHome => return { ctx with cursor.offset := 0, cursor.column := 0 }
  | .moveEnd => return { ctx with cursor.offset := ctx.lineSize, cursor.column := ctx.lineLen }
  | .jumpForward => ctx.moveCursorWordEnd
  | .jumpBackward => ctx.moveCursorWordStart

def updateCursorPos (ctx : Line) (direction : CursorDirection) : Except Fault Line := do
  flushConsole (← ctx.moveCursor direction)

/-- The end of `delete_char`, when something was deleted. -/
def shrink (ctx : Line) (cp : Codepoint) : Except Fault Line := do
  let lineSize ← orFault .wrap (subWithin ctx.lineSize cp.size)
  let line ← orFault .write (writeAt ctx.line lineSize [0])
  let lineLen ← orFault .wrap (subWithin ctx.lineLen cp.len)
  flushConsole { ctx with line := line, lineSize := lineSize, lineLen := lineLen }

def deleteChar (ctx : Line) (del : Bool) : Except Fault Line :=
  if del = false ∧ 0 < ctx.cursor.offset ∧ 0 < ctx.lineSize then do
    let cp ← ctx.prevAtCursor
    let offset ← orFault .wrap (subWithin ctx.cursor.offset cp.size)
    let tail ← orFault .wrap (subWithin ctx.lineSize ctx.cursor.offset)
    let line ← memmove ctx.line offset ctx.cursor.offset tail
    let column ← orFault .wrap (subWithin ctx.cursor.column cp.len)
    shrink { ctx with line := line, cursor.offset := offset, cursor.column := column } cp
  else if del = true ∧ 0 < ctx.lineSize ∧ ctx.cursor.offset < ctx.lineSize then do
    let cp ← ctx.nextAtCursor
    let rest ← orFault .wrap (subWithin ctx.lineSize ctx.cursor.offset)
    let tail ← orFault .wrap (subWithin rest cp.size)
    let line ← memmove ctx.line ctx.cursor.offset (ctx.cursor.offset + cp.size) tail
    shrink { ctx with line := line } cp
  else
    return ctx

end Line

end Parcel
