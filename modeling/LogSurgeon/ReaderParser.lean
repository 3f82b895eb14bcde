import LogSurgeon.LogParser
import LogSurgeon.ReaderInput

/-!
# The reader parser

`ReaderParser` reads the log itself, and grows the input buffer when an event
does not fit.

* `Lexer.flipStates` moves the positions of the lexer when the halves of the
  storage change places.
* `retry` is one run of the body of the loop of `parse_next_event`, and
  `parseNextEvent` takes a number of runs.
-/

namespace LogSurgeon

namespace Lexer

/-- A position moves to the same place of the other half. -/
def flipState (half position : Nat) (inSecondHalf : Prop) [Decidable inSecondHalf] : Nat :=
  if inSecondHalf then position - half else toUInt32 (position + half)

/-- The start position at the border of the halves counts for the first one,
the other positions count for the second one. -/
def flipStates (oldStorageSize : Nat) (lexer : Lexer) : Lexer :=
  let half := oldStorageSize / 2
  { lexer with
    matchPos := flipState half lexer.matchPos (lexer.matchPos ≥ half)
    startPos := flipState half lexer.startPos (lexer.startPos > half)
    lastMatchPos := flipState half lexer.lastMatchPos (lexer.lastMatchPos ≥ half) }

/-- The lexer behind a growth of the input buffer. -/
def growStates (oldStorageSize newStorageSize : Nat) (flippedStaticBuffer : Bool)
    (lexer : Lexer) : Lexer :=
  if oldStorageSize < newStorageSize then
    let lexer := if flippedStaticBuffer then lexer.flipStates oldStorageSize else lexer
    if lexer.lastMatchPos = 0 then
      { lexer with lastMatchPos := oldStorageSize, startPos := oldStorageSize }
    else lexer
  else lexer

def increaseBufferCapacity (input : ParserInputBuffer) (lexer : Lexer) :
    Lexer × ParserInputBuffer :=
  let (oldStorageSize, flippedStaticBuffer, input) := input.increaseCapacity
  (lexer.growStates oldStorageSize input.storage.size flippedStaticBuffer, input)

end Lexer

namespace LogParser

def increaseCapacity (p : LogParser) : LogParser :=
  let (lexer, inputBuffer) := p.lexer.increaseBufferCapacity p.inputBuffer
  { p with lexer := lexer, inputBuffer := inputBuffer }

def readIntoInput (p : LogParser) (reader : Reader) : ErrorCode × LogParser × Reader :=
  let (err, inputBuffer, reader) := p.inputBuffer.readIfSafe reader
  (err, { p with inputBuffer := inputBuffer }, reader)

end LogParser

structure ReaderParser where
  logParser : LogParser
  reader : Reader := ⟨[], List.forall_mem_nil _⟩
  done : Bool := false

namespace ReaderParser

def new (t : LexerTables) : ReaderParser := { logParser := .new t }

def resetAndSetReader (t : LexerTables) (reader : Reader) (p : ReaderParser) :
    Except Fault ReaderParser := do
  let logParser ← p.logParser.reset t
  return { logParser := logParser, reader := reader, done := false }

def readIntoInput (p : ReaderParser) : ErrorCode × ReaderParser :=
  let (err, logParser, reader) := p.logParser.readIntoInput p.reader
  (err, { p with logParser := logParser, reader := reader })

/-- A read may be at the end of the file. -/
def IsReadError (err : ErrorCode) : Prop := err ≠ .success ∧ err ≠ .endOfFile

instance (err : ErrorCode) : Decidable (IsReadError err) :=
  inferInstanceAs (Decidable (_ ∧ _))

/-- The buffer grows, and more of the log is read into it. -/
def growAndRead (p : ReaderParser) : ErrorCode × ReaderParser :=
  readIntoInput { p with logParser := p.logParser.increaseCapacity }

/-- The body of the loop: `none` runs it again. -/
def retry (t : LexerTables) (fuel : Nat) (p : ReaderParser) :
    Except Fault (ReaderParser × Option ErrorCode) := do
  match ← p.logParser.parse t fuel with
  | (logParser, .ok action) =>
    return ({ p with logParser := logParser, done := p.done || action == .compressAndFinish },
      some .success)
  | (logParser, .error .bufferOutOfBounds) =>
    let (err, p) := growAndRead { p with logParser := logParser }
    return (p, if IsReadError err then some err else none)
  | (logParser, .error err) => return ({ p with logParser := logParser }, some err)

def retryLoop (t : LexerTables) (fuel : Nat) :
    Nat → ReaderParser → Except Fault (ReaderParser × ErrorCode)
  | 0, _ => .error .outOfSteps
  | retries + 1, p => do
    match ← p.retry t fuel with
    | (p, some err) => return (p, err)
    | (p, none) => p.retryLoop t fuel retries

/-- A call up to its loop: a new event, and a read. -/
def beginEvent (p : ReaderParser) : ErrorCode × ReaderParser :=
  readIntoInput { p with logParser := p.logParser.resetLogEventView }

def parseNextEvent (t : LexerTables) (fuel retries : Nat) (p : ReaderParser) :
    Except Fault (ReaderParser × ErrorCode) :=
  let (err, p) := p.beginEvent
  if IsReadError err then .ok (p, err) else p.retryLoop t fuel retries

end ReaderParser

end LogSurgeon
