import LogSurgeon.LogParser

/-!
# The buffer parser

`parseNextEvent` is the `BufferParser::parse_next_event` of
`BufferParser.cpp`, on a buffer that the caller holds.

`parseEvents` calls it again and again on one buffer, each time with the offset
that the call before left, until a call fails or the input is done.
-/

namespace LogSurgeon

structure BufferParser where
  logParser : LogParser
  done : Bool := false

/-- A buffer of the caller. -/
structure UserBuffer where
  bytes : Nat → UInt8
  size : Nat

namespace UserBuffer

/-- The contents of the buffer. -/
def text (buf : UserBuffer) : List UInt8 := subspan buf.bytes 0 buf.size

/-- The buffer from an offset on. -/
def drop (buf : UserBuffer) (k : Nat) : UserBuffer where
  bytes := fun i => buf.bytes (k + i)
  size := buf.size - k

end UserBuffer

namespace BufferParser

def new (t : LexerTables) : BufferParser := { logParser := .new t }

def reset (t : LexerTables) (p : BufferParser) : Except Fault BufferParser := do
  let logParser ← p.logParser.reset t
  return { logParser := logParser, done := false }

/-- What a call leaves: the parser, the error code and the offset. -/
structure Call where
  parser : BufferParser
  errorCode : ErrorCode
  offset : Nat

namespace Call

/-- The event of the call. -/
def event (call : Call) : LogParserOutputBuffer := call.parser.logParser.outputBuffer

end Call

def parseNextEvent (t : LexerTables) (fuel : Nat) (p : BufferParser) (buf : UserBuffer)
    (offset : Nat) (finishedReadingInput : Bool) : Except Fault Call := do
  let logParser := p.logParser.resetLogEventView.setInputBuffer buf.bytes
    (toUInt32 buf.size) (toUInt32 offset) finishedReadingInput
  match ← logParser.parse t fuel with
  | (logParser, .error err) =>
    let offset :=
      if logParser.outputBuffer.pos ≠ 0 then (logParser.outputBuffer.getToken 0).startPos
      else offset
    let p ← reset t { logParser := logParser, done := p.done }
    return { parser := p, errorCode := err, offset := offset }
  | (logParser, .ok action) =>
    return {
      parser :=
        { logParser := logParser, done := p.done || action == .compressAndFinish }
      errorCode := .success
      offset := logParser.getInputPos }

/-- At most `count` calls, each behind a successful one that was not the
last. -/
def parseEvents (t : LexerTables) (fuel : Nat) (buf : UserBuffer)
    (finishedReadingInput : Bool) : Nat → BufferParser → Nat → Except Fault (List Call)
  | 0, _, _ => .ok []
  | count + 1, p, offset => do
    let call ← p.parseNextEvent t fuel buf offset finishedReadingInput
    if call.errorCode = .success ∧ ¬ call.parser.done then
      let calls ← parseEvents t fuel buf finishedReadingInput count call.parser call.offset
      return call :: calls
    else return [call]

end BufferParser

end LogSurgeon
