import LogSurgeon.Lexer

/-!
# The log parser

`LogParser.parse` groups the tokens of the lexer into log events, as
`LogParser::parse` does.

* The tokens of the event go to the output buffer.  Slot 0 holds the header,
  and without a header the event starts at slot 1.
* A token that starts the next event is kept in `startOfLogMessage`, without
  its newline, which ends the event.
* The metadata of an event (the occurrences of its variables, whether it has
  several lines) is left out, since it is computed from the output buffer and
  parsing does not read it.
-/

namespace LogSurgeon

/-! ## The output buffer -/

structure LogParserOutputBuffer where
  hasHeader : Bool := false
  timestamp : Option (List UInt8) := none
  storage : Buffer Token

namespace LogParserOutputBuffer

def new : LogParserOutputBuffer := { storage := { staticStorage := fun _ => {} } }

def reset (b : LogParserOutputBuffer) : LogParserOutputBuffer :=
  { storage := b.storage.reset }

def pos (b : LogParserOutputBuffer) : Nat := b.storage.pos

def setPos (b : LogParserOutputBuffer) (pos : Nat) : LogParserOutputBuffer :=
  { b with storage := b.storage.setPos pos }

def getToken (b : LogParserOutputBuffer) (pos : Nat) : Token := b.storage.getValue pos

def setToken (b : LogParserOutputBuffer) (pos : Nat) (value : Token) : LogParserOutputBuffer :=
  { b with storage := b.storage.setValue pos value }

def getCurrToken (b : LogParserOutputBuffer) : Token := b.storage.getCurrValue

def setCurrToken (b : LogParserOutputBuffer) (value : Token) : LogParserOutputBuffer :=
  { b with storage := b.storage.setCurrValue value }

instance : Inhabited Token := ⟨{}⟩

/-- The next slot.  At the end of the storage the tokens move to a larger
one. -/
def advanceToNextToken (b : LogParserOutputBuffer) : LogParserOutputBuffer :=
  let storage := b.storage.incrementPos
  if storage.pos = storage.size then
    { b with
      storage := storage.doubleSize.copy storage.getActiveBuffer 0 storage.size 0 }
  else { b with storage := storage }

theorem getToken_setToken (b : LogParserOutputBuffer) (i j : Nat) (value : Token) :
    (b.setToken i value).getToken j = if j = i then value else b.getToken j :=
  Buffer.getValue_setValue b.storage i j value

@[simp] theorem pos_setToken (b : LogParserOutputBuffer) (i : Nat) (value : Token) :
    (b.setToken i value).pos = b.pos := Buffer.pos_setValue b.storage i value

@[simp] theorem pos_setCurrToken (b : LogParserOutputBuffer) (value : Token) :
    (b.setCurrToken value).pos = b.pos := Buffer.pos_setValue b.storage b.pos value

@[simp] theorem hasHeader_setCurrToken (b : LogParserOutputBuffer) (value : Token) :
    (b.setCurrToken value).hasHeader = b.hasHeader := rfl

@[simp] theorem timestamp_setCurrToken (b : LogParserOutputBuffer) (value : Token) :
    (b.setCurrToken value).timestamp = b.timestamp := rfl

@[simp] theorem pos_advanceToNextToken (b : LogParserOutputBuffer) :
    b.advanceToNextToken.pos = b.pos + 1 := by
  unfold advanceToNextToken pos
  dsimp only
  split <;> simp [Buffer.copy, Buffer.doubleSize]

@[simp] theorem hasHeader_advanceToNextToken (b : LogParserOutputBuffer) :
    b.advanceToNextToken.hasHeader = b.hasHeader := by
  unfold advanceToNextToken
  dsimp only
  split <;> rfl

@[simp] theorem timestamp_advanceToNextToken (b : LogParserOutputBuffer) :
    b.advanceToNextToken.timestamp = b.timestamp := by
  unfold advanceToNextToken
  dsimp only
  split <;> rfl

/-- The tokens up to the slot that is left stay. -/
theorem getToken_advanceToNextToken (b : LogParserOutputBuffer) {i : Nat} (h : i ≤ b.pos) :
    b.advanceToNextToken.getToken i = b.getToken i := by
  unfold advanceToNextToken
  dsimp only
  split
  · rename_i hfull
    have hi : i < b.storage.incrementPos.size := by
      rw [← hfull]
      exact Nat.lt_succ_of_le h
    simp [getToken, Buffer.copy, Buffer.getValue, hi]
    rfl
  · rfl

theorem getToken_setCurrToken (b : LogParserOutputBuffer) (i : Nat) (value : Token) :
    (b.setCurrToken value).getToken i = if i = b.pos then value else b.getToken i :=
  Buffer.getValue_setValue b.storage b.pos i value

/-- The slot of the first token of the event. -/
def start (b : LogParserOutputBuffer) : Nat := if b.hasHeader then 0 else 1

/-- The tokens of the event. -/
def tokens (b : LogParserOutputBuffer) : List Token :=
  (List.range' b.start (b.pos - b.start)).map b.getToken

/-- The tokens in the slots that are filled. -/
def filled (b : LogParserOutputBuffer) : List Token := (List.range b.pos).map b.getToken

theorem tokens_eq_drop (b : LogParserOutputBuffer) : b.tokens = b.filled.drop b.start := by
  unfold tokens filled
  rw [← List.map_drop, List.range_eq_range', List.drop_range', Nat.zero_add, Nat.mul_one]

@[simp] theorem length_filled (b : LogParserOutputBuffer) : b.filled.length = b.pos := by
  simp [filled]

/-- A token in the current slot goes behind the others. -/
theorem filled_advanceToNextToken (b : LogParserOutputBuffer) (value : Token) :
    (b.setCurrToken value).advanceToNextToken.filled = b.filled ++ [value] := by
  unfold filled
  rw [pos_advanceToNextToken, pos_setCurrToken, List.range_succ, List.map_append]
  congr 1
  · apply List.map_congr_left
    intro i hi
    have hlt : i < b.pos := List.mem_range.1 hi
    rw [getToken_advanceToNextToken _ (by simpa using hlt.le), getToken_setCurrToken,
      if_neg hlt.ne]
  · rw [List.map_singleton, getToken_advanceToNextToken _ (by simp), getToken_setCurrToken,
      if_pos rfl]

/-- `LogEventView::to_string`. -/
def toString (b : LogParserOutputBuffer) : List UInt8 := b.tokens.flatMap (·.toString)

end LogParserOutputBuffer

/-! ## Parsing -/

inductive ParsingAction where
  | none
  | compress
  | compressAndFinish
deriving DecidableEq, Repr

structure LogParser where
  lexer : Lexer
  inputBuffer : ParserInputBuffer
  hasStartOfLog : Bool := false
  startOfLogMessage : Token := {}
  outputBuffer : LogParserOutputBuffer := .new

namespace LogParser

def new (t : LexerTables) : LogParser where
  lexer := Lexer.new t
  inputBuffer := { storage := { staticStorage := fun _ => 0 } }

/-- The token that starts the next event is not cleared. -/
def reset (t : LexerTables) (p : LogParser) : Except Fault LogParser := do
  let inputBuffer := p.inputBuffer.reset
  let lexer ← p.lexer.reset.prependStartOfFileChar t inputBuffer
  return { p with lexer := lexer, inputBuffer := inputBuffer }

def resetLogEventView (p : LogParser) : LogParser :=
  { p with outputBuffer := p.outputBuffer.reset }

def setInputBuffer (p : LogParser) (storage : Nat → UInt8) (size pos : Nat)
    (finishedReadingInput : Bool) : LogParser :=
  { p with
    inputBuffer := p.inputBuffer.setStorage storage size pos finishedReadingInput }

def getInputPos (p : LogParser) : Nat := p.inputBuffer.storage.pos

def getNextSymbol (t : LexerTables) (fuel : Nat) (p : LogParser) :
    Except Fault (LogParser × ScanResult) := do
  let (s, result) ← Scanner.scan t fuel { lexer := p.lexer, input := p.inputBuffer }
  return ({ p with lexer := s.lexer, inputBuffer := s.input }, result)

/-- The first capture of the list that is named `timestamp` and has a match. -/
def timestampOf (t : LexerTables) (token : Token) :
    List Capture → Except Fault (Option (List UInt8))
  | [] => .ok none
  | capture :: captures =>
    if capture.name = "timestamp" then do
      let (startRegId, endRegId) ← t.getRegIdsFromCapture capture
      let starts ← token.getReversedRegPositions startRegId
      let ends ← token.getReversedRegPositions endRegId
      match starts.head?, ends.head? with
      | some start, some «end» =>
        if start < 0 ∨ «end» < 0 then timestampOf t token captures
        else do
          let tsToken ← token.getSubToken start.toNat «end».toNat
          return some tsToken.toString
      | _, _ => timestampOf t token captures
    else timestampOf t token captures

/-- The first token of an event, when it is a header. -/
def beginWithHeader (t : LexerTables) (p : LogParser) (token : Token) :
    Except Fault LogParser := do
  let outputBuffer := { p.outputBuffer.setToken 0 token with hasHeader := true }
  let timestamp ←
    match t.getCapturesFromRuleId SymbolId.tokenHeader.toNat with
    | some captures => timestampOf t token captures
    | none => .ok none
  return { p with outputBuffer := { outputBuffer with timestamp := timestamp }.setPos 1 }

/-- The first token of an event, when it is no header. -/
def beginWithoutHeader (p : LogParser) (token : Token) : LogParser :=
  { p with
    outputBuffer :=
      ({ p.outputBuffer with hasHeader := false, timestamp := none }.setToken 1 token).setPos 2 }

/-- The newline of the token, as a token of its own. -/
def newlineOf (token : Token) : Token :=
  (token.setEndPos token.getNextPos).setTypeIds cTokenUncaughtStringTypes

/-- The token is a header behind a newline, so the newline is an event of its
own. -/
def beginWithNewline (p : LogParser) (token : Token) : LogParser :=
  let newline := newlineOf token
  { p with
    startOfLogMessage := token.incrementStartPos
    hasStartOfLog := true
    outputBuffer := (p.outputBuffer.setToken 1 newline).setPos 2
    inputBuffer := p.inputBuffer.setConsumedPos newline.startPos }

/-- What the first token of the event does: `some` is the end of the event. -/
def beginEvent (t : LexerTables) (p : LogParser) (token : Token) :
    Except Fault (LogParser × Option ParsingAction) := do
  let typeId ← token.firstTypeId
  if typeId = SymbolId.tokenEnd.toNat then
    return ({ p with outputBuffer := (p.outputBuffer.setToken 0 token).setPos 1 },
      some .compressAndFinish)
  else
    let p ←
      if typeId = SymbolId.tokenHeader.toNat then p.beginWithHeader t token
      else .ok (p.beginWithoutHeader token)
    return ({ p with hasStartOfLog := false }, none)

/-- The token starts the next event. -/
def FoundStartOfNextMessage (p : LogParser) (token : Token) (tokenType : Nat) : Prop :=
  (p.outputBuffer.hasHeader ∧ tokenType = SymbolId.tokenHeader.toNat ∧
      token.getFirstChar = 10) ∨
    (¬ p.outputBuffer.hasHeader ∧ token.getFirstChar = 10 ∧
      tokenType ≠ SymbolId.tokenNewline.toNat)

instance (p : LogParser) (token : Token) (tokenType : Nat) :
    Decidable (p.FoundStartOfNextMessage token tokenType) :=
  inferInstanceAs (Decidable (_ ∨ _))

/-- The newline ends the event, and the rest of the token starts the next
one. -/
def endWithNewlineOf (p : LogParser) (token : Token) : LogParser :=
  { p with
    startOfLogMessage := token.incrementStartPos
    hasStartOfLog := true
    outputBuffer := (p.outputBuffer.setCurrToken (newlineOf token)).advanceToNextToken
    inputBuffer := p.inputBuffer.setConsumedPos token.startPos }

/-- The newline token ends the event. -/
def endWithNewline (p : LogParser) (token : Token) : LogParser :=
  { p with
    outputBuffer := p.outputBuffer.advanceToNextToken
    inputBuffer := p.inputBuffer.setConsumedPos token.endPos }

/-- What another token of the event does: `some` is the end of the event. -/
def addToEvent (p : LogParser) (token : Token) :
    Except Fault (LogParser × Option ParsingAction) := do
  let p := { p with outputBuffer := p.outputBuffer.setCurrToken token }
  let tokenType ← token.firstTypeId
  if tokenType = SymbolId.tokenEnd.toNat then return (p, some .compressAndFinish)
  else if ¬ p.outputBuffer.hasHeader ∧ tokenType = SymbolId.tokenNewline.toNat then
    return (p.endWithNewline token, some .compress)
  else if p.FoundStartOfNextMessage token tokenType then
    return (p.endWithNewlineOf token, some .compress)
  else
    return ({ p with outputBuffer := p.outputBuffer.advanceToNextToken }, none)

/-- The loop over the tokens of the event. -/
def parseLoop (t : LexerTables) (fuel : Nat) :
    Nat → LogParser → Except Fault (LogParser × Except ErrorCode ParsingAction)
  | 0, _ => .error .outOfSteps
  | steps + 1, p => do
    match ← p.getNextSymbol t fuel with
    | (p, .error err) => return (p, .error err)
    | (p, .ok token) =>
      match ← p.addToEvent token with
      | (p, some action) => return (p, .ok action)
      | (p, none) => parseLoop t fuel steps p

/-- The first token of the event.  A header behind a newline is looked for
only in a token that the lexer returns here. -/
def parseFirst (t : LexerTables) (fuel : Nat) (p : LogParser) :
    Except Fault (LogParser × Except ErrorCode (Option ParsingAction)) := do
  if p.hasStartOfLog then
    let (p, action) ← p.beginEvent t p.startOfLogMessage
    return (p, .ok action)
  else
    match ← p.getNextSymbol t fuel with
    | (p, .error err) => return (p, .error err)
    | (p, .ok token) =>
      let typeId ← token.firstTypeId
      if ¬ p.outputBuffer.hasHeader ∧ typeId = SymbolId.tokenHeader.toNat ∧
          token.getFirstChar = 10 then
        return (p.beginWithNewline token, .ok (some .compress))
      else
        let (p, action) ← p.beginEvent t token
        return (p, .ok action)

def parse (t : LexerTables) (fuel : Nat) (p : LogParser) :
    Except Fault (LogParser × Except ErrorCode ParsingAction) := do
  if p.outputBuffer.pos = 0 then
    match ← p.parseFirst t fuel with
    | (p, .error err) => return (p, .error err)
    | (p, .ok (some action)) => return (p, .ok action)
    | (p, .ok none) => p.parseLoop t fuel fuel
  else p.parseLoop t fuel fuel

end LogParser

end LogSurgeon
