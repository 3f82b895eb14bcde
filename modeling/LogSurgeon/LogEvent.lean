import LogSurgeon.LogParser

/-!
# Log events

`LogEventView` is what a parser shows of an event, and `deepCopy` makes the
`LogEvent` that owns its bytes.  They follow `LogEvent.cpp`, and
`generateLogEventViewMetadata` and `parseAndGenerateMetadata` follow
`LogParser.cpp`.

* The occurrences of a variable are a function of its id.
* `idSymbol` gives the name of every id.
* A copied event lies in a buffer of its own, and `behind` gives the bytes that
  lie behind this buffer in memory.
-/

namespace LogSurgeon

/-! ## Captures of a token -/

/-- A match of a capture.  It is a leaf if no match lies inside it. -/
structure CaptureMatch where
  capture : Capture
  startPos : Nat
  endPos : Nat
  leaf : Bool

namespace CaptureMatch

/-- The order of the matches: the outer one of two that start together comes
first. -/
def Before (a b : CaptureMatch) : Prop :=
  if a.startPos ≠ b.startPos then a.startPos < b.startPos else b.endPos < a.endPos

instance : DecidableRel Before := fun a b => by
  unfold Before
  infer_instance

/-- Inserts the match into the ordered set, unless a match with its positions
is there. -/
def emplace (a : CaptureMatch) : List CaptureMatch → List CaptureMatch
  | [] => [a]
  | b :: bs =>
    if a.Before b then a :: b :: bs
    else if b.Before a then b :: emplace a bs
    else b :: bs

/-- The matches with their leaves. -/
def markLeaves : List CaptureMatch → List CaptureMatch
  | [] => []
  | [a] => [{ a with leaf := true }]
  | a :: b :: bs => { a with leaf := a.endPos ≤ b.startPos } :: markLeaves (b :: bs)

end CaptureMatch

/-- `LogEventView::get_capture_position`, and `none` without a match. -/
def getCapturePosition (t : LexerTables) (rootVar : Token) (capture : Capture) :
    Except Fault (Option (Nat × Nat)) := do
  let (startRegId, endRegId) ← t.getRegIdsFromCapture capture
  let startPositions ← rootVar.getReversedRegPositions startRegId
  let endPositions ← rootVar.getReversedRegPositions endRegId
  match startPositions.head?, endPositions.head? with
  | some startPos, some endPos =>
    if startPos < 0 ∨ endPos < 0 then return none
    else return some (startPos.toNat, endPos.toNat)
  | _, _ => return none

/-- The ordered set of the matches of the captures. -/
def orderedMatches (t : LexerTables) (rootVar : Token) :
    List Capture → List CaptureMatch → Except Fault (List CaptureMatch)
  | [], ordered => .ok ordered
  | capture :: captures, ordered => do
    match ← getCapturePosition t rootVar capture with
    | some (startPos, endPos) =>
      orderedMatches t rootVar captures
        (CaptureMatch.emplace ⟨capture, startPos, endPos, true⟩ ordered)
    | none => orderedMatches t rootVar captures ordered

/-- `LogEventView::get_capture_matches`, and `none` without capture groups. -/
def getCaptureMatches (t : LexerTables) (rootVar : Token) :
    Except Fault (Option (List CaptureMatch)) := do
  match t.getCapturesFromRuleId (← rootVar.firstTypeId) with
  | none => return none
  | some captures => do
    let ordered ← orderedMatches t rootVar captures []
    return some (CaptureMatch.markLeaves ordered)

/-! ## Log types -/

/-- The name of a variable or a capture in a log type, between angle
brackets. -/
def placeholder (name : String) : List UInt8 :=
  60 :: (name.toList.flatMap String.utf8EncodeChar ++ [62])

/-- The text of the token from `prevEndPos` with its leaf matches replaced. -/
def replaceLeaves (token : Token) : List CaptureMatch → Nat → Except Fault (List UInt8)
  | [], prevEndPos => do
    let rest ← token.getSubToken prevEndPos token.endPos
    return rest.toString
  | a :: as, prevEndPos => do
    if a.leaf then
      let before ← token.getSubToken prevEndPos a.startPos
      let after ← replaceLeaves token as a.endPos
      return before.toString ++ placeholder a.capture.name ++ after
    else replaceLeaves token as prevEndPos

/-- The delimiter that goes to the log type in front of a variable, and the
token without it.  A newline and the first token keep theirs. -/
def splitDelimiter (isFirstToken : Bool) (ruleId : Nat) (token : Token) : List UInt8 × Token :=
  if ruleId ≠ SymbolId.tokenNewline.toNat ∧ ¬ isFirstToken then
    ([token.releaseDelimiter.1], token.releaseDelimiter.2)
  else ([], token)

/-- The name of the variable, or its text with its leaf matches replaced. -/
def variableLogtype (t : LexerTables) (idSymbol : Nat → String) (ruleId : Nat) (token : Token) :
    Except Fault (List UInt8) := do
  match ← getCaptureMatches t token with
  | none => return placeholder (idSymbol ruleId)
  | some captureMatches => replaceLeaves token captureMatches token.startPos

/-- What a token adds to the log type. -/
def logtypeOf (t : LexerTables) (idSymbol : Nat → String) (isFirstToken : Bool)
    (token : Token) : Except Fault (List UInt8) := do
  let ruleId ← token.firstTypeId
  if ruleId = SymbolId.tokenUncaughtString.toNat then return token.toString
  else
    let split := splitDelimiter isFirstToken ruleId token
    let text ← variableLogtype t idSymbol ruleId split.2
    return split.1 ++ text

/-- What tokens behind the first one add to the log type. -/
def logtypeOfRest (t : LexerTables) (idSymbol : Nat → String) :
    List Token → Except Fault (List UInt8)
  | [] => .ok []
  | token :: tokens => do
    let logtype ← logtypeOf t idSymbol false token
    let rest ← logtypeOfRest t idSymbol tokens
    return logtype ++ rest

/-- The log type of the tokens that are read. -/
def logtypeOfTokens (t : LexerTables) (idSymbol : Nat → String) :
    List Token → Except Fault (List UInt8)
  | [] => .ok []
  | token :: tokens => do
    let logtype ← logtypeOf t idSymbol true token
    let rest ← logtypeOfRest t idSymbol tokens
    return logtype ++ rest

/-! ## Event views -/

structure LogEventView where
  logOutputBuffer : LogParserOutputBuffer
  multiline : Bool := false
  logVarOccurrences : Nat → List Token := fun _ => []

namespace LogEventView

def getTimestamp (view : LogEventView) : Option (List UInt8) := view.logOutputBuffer.timestamp

def isMultiline (view : LogEventView) : Bool := view.multiline

def setMultiline (view : LogEventView) (multiline : Bool) : LogEventView :=
  { view with multiline := multiline }

def getVariables (view : LogEventView) (variableId : Nat) : List Token :=
  view.logVarOccurrences variableId

def toString (view : LogEventView) : List UInt8 := view.logOutputBuffer.toString

def getLogtype (t : LexerTables) (idSymbol : Nat → String) (view : LogEventView) :
    Except Fault (List UInt8) :=
  logtypeOfTokens t idSymbol view.logOutputBuffer.tokens

def addToken (view : LogEventView) (tokenTypeId : Nat) (token : Token) : LogEventView :=
  { view with
    logVarOccurrences := fun id =>
      if id = tokenTypeId then view.logVarOccurrences id ++ [token]
      else view.logVarOccurrences id }

/-- Adds the tokens to the occurrences of their variables. -/
def addTokens : List Token → LogEventView → Except Fault LogEventView
  | [], view => .ok view
  | token :: tokens, view => do
    let typeId ← token.firstTypeId
    addTokens tokens (view.addToken typeId token)

/-- The slot of the first token that starts with a newline.  Slot 0 does not
count. -/
def firstNewlinePos (b : LogParserOutputBuffer) : Nat :=
  (List.range' b.start (b.pos - b.start)).foldl
    (fun first i => if (b.getToken i).getFirstChar = 10 ∧ first = 0 then i else first) 0

/-- The view of the event in the output buffer. -/
def generateLogEventViewMetadata (b : LogParserOutputBuffer) : Except Fault LogEventView := do
  let view ← addTokens b.tokens { logOutputBuffer := b }
  if b.hasHeader ∧ 0 < firstNewlinePos b ∧ firstNewlinePos b + 1 < b.pos then
    return view.setMultiline true
  else return view

/-! ## Copies -/

/-- The buffer of a copy. -/
def copyBuffer (behind : Nat → UInt8) (text : List UInt8) (i : Nat) : UInt8 :=
  text[i]?.getD (behind i)

/-- The copy of a token, which has no registers. -/
def copiedToken (buffer : Nat → UInt8) (bufferSize startPos : Nat) (token : Token) : Token where
  startPos := startPos
  endPos := startPos + token.toString.length
  buffer := buffer
  bufferSize := bufferSize
  lineNum := 0
  typeIds := token.typeIds

/-- The body of the loop over the tokens: the end of the bytes that are
copied, and the output buffer of the copy. -/
def copyToken (buffer : Nat → UInt8) (bufferSize : Nat) (st : Nat × LogParserOutputBuffer)
    (token : Token) : Nat × LogParserOutputBuffer :=
  (st.1 + token.toString.length,
    (st.2.setCurrToken (copiedToken buffer bufferSize st.1 token)).advanceToNextToken)

/-- The sum of the lengths of the tokens. -/
def totalLength : List Token → Nat
  | [] => 0
  | token :: tokens => token.getLength + totalLength tokens

/-- The constructor of `LogEvent`.  Bytes that do not fit into the buffer are
written behind it. -/
def deepCopy (behind : Nat → UInt8) (src : LogEventView) : Except Fault LogEventView := do
  let tokens := src.logOutputBuffer.tokens
  let bufferSize := toUInt32 (totalLength tokens)
  if bufferSize = 0 then .error .thrown
  else if bufferSize < src.toString.length then .error .outOfBounds
  else
    let new : LogParserOutputBuffer :=
      { LogParserOutputBuffer.new with
        hasHeader := src.logOutputBuffer.hasHeader
        timestamp := src.logOutputBuffer.timestamp }
    let outputBuffer :=
      (tokens.foldl (copyToken (copyBuffer behind src.toString) bufferSize) (0, new)).2
    addTokens ((List.range outputBuffer.pos).map outputBuffer.getToken)
      { logOutputBuffer := outputBuffer, multiline := src.isMultiline }

end LogEventView

namespace LogParser

/-- A parse, with the view of the event that it ends. -/
def parseAndGenerateMetadata (t : LexerTables) (fuel : Nat) (p : LogParser) :
    Except Fault (LogParser × Except ErrorCode (ParsingAction × LogEventView)) := do
  match ← p.parse t fuel with
  | (p, .error err) => return (p, .error err)
  | (p, .ok action) =>
    let view ← LogEventView.generateLogEventViewMetadata p.outputBuffer
    return (p, .ok (action, view))

end LogParser

end LogSurgeon
