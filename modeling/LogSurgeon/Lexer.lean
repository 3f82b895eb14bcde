import LogSurgeon.Buffer
import LogSurgeon.FiniteAutomata.DfaSimulation

/-!
# The lexer

`scan` is the `Lexer::scan` of `Lexer.tpp`.  The members that only
`set_delimiters` and `generate` change are `LexerTables`, and those that
scanning changes are `Lexer`.  A `Scanner` is a lexer with its input buffer.

* `scanStep` is one run of the body of the loop: it goes on, or it returns a
  token or an error.
* The loops take a number of steps.
* A pointer to a DFA state is its index, and `none` is the null pointer.
* A pointer to a list of type ids is the list.
-/

namespace LogSurgeon

/-- What the lexer knows about the rules. -/
structure LexerTables where
  isDelimiter : Nat → Bool
  hasDelimiters : Bool
  isFirstCharOfAVariable : Nat → Bool
  dfa : Dfa
  ruleIdToCapture : List (Nat × List Capture)
  captureToTagIdPair : List (Capture × (Nat × Nat))

namespace LexerTables

def getCapturesFromRuleId (t : LexerTables) (ruleId : Nat) : Option (List Capture) :=
  t.ruleIdToCapture.lookup ruleId

def getTagIdPairFromCapture (t : LexerTables) (capture : Capture) : Option (Nat × Nat) :=
  t.captureToTagIdPair.lookup capture

def getRegIdFromTagId (t : LexerTables) (tagId : Nat) : Option Nat :=
  t.dfa.tagIdToFinalRegId.find? tagId

def getRegIdsFromCapture (t : LexerTables) (capture : Capture) : Except Fault (Nat × Nat) := do
  let (startTagId, endTagId) ← derefOr .thrown (t.getTagIdPairFromCapture capture)
  let startRegId ← derefOr .thrown (t.getRegIdFromTagId startTagId)
  let endRegId ← derefOr .thrown (t.getRegIdFromTagId endTagId)
  return (startRegId, endRegId)

end LexerTables

structure Lexer where
  matchPos : Nat := 0
  startPos : Nat := 0
  matchLine : Nat := 0
  lastMatchPos : Nat := 0
  lastMatchLine : Nat := 0
  isMatch : Bool := false
  typeIds : Option (List Nat) := none
  line : Nat := 0
  firstDelimiterPos : Option Nat := none
  askedForMoreData : Bool := false
  state : Option Nat := none
  regHandler : RegisterHandler

def cTokenEndTypes : List Nat := [SymbolId.tokenEnd.toNat]

def cTokenUncaughtStringTypes : List Nat := [SymbolId.tokenUncaughtString.toNat]

/-- The lexer and the input buffer that it scans. -/
structure Scanner where
  lexer : Lexer
  input : ParserInputBuffer

/-- What `scan` returns: a token, or the error. -/
abbrev ScanResult := Except ErrorCode Token

namespace Scanner

/-- A token of the input buffer without registers. -/
def newToken (s : Scanner) (startPos endPos lineNum : Nat) (typeIds : List Nat) : Token where
  startPos := startPos
  endPos := endPos
  buffer := s.input.storage.getActiveBuffer
  bufferSize := s.input.storage.size
  lineNum := lineNum
  typeIds := some typeIds

/-- The token of the match.  It takes the registers with it. -/
def releaseMatch (t : LexerTables) (s : Scanner) : Scanner × Token :=
  let lexer := s.lexer
  ({ s with
      lexer := { lexer with
        firstDelimiterPos := none
        isMatch := false
        lastMatchPos := lexer.matchPos
        lastMatchLine := lexer.matchLine
        regHandler := t.dfa.newRegHandler } },
    { startPos := lexer.startPos
      endPos := lexer.matchPos
      buffer := s.input.storage.getActiveBuffer
      bufferSize := s.input.storage.size
      lineNum := lexer.matchLine
      typeIds := lexer.typeIds
      regHandler := lexer.regHandler })

/-- Keeps the position of the first delimiter behind the last match. -/
def noteDelimiter (t : LexerTables) (nextChar : UInt8) (prevByteBufPos : Nat) (s : Scanner) :
    Scanner :=
  if s.lexer.firstDelimiterPos = none ∧ t.isDelimiter nextChar.toNat ∧
      prevByteBufPos ≠ s.lexer.lastMatchPos then
    { s with lexer := { s.lexer with firstDelimiterPos := some prevByteBufPos } }
  else s

/-- Keeps the match that ends before the character, if there is one. -/
def recordMatch (t : LexerTables) (nextChar : UInt8) (prevByteBufPos : Nat) (s : Scanner) :
    Except Fault Scanner := do
  if t.isDelimiter nextChar.toNat ∨ s.input.logFullyConsumed ∨ ¬ t.hasDelimiters then
    let state ← derefOr .nullPointer (s.lexer.state.bind t.dfa.state?)
    if state.isAccepting then
      let regHandler ← derefOr .thrown
        (Dfa.processRegOps state.acceptingOps prevByteBufPos s.lexer.regHandler)
      return { s with
        lexer := { s.lexer with
          regHandler := regHandler
          isMatch := true
          typeIds := some state.matchingVariableIds
          matchPos := prevByteBufPos
          matchLine := s.lexer.line } }
    else return s
  else return s

/-- Follows the transition on the character, or ends in the null state. -/
def processChar (t : LexerTables) (nextChar : UInt8) (currPos : Nat) (s : Scanner) :
    Except Fault Scanner := do
  let state ← derefOr .nullPointer (s.lexer.state.bind t.dfa.state?)
  match state.getTransition nextChar.toNat with
  | none => return { s with lexer := { s.lexer with state := none } }
  | some transition =>
    let regHandler ← derefOr .thrown
      (Dfa.processRegOps transition.regOps currPos s.lexer.regHandler)
    return { s with
      lexer := { s.lexer with state := some transition.destState, regHandler := regHandler } }

def root (t : LexerTables) (s : Scanner) : Scanner :=
  { s with lexer := { s.lexer with state := some t.dfa.getRoot } }

/-- A newline that no match covers and that is the first delimiter starts a
match of its own. -/
def StartsAtNewline (t : LexerTables) (prevByteBufPos : Nat) (s : Scanner) : Prop :=
  (s.lexer.firstDelimiterPos = none ∨ s.lexer.firstDelimiterPos = some prevByteBufPos) ∧
    t.hasDelimiters ∧ ¬ s.lexer.isMatch

instance (t : LexerTables) (prevByteBufPos : Nat) (s : Scanner) :
    Decidable (s.StartsAtNewline t prevByteBufPos) :=
  inferInstanceAs (Decidable (_ ∧ _))

def startAtNewline (t : LexerTables) (nextChar : UInt8) (prevByteBufPos : Nat) (s : Scanner) :
    Except Fault Scanner := do
  let s ← (s.root t).processChar t nextChar prevByteBufPos
  let state ← derefOr .nullPointer (s.lexer.state.bind t.dfa.state?)
  return { s with
    lexer := { s.lexer with
      isMatch := true
      typeIds := some state.matchingVariableIds
      startPos := prevByteBufPos
      matchPos := s.input.storage.pos
      matchLine := s.lexer.line } }

/-- The loop that skips to a character that is a delimiter and starts a
variable, and the position of the last character read. -/
def skip (t : LexerTables) : Nat → UInt8 → Nat → Scanner →
    Except Fault (Scanner × Except ErrorCode Nat)
  | fuel, nextChar, prevByteBufPos, s =>
    if ¬ s.input.logFullyConsumed ∧
        (¬ t.isFirstCharOfAVariable nextChar.toNat ∨ ¬ t.isDelimiter nextChar.toNat) then
      match fuel with
      | 0 => .error .outOfSteps
      | fuel + 1 =>
        match s.input.getNextCharacter with
        | (.error err, input) =>
          .ok ({ lexer := { s.lexer with askedForMoreData := true }, input := input }, .error err)
        | (.ok nextChar, input) =>
          skip t fuel nextChar s.input.storage.pos { s with input := input }
    else .ok (s, .ok prevByteBufPos)

/-- The token that ends at the first delimiter. -/
def releaseStaticText (s : Scanner) (firstDelimiterPos : Nat) : Scanner × Token :=
  ({ s with lexer := { s.lexer with lastMatchPos := firstDelimiterPos } },
    s.newToken s.lexer.lastMatchPos firstDelimiterPos s.lexer.lastMatchLine
      cTokenUncaughtStringTypes)

/-- The DFA has a match when it stops. -/
def finishMatch (t : LexerTables) (s : Scanner) : Scanner × Token :=
  let s : Scanner :=
    { lexer := { s.lexer with line := s.lexer.matchLine }
      input := (s.input.setLogFullyConsumed false).setPos s.lexer.matchPos }
  if s.lexer.lastMatchPos ≠ s.lexer.startPos then
    (s, s.newToken s.lexer.lastMatchPos s.lexer.startPos s.lexer.lastMatchLine
      cTokenUncaughtStringTypes)
  else s.releaseMatch t

/-- The input is consumed, and nothing was read since the start position. -/
def finishInput (s : Scanner) : Scanner × Token :=
  if s.lexer.lastMatchPos ≠ s.lexer.startPos then
    match s.lexer.firstDelimiterPos with
    | some firstDelimiterPos => s.releaseStaticText firstDelimiterPos
    | none =>
      ({ s with
          lexer := { s.lexer with
            matchPos := s.input.storage.pos
            typeIds := some cTokenEndTypes
            isMatch := true } },
        s.newToken s.lexer.lastMatchPos s.lexer.startPos s.lexer.lastMatchLine
          cTokenUncaughtStringTypes)
  else
    (s, s.newToken s.input.storage.pos s.input.storage.pos s.lexer.line cTokenEndTypes)

/-- The input is consumed or the DFA stopped. -/
def finish (t : LexerTables) (fuel : Nat) (nextChar : UInt8) (prevByteBufPos : Nat)
    (s : Scanner) : Except Fault (Scanner × Option ScanResult) := do
  if s.lexer.isMatch then
    let (s, token) := s.finishMatch t
    return (s, some (.ok token))
  else if s.input.logFullyConsumed ∧ s.input.storage.pos = s.lexer.startPos then
    let (s, token) := s.finishInput
    return (s, some (.ok token))
  else
    match s.lexer.firstDelimiterPos with
    | some firstDelimiterPos =>
      let (s, token) := s.releaseStaticText firstDelimiterPos
      return (s, some (.ok token))
    | none =>
      let (s, result) ← (s.root t).skip t fuel nextChar prevByteBufPos
      match result with
      | .error err => return (s, some (.error err))
      | .ok prevByteBufPos =>
        return ({ lexer := { s.lexer with startPos := prevByteBufPos }
                  input := s.input.setPos prevByteBufPos }, none)

/-- The body of the loop behind the read of `nextChar`. -/
def scanChar (t : LexerTables) (fuel : Nat) (nextChar : UInt8) (prevByteBufPos : Nat)
    (s : Scanner) : Except Fault (Scanner × Option ScanResult) := do
  let s ← (s.noteDelimiter t nextChar prevByteBufPos).recordMatch t nextChar prevByteBufPos
  let s ← s.processChar t nextChar prevByteBufPos
  let s : Scanner :=
    if nextChar = 10 then { s with lexer := { s.lexer with line := s.lexer.line + 1 } } else s
  if nextChar = 10 ∧ s.StartsAtNewline t prevByteBufPos then
    let s ← s.startAtNewline t nextChar prevByteBufPos
    return (s, none)
  else if s.input.logFullyConsumed ∨ s.lexer.state = none then
    s.finish t fuel nextChar prevByteBufPos
  else return (s, none)

/-- The body of the loop. -/
def scanStep (t : LexerTables) (fuel : Nat) (s : Scanner) :
    Except Fault (Scanner × Option ScanResult) :=
  match s.input.getNextCharacter with
  | (.error err, input) =>
    .ok ({ lexer := { s.lexer with askedForMoreData := true }, input := input },
      some (.error err))
  | (.ok nextChar, input) =>
    { s with input := input }.scanChar t fuel nextChar s.input.storage.pos

/-- The loop of `scan`. -/
def scanLoop (t : LexerTables) : Nat → Scanner → Except Fault (Scanner × ScanResult)
  | 0, _ => .error .outOfSteps
  | fuel + 1, s => do
    match ← s.scanStep t fuel with
    | (s, some result) => return (s, result)
    | (s, none) => s.scanLoop t fuel

/-- Rewinds to the first delimiter, and starts there. -/
def begin (t : LexerTables) (s : Scanner) : Scanner :=
  let input :=
    match s.lexer.firstDelimiterPos with
    | some firstDelimiterPos =>
      (s.input.setLogFullyConsumed false).setPos firstDelimiterPos
    | none => s.input
  { lexer := { s.lexer with
      state := some t.dfa.getRoot
      startPos := input.storage.pos
      matchPos := input.storage.pos
      matchLine := s.lexer.line
      typeIds := none
      firstDelimiterPos := none }
    input := input }

def scan (t : LexerTables) (fuel : Nat) (s : Scanner) : Except Fault (Scanner × ScanResult) :=
  if s.lexer.askedForMoreData then
    { s with lexer := { s.lexer with askedForMoreData := false } }.scanLoop t fuel
  else if s.lexer.isMatch then
    let (s, token) := (s.root t).releaseMatch t
    .ok (s, .ok token)
  else (s.begin t).scanLoop t fuel

end Scanner

namespace Lexer

/-- The lexer behind its construction. -/
def new (t : LexerTables) : Lexer := { regHandler := t.dfa.regHandler }

/-- The registers stay as they are. -/
def reset (lexer : Lexer) : Lexer := { regHandler := lexer.regHandler }

/-- The state behind the start-of-file character. -/
def startOfFileState (t : LexerTables) : Option Nat :=
  ((t.dfa.state? t.dfa.getRoot).bind fun root =>
    root.getTransition cCharStartOfFile.toNat).map (·.destState)

def prependStartOfFileChar (t : LexerTables) (input : ParserInputBuffer) (lexer : Lexer) :
    Except Fault Lexer := do
  let state ← derefOr .nullPointer (startOfFileState t)
  return { lexer with
    state := some state
    askedForMoreData := true
    startPos := input.storage.pos
    matchPos := input.storage.pos
    matchLine := lexer.line
    typeIds := none }

end Lexer

end LogSurgeon
