import LogSurgeon.FiniteAutomata.Dfa
import LogSurgeon.Lexer

/-!
# Schemas

`addRules` turns a schema into the rules of the lexer, as
`LogParser::add_rules` does: a header starts behind the start of the file or a
newline, and every other variable behind a delimiter.  `generate` is
`Lexer::generate`.

* The start-of-file character is a delimiter of every schema.
* The rule of the newline character comes first.
* The constructor of the DFA need not end, so `generate` takes a number of
  steps.
-/

namespace LogSurgeon

structure SchemaVarAST where
  name : String
  regex : RegexAST
deriving DecidableEq, Repr

/-- The variables, and the delimiters of every `delimiters:` line. -/
structure SchemaAST where
  schemaVars : List SchemaVarAST
  delimiters : List (List Nat)
deriving DecidableEq, Repr

/-! ## Wildcards -/

namespace RegexASTGroup

/-- The ranges between two neighbours of the sorted list, and behind its last
element. -/
def rangesBehind : Nat → List Nat → List Range
  | last, [] => if last ≠ cUnicodeMax then [(last + 1, cUnicodeMax)] else []
  | previous, delimiter :: delimiters =>
    if delimiter - previous > 1 then
      (previous + 1, delimiter - 1) :: rangesBehind delimiter delimiters
    else rangesBehind delimiter delimiters

/-- The code points outside the sorted list. -/
def rangesOutside : List Nat → List Range
  | [] => []
  | delimiter :: delimiters =>
    if delimiter ≠ 0 then (0, delimiter - 1) :: rangesBehind delimiter delimiters
    else rangesBehind delimiter delimiters

def removeDelimitersFromWildcard (delimiters : List Nat) (g : RegexASTGroup) :
    RegexASTGroup :=
  if ¬ g.isWildcard ∨ delimiters = [] then g
  else { g with ranges := rangesOutside (delimiters.insertionSort (· ≤ ·)) }

/-- The group of the characters of a list. -/
def ofLiterals (literals : List Nat) : RegexASTGroup where
  negate := false
  ranges := literals.map fun literal => (literal, literal)

end RegexASTGroup

def RegexAST.removeDelimitersFromWildcard (delimiters : List Nat) : RegexAST → RegexAST
  | empty neg => empty neg
  | literal neg c => literal neg c
  | group neg g => group neg (g.removeDelimitersFromWildcard delimiters)
  | or neg l r =>
    or neg (l.removeDelimitersFromWildcard delimiters) (r.removeDelimitersFromWildcard delimiters)
  | cat neg l r =>
    cat neg (l.removeDelimitersFromWildcard delimiters)
      (r.removeDelimitersFromWildcard delimiters)
  | multiplication neg r min max =>
    multiplication neg (r.removeDelimitersFromWildcard delimiters) min max
  | capture neg r c => capture neg (r.removeDelimitersFromWildcard delimiters) c

/-! ## Rules -/

/-- The ids of the symbols, and the rules of the lexer. -/
structure Parser where
  symbolId : List (String × Nat)
  rules : List LexicalRule

namespace Parser

def new : Parser where
  symbolId :=
    [(cTokenEnd, SymbolId.tokenEnd.toNat),
      (cTokenUncaughtString, SymbolId.tokenUncaughtString.toNat),
      (cTokenInt, SymbolId.tokenInt.toNat),
      (cTokenFloat, SymbolId.tokenFloat.toNat),
      (cTokenHex, SymbolId.tokenHex.toNat),
      (cTokenHeader, SymbolId.tokenHeader.toNat),
      (cTokenNewline, SymbolId.tokenNewline.toNat)]
  rules := []

/-- The id of the symbol, which is the next one for a new symbol. -/
def symbolIdOf (parser : Parser) (name : String) : Nat :=
  (parser.symbolId.lookup name).getD parser.symbolId.length

def addRule (parser : Parser) (name : String) (rule : RegexAST) : Parser where
  symbolId :=
    if (parser.symbolId.lookup name).isSome then parser.symbolId
    else parser.symbolId ++ [(name, parser.symbolIdOf name)]
  rules := parser.rules ++ [⟨parser.symbolIdOf name, rule⟩]

def addToken (parser : Parser) (name : String) (ruleChar : Nat) : Parser :=
  parser.addRule name (RegexAST.mkLiteral ruleChar)

end Parser

/-- The delimiters that `set_delimiters` leaves, where the last list counts. -/
def isDelimiterOf (delimiters : List (List Nat)) (c : Nat) : Bool :=
  match delimiters.getLast? with
  | some delimiters => delimiters.contains c || c == cCharStartOfFile.toNat
  | none => false

/-- What a header or a variable starts behind. -/
def leadingRegex (delimiters : List Nat) (name : String) : RegexAST :=
  if name = cTokenHeader then
    RegexAST.mkOr (RegexAST.mkLiteral cCharStartOfFile.toNat) (RegexAST.mkLiteral 10)
  else RegexAST.mkGroup (RegexASTGroup.ofLiterals delimiters)

/-- The rule of a variable of the schema. -/
def schemaVarRegex (delimiters : List Nat) (var : SchemaVarAST) : RegexAST :=
  RegexAST.mkCat (leadingRegex delimiters var.name)
    (var.regex.removeDelimitersFromWildcard delimiters)

/-- The delimiters, in order. -/
def SchemaAST.delimiterList (schema : SchemaAST) : List Nat :=
  (List.range cSizeOfByte).filter (isDelimiterOf schema.delimiters)

def addRules (schema : SchemaAST) : Except Fault Parser :=
  if schema.delimiters.any (·.any (cSizeOfByte ≤ ·)) then .error .outOfBounds
  else if schema.delimiterList = [] then .error .thrown
  else
    .ok (schema.schemaVars.foldl
      (fun parser var =>
        parser.addRule var.name (schemaVarRegex schema.delimiterList var))
      (Parser.new.addToken cTokenNewline 10))

/-! ## Generation -/

/-- The captures of the rules of every id. -/
def ruleIdToCapture (rules : List LexicalRule) : List (Nat × List Capture) :=
  let withCaptures := rules.filter (·.getCaptures ≠ [])
  (withCaptures.map (·.variableId)).dedup.map fun ruleId =>
    (ruleId, (withCaptures.filter (·.variableId = ruleId)).flatMap (·.getCaptures))

/-- The lexer that is made from the rules. -/
def generateTables (isDelimiter : Nat → Bool) (rules : List LexicalRule)
    (regMapOrder : List (Nat × Nat) → List (Nat × Nat)) (fuel : Nat) :
    Except Fault LexerTables := do
  let nfa := Nfa.ofRules rules
  let dfa ← derefOr .outOfSteps (Dfa.generate nfa regMapOrder fuel)
  let root ← derefOr .thrown (dfa.state? dfa.getRoot)
  return {
    isDelimiter := isDelimiter
    hasDelimiters := true
    isFirstCharOfAVariable := fun c => (root.getTransition c).isSome
    dfa := dfa
    ruleIdToCapture := ruleIdToCapture rules
    captureToTagIdPair := nfa.captureToTagIdPair }

theorem generateTables_cases {isDelimiter : Nat → Bool} {rules : List LexicalRule}
    {regMapOrder : List (Nat × Nat) → List (Nat × Nat)} {fuel : Nat} {t : LexerTables}
    (h : generateTables isDelimiter rules regMapOrder fuel = .ok t) :
    ∃ dfa root, Dfa.generate (Nfa.ofRules rules) regMapOrder fuel = some dfa ∧
      dfa.state? dfa.getRoot = some root ∧
      t = {
        isDelimiter := isDelimiter
        hasDelimiters := true
        isFirstCharOfAVariable := fun c => (root.getTransition c).isSome
        dfa := dfa
        ruleIdToCapture := ruleIdToCapture rules
        captureToTagIdPair := (Nfa.ofRules rules).captureToTagIdPair } := by
  unfold generateTables at h
  dsimp only at h
  cases hdfa : Dfa.generate (Nfa.ofRules rules) regMapOrder fuel with
  | none =>
    rw [hdfa] at h
    cases h
  | some dfa =>
    rw [hdfa] at h
    cases hroot : dfa.state? dfa.getRoot with
    | none =>
      simp only [derefOr_some, bind, Except.bind, hroot, derefOr_none] at h
      cases h
    | some root =>
      simp only [derefOr_some, bind, Except.bind, hroot, pure, Except.pure, Except.ok.injEq] at h
      exact ⟨dfa, root, rfl, hroot, h.symm⟩

/-- The constructor of `LogParser`. -/
def SchemaAST.generate (schema : SchemaAST)
    (regMapOrder : List (Nat × Nat) → List (Nat × Nat)) (fuel : Nat) :
    Except Fault LexerTables := do
  let parser ← addRules schema
  generateTables (isDelimiterOf schema.delimiters) parser.rules regMapOrder fuel

end LogSurgeon
