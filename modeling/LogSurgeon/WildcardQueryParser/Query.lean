import LogSurgeon.FiniteAutomata.DfaIntersect
import LogSurgeon.Lexer
import LogSurgeon.WildcardQueryParser.Expression
import LogSurgeon.WildcardQueryParser.QueryInterpretation

/-!
# Queries

`Query.new` removes the repeated greedy wildcards of a query.
`getAllMultiTokenInterpretations` fills a table: entry `endIdx - 1` holds the
interpretations of the characters in front of `endIdx`.

A query is interpreted with the DFA of a lexer.  The regex of a view goes
through the schema parser, which is a parameter like the order of unordered
maps and the addresses of DFA states.  `none` is an exception, or a loop that
takes more than the given number of steps.
-/

namespace LogSurgeon

open Lib

/-- What an interpretation depends on besides the lexer.
`parseSchemaVariable` gives the regex of the first variable of a schema. -/
structure QueryEnvironment where
  parseSchemaVariable : List UInt8 → Option RegexAST
  regMapOrder : List (Nat × Nat) → List (Nat × Nat)
  address1 : Nat ↪ Nat
  address2 : Nat ↪ Nat
  fuel : Nat

structure Query where
  processedQueryString : List UInt8
deriving DecidableEq, Repr

namespace Query

/-- The body of the loop of the constructor.  The flag says whether the
character in front was a greedy wildcard. -/
def addChar (st : List UInt8 × Bool) (c : ExpressionCharacter) : List UInt8 × Bool :=
  if c.isGreedyWildcard then (if st.2 then st.1 else st.1 ++ [c.value], true)
  else (st.1 ++ [c.value], false)

def new (queryString : List UInt8) : Query :=
  ⟨((Expression.mk queryString).getChars.foldl addChar ([], false)).1⟩

/-- `search:` -/
def cSearchVariable : List UInt8 := [115, 101, 97, 114, 99, 104, 58]

/-- The variables of the lexer that match a string of the regex. -/
def getMatchingVariableTypes (env : QueryEnvironment) (lexer : LexerTables)
    (regexString : List UInt8) : Option (OrderedSet Nat) := do
  let regex ← env.parseSchemaVariable (cSearchVariable ++ regexString)
  let dfa ← Dfa.generate (Nfa.ofRules [⟨0, regex⟩]) env.regMapOrder env.fuel
  lexer.dfa.getIntersect dfa env.address1 env.address2 env.fuel

/-- The interpretations of a view with the given variables.  Without a wildcard
only the first variable counts. -/
def interpretationsOfTypes (searchString : List UInt8) (containsWildcard : Bool)
    (variableTypes : List Nat) : List QueryInterpretation :=
  let statics :=
    if variableTypes = [] ∨ containsWildcard then [QueryInterpretation.ofStatic searchString]
    else []
  let usedTypes := if containsWildcard then variableTypes else variableTypes.take 1
  statics ++ usedTypes.map fun variableType =>
    QueryInterpretation.ofVariable variableType searchString containsWildcard

def getAllSingleTokenInterpretations (env : QueryEnvironment) (lexer : LexerTables)
    (originalView : ExpressionView) : Option (List QueryInterpretation) :=
  let extendedView := originalView.extendToAdjacentGreedyWildcards.2
  if !originalView.isWellFormed then some []
  else if originalView.getSearchString = [ExpressionCharacter.cStar] then
    some [QueryInterpretation.ofStatic [ExpressionCharacter.cStar]]
  else if !originalView.isSurroundedByDelimsOrWildcards lexer.isDelimiter then
    some [QueryInterpretation.ofStatic extendedView.getSearchString]
  else
    let (regexString, containsWildcard) := extendedView.generateRegexString
    (getMatchingVariableTypes env lexer regexString).map fun matchingVarTypeIds =>
      interpretationsOfTypes extendedView.getSearchString containsWildcard
        matchingVarTypeIds.toList

/-! ## The table -/

abbrev InterpretationTable := List (OrderedSet QueryInterpretation)

/-- The interpretations of a prefix, each with each of the suffixes. -/
def combine (prefixes : OrderedSet QueryInterpretation) (suffixes : List QueryInterpretation) :
    List QueryInterpretation :=
  prefixes.toList.flatMap fun p => suffixes.map fun suffix => p.appendQueryInterpretation suffix

/-- The body of the inner loop. -/
def interpretView (env : QueryEnvironment) (lexer : LexerTables) (expression : Expression)
    (endIdx : Nat) (table : InterpretationTable) (beginIdx : Nat) :
    Option InterpretationTable :=
  let expressionView := ExpressionView.new expression beginIdx endIdx
  if expressionView.getSearchString ≠ [ExpressionCharacter.cStar] ∧
      expressionView.startsOrEndsWithGreedyWildcard then some table
  else
    (getAllSingleTokenInterpretations env lexer expressionView).map fun singles =>
      if singles = [] then table
      else if beginIdx = 0 then table.modify (endIdx - 1) (·.insertAll singles)
      else
        let prefixes := (table[beginIdx - 1]?).getD OrderedSet.empty
        table.modify (endIdx - 1) (·.insertAll (combine prefixes singles))

/-- The body of the outer loop. -/
def interpretEnd (env : QueryEnvironment) (lexer : LexerTables) (expression : Expression)
    (table : InterpretationTable) (endIdx : Nat) : Option InterpretationTable :=
  (List.range endIdx).foldlM (interpretView env lexer expression endIdx) table

def getAllMultiTokenInterpretations (env : QueryEnvironment) (lexer : LexerTables) (q : Query) :
    Option (OrderedSet QueryInterpretation) :=
  if q.processedQueryString = [] then some OrderedSet.empty
  else do
    let expression : Expression := ⟨q.processedQueryString⟩
    let table ← (List.range' 1 expression.length).foldlM (interpretEnd env lexer expression)
      (List.replicate expression.length OrderedSet.empty)
    table.getLast?

end Query

end LogSurgeon
