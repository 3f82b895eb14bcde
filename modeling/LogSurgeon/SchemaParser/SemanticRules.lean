import LogSurgeon.CharacterClasses
import LogSurgeon.SchemaParser.Repetitions

/-!
# The semantic rules of the schema parser

A rule of `SchemaParser.cpp` makes the AST of a nonterminal from the symbols of
its body.  It finds out what they are by casts, each of which has its own way to
fail.

* `get<T>` is a `static_cast`, so another class is no exception but undefined.
* A null pointer is kept where the source keeps it: in the variables and the
  delimiters of a schema, and in the operands of a `RegexASTGroup`.
* The assertion that a range ascends is left out, as it is in a release build.
-/

namespace LogSurgeon

/-! ## ASTs -/

/-- What the pointer of a `ParserValueRegex` points to. -/
inductive RegexValue where
  | regex (ast : RegexAST)
  | integer (ast : SchemaParser.RegexASTInteger)

/-- The classes that are derived from `ParserAST`. -/
inductive ParserAST where
  | identifier (name : List UInt8)
  | delimiterString (delimiters : List Nat)
  | schemaVar (name : List UInt8) (regex : RegexAST) (lineNum : Nat)
  | schema (schemaVars delimiters : List (Option ParserAST))
  | value (regex : RegexValue)

/-- What ends a semantic rule. -/
inductive RuleFault where
  /-- `m_symbols.at` -/
  | outOfRange
  /-- `to_string().at(0)` of a token without text. -/
  | emptyToken
  /-- `std::get` of the other alternative. -/
  | badVariantAccess
  /-- `get_parser_ast` without an AST. -/
  | noParserAST
  /-- A cast to a class that the AST does not have. -/
  | badCast
  /-- A null pointer is read. -/
  | nullPointer
  /-- An integer in a regex, which no NFA can be made from. -/
  | integerInRegex
  /-- A constructor of `RegexASTGroup` gets a null pointer. -/
  | illegalCharacters (constructor nullPtrName : String)
  /-- A constructor of `RegexASTGroup` gets a negated subgroup. -/
  | negativeSubgroup
deriving DecidableEq, Repr

/-- A symbol of a body, with its AST. -/
inductive RuleSymbol where
  | token (token : Token)
  | nonTerminal (ast : Option ParserAST)

/-- What a rule reads, and the address of what it allocates. -/
structure NonTerminal where
  symbols : List RuleSymbol
  address : Nat

/-- A null pointer is no AST. -/
abbrev SemanticRule := NonTerminal → Except RuleFault (Option ParserAST)

namespace NonTerminal

def tokenCast (m : NonTerminal) (i : Nat) : Except RuleFault Token :=
  match m.symbols[i]? with
  | some (.token token) => .ok token
  | some (.nonTerminal _) => .error .badVariantAccess
  | none => .error .outOfRange

/-- `non_terminal_cast(i).release_parser_ast()`. -/
def releaseParserAST (m : NonTerminal) (i : Nat) : Except RuleFault (Option ParserAST) :=
  match m.symbols[i]? with
  | some (.nonTerminal ast) => .ok ast
  | some (.token _) => .error .badVariantAccess
  | none => .error .outOfRange

def getParserAST (m : NonTerminal) (i : Nat) : Except RuleFault ParserAST := do
  match ← m.releaseParserAST i with
  | some ast => .ok ast
  | none => .error .noParserAST

/-- `token_cast(i).to_string().at(0)`. -/
def charAt (m : NonTerminal) (i : Nat) : Except RuleFault UInt8 := do
  match (← m.tokenCast i).toString with
  | c :: _ => .ok c
  | [] => .error .emptyToken

/-- `get_parser_ast().get<unique_ptr<RegexASTByte>>()`. -/
def getRegex (m : NonTerminal) (i : Nat) : Except RuleFault RegexValue := do
  match ← m.getParserAST i with
  | .value regex => .ok regex
  | _ => .error .badCast

/-- A regex that is moved into another one. -/
def moveRegex (m : NonTerminal) (i : Nat) : Except RuleFault RegexAST := do
  match ← m.getRegex i with
  | .regex ast => .ok ast
  | .integer _ => .error .integerInRegex

/-- `dynamic_cast<RegexASTIntegerByte*>`, which is read. -/
def integerCast (m : NonTerminal) (i : Nat) : Except RuleFault SchemaParser.RegexASTInteger := do
  match ← m.getRegex i with
  | .integer ast => .ok ast
  | .regex _ => .error .nullPointer

/-- `dynamic_cast<RegexASTLiteralByte*>`: the character of the literal. -/
def literalCast (m : NonTerminal) (i : Nat) : Except RuleFault (Option Nat) := do
  match ← m.getRegex i with
  | .regex (.literal _ c) => .ok (some c)
  | _ => .ok none

/-- `dynamic_cast<RegexASTGroupByte*>`. -/
def groupCast (m : NonTerminal) (i : Nat) : Except RuleFault (Option RegexASTGroup) := do
  match ← m.getRegex i with
  | .regex (.group _ g) => .ok (some g)
  | _ => .ok none

/-- `byte_ast->get_character()`. -/
def getCharacter (m : NonTerminal) (i : Nat) : Except RuleFault Nat := do
  match ← m.literalCast i with
  | some c => .ok c
  | none => .error .nullPointer

end NonTerminal

/-- The value of a `char`, which is signed, as a `uint32_t`. -/
def charValue (c : UInt8) : Nat := if c < 128 then c.toNat else 2 ^ 32 - 2 ^ 8 + c.toNat

/-- A string of the schema. -/
def stringOf (bytes : List UInt8) : String :=
  String.ofList (bytes.map fun b => Char.ofNat b.toNat)

/-! ## The constructors of a group -/

namespace RegexASTGroup

def ofRange (min max : Nat) : RegexASTGroup where
  negate := false
  ranges := [(min, max)]

def addRange (min max : Nat) (g : RegexASTGroup) : RegexASTGroup :=
  { g with ranges := g.ranges ++ [(min, max)] }

def addLiteral (literal : Nat) (g : RegexASTGroup) : RegexASTGroup := g.addRange literal literal

def ofGroupAndLiteral : Option RegexASTGroup → Option Nat → Except RuleFault RegexASTGroup
  | none, _ =>
    .error (.illegalCharacters "RegexASTGroup(RegexASTGroup, RegexASTLiteral)" "left")
  | some _, none =>
    .error (.illegalCharacters "RegexASTGroup(RegexASTGroup, RegexASTLiteral)" "right")
  | some left, some right =>
    .ok { negate := left.negate, ranges := left.ranges ++ [(right, right)] }

def ofGroups : Option RegexASTGroup → Option RegexASTGroup → Except RuleFault RegexASTGroup
  | none, _ => .error (.illegalCharacters "RegexASTGroup(RegexASTGroup, RegexASTGroup)" "left")
  | some _, none =>
    .error (.illegalCharacters "RegexASTGroup(RegexASTGroup, RegexASTGroup)" "right")
  | some left, some right =>
    if right.negate then .error .negativeSubgroup
    else .ok { negate := left.negate, ranges := left.ranges ++ right.ranges }

def ofLiteral : Option Nat → Except RuleFault RegexASTGroup
  | none => .error (.illegalCharacters "RegexASTGroup(RegexASTLiteral)" "right")
  | some right => .ok { negate := false, ranges := [(right, right)] }

def ofGroup : Option RegexASTGroup → Except RuleFault RegexASTGroup
  | none => .error (.illegalCharacters "RegexASTGroup(RegexASTGroup)" "right")
  | some right => .ok { negate := right.negate, ranges := right.ranges }

def ofLiteralRange : Option Nat → Option Nat → Except RuleFault RegexASTGroup
  | none, _ =>
    .error (.illegalCharacters "RegexASTGroup(RegexASTLiteral, RegexASTLiteral)" "left")
  | some _, none =>
    .error (.illegalCharacters "RegexASTGroup(RegexASTLiteral, RegexASTLiteral)" "right")
  | some left, some right => .ok { negate := false, ranges := [(left, right)] }

end RegexASTGroup

namespace SemanticRules

/-! ## Identifiers, variables and delimiters -/

def newIdentifierRule : SemanticRule := fun m => do
  return some (.identifier [← m.charAt 0])

def existingIdentifierRule : SemanticRule := fun m => do
  match ← m.releaseParserAST 0 with
  | some (.identifier name) => return some (.identifier (name ++ [← m.charAt 1]))
  | _ => .error .nullPointer

/-- `dynamic_cast<IdentifierAST&>(get_parser_ast()).m_name`. -/
def identifierName (m : NonTerminal) (i : Nat) : Except RuleFault (List UInt8) := do
  match ← m.getParserAST i with
  | .identifier name => .ok name
  | _ => .error .badCast

def schemaVarRule : SemanticRule := fun m => do
  let name ← identifierName m 1
  let regex ← m.moveRegex 3
  return some (.schemaVar name regex (← m.tokenCast 2).lineNum)

def existingDelimiterStringRule : SemanticRule := fun m => do
  match ← m.releaseParserAST 0 with
  | some (.delimiterString delimiters) =>
    return some (.delimiterString (delimiters ++ [← m.getCharacter 1]))
  | _ => .error .nullPointer

def newDelimiterStringRule : SemanticRule := fun m => do
  return some (.delimiterString [← m.getCharacter 0])

/-! ## Schemas -/

def newSchemaRule : SemanticRule := fun _ => return some (.schema [] [])

def newSchemaRuleWithVar : SemanticRule := fun m => do
  return some (.schema [← m.releaseParserAST 0] [])

def newSchemaRuleWithDelimiters : SemanticRule := fun m => do
  return some (.schema [] [← m.releaseParserAST 2])

def existingSchemaRuleWithDelimiter : SemanticRule := fun m => do
  match ← m.releaseParserAST 0 with
  | some (.schema schemaVars delimiters) =>
    return some (.schema schemaVars (delimiters ++ [← m.releaseParserAST 4]))
  | _ => .error .nullPointer

def existingSchemaRule : SemanticRule := fun m => do
  match ← m.releaseParserAST 0 with
  | some (.schema schemaVars delimiters) =>
    return some (.schema (schemaVars ++ [← m.releaseParserAST 2]) delimiters)
  | _ => .error .nullPointer

/-- The `dynamic_cast` of another AST gives a null pointer. -/
def identityRuleParserASTSchema : SemanticRule := fun m => do
  match ← m.releaseParserAST 0 with
  | some (.schema schemaVars delimiters) => return some (.schema schemaVars delimiters)
  | _ => return none

/-! ## Regexes -/

/-- The `ParserValueRegex` of a regex. -/
def parserValue (regex : RegexAST) : Option ParserAST := some (.value (.regex regex))

/-- The capture is a new one, and is told apart by its address. -/
def regexCaptureRule : SemanticRule := fun m => do
  let name ← identifierName m 3
  return parserValue (.mkCapture (← m.moveRegex 5) ⟨m.address, stringOf name⟩)

def regexIdentityRule : SemanticRule := fun m => do
  return some (.value (← m.getRegex 0))

def regexMiddleIdentityRule : SemanticRule := fun m => do
  return some (.value (← m.getRegex 1))

def regexCatRule : SemanticRule := fun m => do
  return parserValue (.mkCat (← m.moveRegex 0) (← m.moveRegex 1))

def regexOrRule : SemanticRule := fun m => do
  return parserValue (.mkOr (← m.moveRegex 0) (← m.moveRegex 2))

def regexMatchZeroOrMoreRule : SemanticRule := fun m => do
  return parserValue (SchemaParser.regexMatchZeroOrMoreRule (← m.moveRegex 0))

def regexMatchOneOrMoreRule : SemanticRule := fun m => do
  return parserValue (SchemaParser.regexMatchOneOrMoreRule (← m.moveRegex 0))

def regexMatchZeroOrOneRule : SemanticRule := fun m => do
  return parserValue (SchemaParser.regexMatchZeroOrOneRule (← m.moveRegex 0))

def regexMatchExactlyRule (castPow : Nat → UInt32) : SemanticRule := fun m => do
  let integer ← m.integerCast 2
  return parserValue (SchemaParser.regexMatchExactlyRule castPow (← m.moveRegex 0) integer)

def regexMatchRangeRule (castPow : Nat → UInt32) : SemanticRule := fun m => do
  let min ← m.integerCast 2
  let max ← m.integerCast 4
  return parserValue (SchemaParser.regexMatchRangeRule castPow (← m.moveRegex 0) min max)

/-! ### Bracket expressions -/

def regexAddLiteralExistingGroupRule : SemanticRule := fun m => do
  return parserValue (.mkGroup
    (← RegexASTGroup.ofGroupAndLiteral (← m.groupCast 0) (← m.literalCast 1)))

def regexAddRangeExistingGroupRule : SemanticRule := fun m => do
  return parserValue (.mkGroup (← RegexASTGroup.ofGroups (← m.groupCast 0) (← m.groupCast 1)))

def regexAddLiteralNewGroupRule : SemanticRule := fun m => do
  return parserValue (.mkGroup (← RegexASTGroup.ofLiteral (← m.literalCast 1)))

def regexAddRangeNewGroupRule : SemanticRule := fun m => do
  return parserValue (.mkGroup (← RegexASTGroup.ofGroup (← m.groupCast 1)))

def regexComplementIncompleteGroupRule : SemanticRule := fun _ => return parserValue (.mkGroup {})

def regexRangeRule : SemanticRule := fun m => do
  return parserValue (.mkGroup
    (← RegexASTGroup.ofLiteralRange (← m.literalCast 0) (← m.literalCast 2)))

/-! ### Characters -/

def regexLiteralRule : SemanticRule := fun m => do
  return parserValue (.mkLiteral (charValue (← m.charAt 0)))

def regexCancelLiteralRule : SemanticRule := fun m => do
  return parserValue (.mkLiteral (charValue (← m.charAt 1)))

def regexExistingIntegerRule : SemanticRule := fun m => do
  let left ← m.integerCast 0
  return some (.value (.integer (SchemaParser.regexExistingIntegerRule left (← m.charAt 1))))

def regexNewIntegerRule : SemanticRule := fun m => do
  return some (.value (.integer (SchemaParser.regexNewIntegerRule (← m.charAt 0))))

def regexVerticalTabRule : SemanticRule := fun _ => return parserValue (.mkLiteral 11)

def regexFormFeedRule : SemanticRule := fun _ => return parserValue (.mkLiteral 12)

def regexTabRule : SemanticRule := fun _ => return parserValue (.mkLiteral 9)

def regexCharReturnRule : SemanticRule := fun _ => return parserValue (.mkLiteral 13)

def regexNewlineRule : SemanticRule := fun _ => return parserValue (.mkLiteral 10)

def regexWildcardRule : SemanticRule := fun _ =>
  return parserValue (.mkGroup { RegexASTGroup.ofRange 0 cUnicodeMax with isWildcard := true })

/-! ### Shorthands -/

def makeDigitGroup : RegexASTGroup := .ofRange 48 57

/-- `cControlWhiteSpaceChars`: `\t`, `\n`, `\r`, `\f` and `\v`. -/
def cControlWhiteSpaceChars : List Nat := [9, 10, 13, 12, 11]

def makeWhiteSpaceGroup : RegexASTGroup := .ofLiterals (32 :: cControlWhiteSpaceChars)

/-- Letters, digits and `_`. -/
def makeWordGroup : RegexASTGroup :=
  (((RegexASTGroup.ofRange 97 122).addRange 65 90).addRange 48 57).addLiteral 95

def regexDigitRule : SemanticRule := fun _ => return parserValue (.mkGroup makeDigitGroup)

def regexNonDigitRule : SemanticRule := fun _ =>
  return parserValue (.mkGroup makeDigitGroup.negated)

def regexWhiteSpaceRule : SemanticRule := fun _ => return parserValue (.mkGroup makeWhiteSpaceGroup)

def regexNonWhiteSpaceRule : SemanticRule := fun _ =>
  return parserValue (.mkGroup makeWhiteSpaceGroup.negated)

def regexWordRule : SemanticRule := fun _ => return parserValue (.mkGroup makeWordGroup)

def regexNonWordRule : SemanticRule := fun _ =>
  return parserValue (.mkGroup makeWordGroup.negated)

end SemanticRules

end LogSurgeon
