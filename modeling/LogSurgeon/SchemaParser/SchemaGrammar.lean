import LogSurgeon.SchemaParser.GrammarBuilder
import LogSurgeon.SchemaParser.SemanticRules

/-!
# The schema grammar

The calls of the constructor of `SchemaParser`: the tokens of
`add_lexical_rules`, and the productions of `add_productions` with their rules.

`m_special_regex_characters` is a hash table.  Its order, `specials`, is a
parameter, as is `castPow`, the cast of a power of ten.
-/

namespace LogSurgeon

namespace SchemaParser

open SemanticRules

/-- `m_special_regex_characters`, in the order in which it is filled. -/
def specialRegexCharacters : List (Nat × String) :=
  [(40, "Lparen"), (41, "Rparen"), (42, "Star"), (43, "Plus"), (45, "Dash"), (46, "Dot"),
    (91, "Lbracket"), (93, "Rbracket"), (92, "Backslash"), (94, "Hat"), (123, "Lbrace"),
    (125, "Rbrace"), (124, "Vbar"), (60, "Langle"), (62, "Rangle"), (63, "QuestionMark")]

/-! ## Tokens -/

def addSpecialTokens (specials : List (Nat × String)) : List (BuilderCall SemanticRule) :=
  specials.map fun e => .addToken e.2 e.1

/-- A comment has every character but those of the end of its line. -/
def commentCharacters : RegexASTGroup := (({} : RegexASTGroup).addLiteral 13).addLiteral 10

def addLexicalRules (specials : List (Nat × String)) : List (BuilderCall SemanticRule) :=
  addSpecialTokens specials ++
  [.addToken "Tab" 9, .addToken "NewLine" 10, .addToken "VerticalTab" 11, .addToken "FormFeed" 12,
    .addToken "CarriageReturn" 13, .addToken "Space" 32, .addToken "Bang" 33,
    .addToken "Quotation" 34, .addToken "Hash" 35, .addToken "DollarSign" 36,
    .addToken "Percent" 37, .addToken "Ampersand" 38, .addToken "Apostrophe" 39,
    .addToken "Comma" 44, .addToken "ForwardSlash" 47,
    .addTokenGroup "Numeric" (.ofRange 48 57),
    .addToken "Colon" 58, .addToken "SemiColon" 59, .addToken "Equal" 61, .addToken "At" 64,
    .addTokenGroup "AlphaNumeric" (.ofRange 97 122),
    .addTokenGroup "AlphaNumeric" (.ofRange 65 90),
    .addTokenGroup "AlphaNumeric" (.ofRange 48 57),
    .addToken "Underscore" 95, .addToken "Backtick" 96, .addToken "Tilde" 126,
    .addToken "d" 100, .addToken "f" 102, .addToken "n" 110, .addToken "r" 114,
    .addToken "s" 115, .addToken "t" 116, .addToken "v" 118, .addToken "w" 119,
    .addToken "D" 68, .addToken "S" 83, .addToken "W" 87,
    .addTokenChain "Delimiters" 100 101 [108, 105, 109, 105, 116, 101, 114, 115],
    .addTokenGroup "CommentCharacters" commentCharacters,
    .addTokenGroup "IdentifierCharacters" (.ofRange 97 122),
    .addTokenGroup "IdentifierCharacters" (.ofRange 65 90),
    .addTokenGroup "IdentifierCharacters" (.ofRange 48 57),
    .addToken "IdentifierCharacters" 95,
    .addTokenGroup "DelimiterCharacters" (.ofRange 33 126),
    .addToken "DelimiterCharacters" 32]

/-! ## Productions -/

/-- A production with its rule. -/
abbrev Entry := (String × List String) × Option SemanticRule

/-- The tokens of one character that stand for themselves in a regex. -/
def literalTokens : List String :=
  ["Space", "Bang", "Quotation", "Hash", "DollarSign", "Percent", "Ampersand", "Apostrophe",
    "Comma", "ForwardSlash", "AlphaNumeric", "Colon", "SemiColon", "Equal", "At", "Underscore",
    "Backtick", "Tilde"]

def schemaProductions : List Entry :=
  [(("Schema", ["Comment"]), some newSchemaRule),
    (("Schema", ["SchemaVar"]), some newSchemaRuleWithVar),
    (("Schema", ["Delimiters", "Colon", "DelimiterString"]), some newSchemaRuleWithDelimiters),
    (("Schema", ["Schema", "PortableNewLine"]), some identityRuleParserASTSchema),
    (("Schema", ["Schema", "PortableNewLine", "Comment"]), some identityRuleParserASTSchema),
    (("Schema", ["Schema", "PortableNewLine", "SchemaVar"]), some existingSchemaRule),
    (("Schema", ["Schema", "PortableNewLine", "Delimiters", "Colon", "DelimiterString"]),
      some existingSchemaRuleWithDelimiter),
    (("DelimiterString", ["DelimiterString", "DelimiterCharacter"]),
      some existingDelimiterStringRule),
    (("DelimiterString", ["DelimiterString", "WhiteSpaceCharacter"]),
      some existingDelimiterStringRule),
    (("DelimiterString", ["DelimiterCharacter"]), some newDelimiterStringRule),
    (("DelimiterString", ["WhiteSpaceCharacter"]), some newDelimiterStringRule),
    (("DelimiterCharacter", ["DelimiterCharacters"]), some regexLiteralRule),
    (("PortableNewLine", ["CarriageReturn", "NewLine"]), none),
    (("PortableNewLine", ["NewLine"]), none),
    (("Comment", ["ForwardSlash", "ForwardSlash", "Text"]), none),
    (("Text", ["Text", "CommentCharacters"]), none),
    (("Text", ["CommentCharacters"]), none),
    (("Text", ["Text", "Delimiters"]), none),
    (("Text", ["Delimiters"]), none),
    (("SchemaVar", ["WhitespaceStar", "Identifier", "Colon", "Regex"]), some schemaVarRule),
    (("Identifier", ["Identifier", "IdentifierCharacters"]), some existingIdentifierRule),
    (("Identifier", ["IdentifierCharacters"]), some newIdentifierRule),
    (("WhitespaceStar", ["WhitespaceStar", "Space"]), none),
    (("WhitespaceStar", []), none)]

def regexProductions (castPow : Nat → UInt32) : List Entry :=
  [(("Regex", ["Or"]), some regexIdentityRule),
    (("Or", ["Or", "Vbar", "Concat"]), some regexOrRule),
    (("Or", ["Concat"]), some regexIdentityRule),
    (("Concat", ["Concat", "Quantity"]), some regexCatRule),
    (("Concat", ["Concat", "CompleteGroup"]), some regexCatRule),
    (("Concat", ["Quantity"]), some regexIdentityRule),
    (("Concat", ["CompleteGroup"]), some regexIdentityRule),
    (("Quantity", ["CompleteGroup", "Star"]), some SemanticRules.regexMatchZeroOrMoreRule),
    (("Quantity", ["CompleteGroup", "Plus"]), some SemanticRules.regexMatchOneOrMoreRule),
    (("Quantity", ["CompleteGroup", "QuestionMark"]), some SemanticRules.regexMatchZeroOrOneRule),
    (("Quantity", ["CompleteGroup", "Lbrace", "Integer", "Rbrace"]),
      some (SemanticRules.regexMatchExactlyRule castPow)),
    (("Quantity", ["CompleteGroup", "Lbrace", "Integer", "Comma", "Integer", "Rbrace"]),
      some (SemanticRules.regexMatchRangeRule castPow)),
    (("CompleteGroup", ["IncompleteGroup", "Rbracket"]), some regexIdentityRule),
    (("CompleteGroup", ["Wildcard"]), some regexIdentityRule),
    (("CompleteGroup", ["Shorthand"]), some regexIdentityRule),
    (("CompleteGroup", ["Literal"]), some regexIdentityRule),
    (("CompleteGroup", ["Dash"]), some regexLiteralRule),
    (("IncompleteGroup", ["IncompleteGroup", "LiteralRange"]),
      some regexAddRangeExistingGroupRule),
    (("IncompleteGroup", ["IncompleteGroup", "Shorthand"]), some regexAddRangeExistingGroupRule),
    (("IncompleteGroup", ["IncompleteGroup", "Literal"]), some regexAddLiteralExistingGroupRule),
    (("IncompleteGroup", ["Lbracket", "LiteralRange"]), some regexAddRangeNewGroupRule),
    (("IncompleteGroup", ["Lbracket", "Shorthand"]), some regexAddRangeNewGroupRule),
    (("IncompleteGroup", ["Lbracket", "Literal"]), some regexAddLiteralNewGroupRule),
    (("IncompleteGroup", ["Lbracket", "Hat"]), some regexComplementIncompleteGroupRule),
    (("LiteralRange", ["Literal", "Dash", "Literal"]), some regexRangeRule)]

def literalProductions : List Entry :=
  (literalTokens.map fun token => (("Literal", [token]), some regexLiteralRule)) ++
  [(("Literal",
      ["Lparen", "QuestionMark", "Langle", "Identifier", "Rangle", "Regex", "Rparen"]),
      some regexCaptureRule),
    (("Literal", ["Lparen", "Regex", "Rparen"]), some regexMiddleIdentityRule)]

def escapeProductions (specials : List (Nat × String)) : List Entry :=
  specials.map fun e => (("Literal", ["Backslash", e.2]), some regexCancelLiteralRule)

def characterProductions : List Entry :=
  [(("Literal", ["WhiteSpaceCharacter"]), some regexIdentityRule),
    (("WhiteSpaceCharacter", ["Backslash", "t"]), some regexTabRule),
    (("WhiteSpaceCharacter", ["Backslash", "n"]), some regexNewlineRule),
    (("WhiteSpaceCharacter", ["Backslash", "v"]), some regexVerticalTabRule),
    (("WhiteSpaceCharacter", ["Backslash", "f"]), some regexFormFeedRule),
    (("WhiteSpaceCharacter", ["Backslash", "r"]), some regexCharReturnRule),
    (("Integer", ["Integer", "Numeric"]), some SemanticRules.regexExistingIntegerRule),
    (("Integer", ["Numeric"]), some SemanticRules.regexNewIntegerRule),
    (("Wildcard", ["Dot"]), some regexWildcardRule),
    (("Shorthand", ["Backslash", "d"]), some regexDigitRule),
    (("Shorthand", ["Backslash", "D"]), some regexNonDigitRule),
    (("Shorthand", ["Backslash", "s"]), some regexWhiteSpaceRule),
    (("Shorthand", ["Backslash", "S"]), some regexNonWhiteSpaceRule),
    (("Shorthand", ["Backslash", "w"]), some regexWordRule),
    (("Shorthand", ["Backslash", "W"]), some regexNonWordRule)]

/-- The productions of `add_productions`, in its order. -/
def productions (castPow : Nat → UInt32) (specials : List (Nat × String)) : List Entry :=
  schemaProductions ++ regexProductions castPow ++ literalProductions ++
    escapeProductions specials ++ characterProductions

def addProductions (castPow : Nat → UInt32) (specials : List (Nat × String)) :
    List (BuilderCall SemanticRule) :=
  (productions castPow specials).map fun e => .production e.1.1 e.1.2 e.2

/-- What the constructor calls before it generates the tables. -/
def calls (castPow : Nat → UInt32) (specials : List (Nat × String)) :
    List (BuilderCall SemanticRule) :=
  addLexicalRules specials ++ addProductions castPow specials

theorem productionCalls_calls (castPow : Nat → UInt32) (specials : List (Nat × String)) :
    NamedGrammar.productionCalls (calls castPow specials) = productions castPow specials := by
  have hproductions : ∀ entries : List Entry, NamedGrammar.productionCalls
      (entries.map fun e => BuilderCall.production e.1.1 e.1.2 e.2) = entries := by
    intro entries
    induction entries with
    | nil => rfl
    | cons e entries ih => exact congrArg (e :: ·) ih
  have hspecials : NamedGrammar.productionCalls (addSpecialTokens specials) = [] := by
    induction specials with
    | nil => rfl
    | cons e specials ih => exact ih
  have htokens : NamedGrammar.productionCalls (addLexicalRules specials) = [] := by
    unfold NamedGrammar.productionCalls at hspecials ⊢
    unfold addLexicalRules
    rw [List.filterMap_append, hspecials]
    rfl
  have hlater := hproductions (productions castPow specials)
  unfold NamedGrammar.productionCalls at htokens hlater ⊢
  unfold calls addProductions
  rw [List.filterMap_append, htokens, hlater]
  rfl

theorem hasRoot_calls (castPow : Nat → UInt32) (specials : List (Nat × String)) :
    GrammarBuilder.HasRoot (calls castPow specials) := by
  unfold GrammarBuilder.HasRoot
  rw [productionCalls_calls]
  exact ⟨_, rfl, by decide⟩

def grammar (castPow : Nat → UInt32) (specials : List (Nat × String)) : ParserGrammar :=
  GrammarBuilder.grammar (calls castPow specials) (hasRoot_calls castPow specials)

/-- `m_semantic_rule` of a production. -/
def semanticRule (castPow : Nat → UInt32) (specials : List (Nat × String)) (production : Nat) :
    Option SemanticRule :=
  ((calls castPow specials).foldl GrammarBuilder.call .new).semanticRules.getD production none

end SchemaParser

end LogSurgeon
