import LogSurgeon.SchemaParser.SchemaGrammar
import LogSurgeon.SchemaParser.SemanticParse

/-!
# The sorts of the schema grammar

Every symbol of the schema grammar has a sort, which says what its AST is.  The
rules keep to the sorts: from symbols of the sorts of the body, a rule makes one
of the sort of the head, or it reports an error of the schema.

* `reported` has the exceptions that are left: `at(0)` of a token without text,
  and an element of a bracket expression that is no literal.
* No rule finds a symbol of the other alternative, an AST of another class or a
  null pointer, and no regex gets an integer.
* A shorthand is never a negated group, so the constructor that looks for one
  does not throw.
-/

namespace LogSurgeon

open Lib

namespace SchemaParser

open SemanticRules

/-! ## Sorts -/

inductive SymbolSort where
  | token
  | noAST
  | identifier
  | delimiterString
  | schemaVar
  | schema
  | regex
  | literal
  | group
  | positiveGroup
  | integer
deriving DecidableEq, Repr

def IsSchemaVar (ast : Option ParserAST) : Prop :=
  ∃ name regex lineNum, ast = some (.schemaVar name regex lineNum)

/-- The value of a `char`. -/
def IsCharacter (c : Nat) : Prop := ∃ b, c = charValue b

def IsDelimiterString (ast : Option ParserAST) : Prop :=
  ∃ delimiters, ast = some (.delimiterString delimiters) ∧ delimiters ≠ [] ∧
    ∀ c ∈ delimiters, IsCharacter c

/-- What a symbol of the sort has. -/
def SymbolSort.Holds : SymbolSort → RuleSymbol → Prop
  | token, v => ∃ token, v = .token token
  | noAST, v => v = .nonTerminal none
  | identifier, v => ∃ name, v = .nonTerminal (some (.identifier name))
  | delimiterString, v => ∃ ast, v = .nonTerminal ast ∧ IsDelimiterString ast
  | schemaVar, v => ∃ ast, v = .nonTerminal ast ∧ IsSchemaVar ast
  | schema, v => ∃ schemaVars delimiters, v = .nonTerminal (some (.schema schemaVars delimiters)) ∧
      (∀ var ∈ schemaVars, IsSchemaVar var) ∧ ∀ ds ∈ delimiters, IsDelimiterString ds
  | regex, v => ∃ ast, v = .nonTerminal (parserValue ast)
  | literal, v => ∃ c, v = .nonTerminal (parserValue (.mkLiteral c)) ∧ IsCharacter c
  | group, v => ∃ g, v = .nonTerminal (parserValue (.mkGroup g))
  | positiveGroup, v => ∃ g, v = .nonTerminal (parserValue (.mkGroup g)) ∧ g.negate = false
  | integer, v => ∃ ast, v = .nonTerminal (some (.value (.integer ast)))

/-- The sort of a nonterminal. -/
def nonTerminalSorts : List (String × SymbolSort) :=
  [("Schema", .schema), ("Comment", .noAST), ("SchemaVar", .schemaVar),
    ("DelimiterString", .delimiterString), ("DelimiterCharacter", .literal),
    ("WhiteSpaceCharacter", .literal), ("PortableNewLine", .noAST), ("Text", .noAST),
    ("Identifier", .identifier), ("WhitespaceStar", .noAST), ("Regex", .regex), ("Or", .regex),
    ("Concat", .regex), ("Quantity", .regex), ("CompleteGroup", .regex),
    ("IncompleteGroup", .group), ("LiteralRange", .positiveGroup), ("Literal", .regex),
    ("Integer", .integer), ("Wildcard", .group), ("Shorthand", .positiveGroup)]

/-- Every other symbol is a token. -/
def sortOf (name : String) : SymbolSort := (nonTerminalSorts.lookup name).getD .token

/-- The exceptions that a schema can raise. -/
def reported : List RuleFault :=
  [.emptyToken,
    .illegalCharacters "RegexASTGroup(RegexASTGroup, RegexASTLiteral)" "right",
    .illegalCharacters "RegexASTGroup(RegexASTLiteral)" "right",
    .illegalCharacters "RegexASTGroup(RegexASTLiteral, RegexASTLiteral)" "left",
    .illegalCharacters "RegexASTGroup(RegexASTLiteral, RegexASTLiteral)" "right"]

/-! ## What the casts find -/

/-- A step of a rule raises no other exception. -/
abbrev Casts {α : Type} (x : Except RuleFault α) (P : α → Prop) : Prop :=
  Yields x P fun fault => fault ∈ reported

/-- The symbols of a body have its sorts. -/
def Fits (body : List SymbolSort) (m : NonTerminal) : Prop :=
  List.Forall₂ SymbolSort.Holds body m.symbols

section Casts

variable {body : List SymbolSort} {m : NonTerminal} {i : Nat} {sort : SymbolSort}

theorem Fits.exists_symbol (h : Fits body m) (hi : body[i]? = some sort) :
    ∃ v, m.symbols[i]? = some v ∧ sort.Holds v := by
  unfold Fits at h
  generalize m.symbols = symbols at h
  induction h generalizing i with
  | nil => cases hi
  | cons hv _ ih =>
    cases i with
    | zero =>
      cases hi
      exact ⟨_, rfl, hv⟩
    | succ i => exact ih hi

theorem Fits.tokenCast (h : Fits body m) (hi : body[i]? = some .token) :
    Casts (m.tokenCast i) fun _ => True := by
  obtain ⟨v, hv, token, rfl⟩ := h.exists_symbol hi
  unfold NonTerminal.tokenCast
  rw [hv]
  trivial

theorem Fits.charAt (h : Fits body m) (hi : body[i]? = some .token) :
    Casts (m.charAt i) fun _ => True := by
  refine (h.tokenCast hi).bind fun token _ => ?_
  split
  · trivial
  · exact List.mem_cons_self

theorem Fits.releaseParserAST (h : Fits body m) (hi : body[i]? = some sort)
    (hsort : sort ≠ .token) :
    Casts (m.releaseParserAST i) fun ast => sort.Holds (.nonTerminal ast) := by
  obtain ⟨v, hv, hholds⟩ := h.exists_symbol hi
  unfold NonTerminal.releaseParserAST
  rw [hv]
  cases v with
  | nonTerminal ast => exact hholds
  | token token =>
    exfalso
    cases sort with
    | token => exact hsort rfl
    | noAST | identifier | regex | literal | group | integer => simp [SymbolSort.Holds] at hholds
    | delimiterString | schemaVar | schema | positiveGroup => simp [SymbolSort.Holds] at hholds

theorem Fits.getParserAST (h : Fits body m) (hi : body[i]? = some sort) (hsort : sort ≠ .token)
    (hast : sort ≠ .noAST) :
    Casts (m.getParserAST i) fun ast => sort.Holds (.nonTerminal (some ast)) := by
  refine (h.releaseParserAST hi hsort).bind fun ast hholds => ?_
  cases ast with
  | some ast => exact hholds
  | none =>
    exfalso
    cases sort with
    | token => exact hsort rfl
    | noAST => exact hast rfl
    | identifier | regex | literal | group | integer =>
      simp [SymbolSort.Holds, parserValue] at hholds
    | delimiterString | schemaVar | schema | positiveGroup =>
      simp [SymbolSort.Holds, parserValue, IsDelimiterString, IsSchemaVar] at hholds

/-- The sorts whose AST is a regex. -/
def SymbolSort.IsRegex : SymbolSort → Bool
  | regex | literal | group | positiveGroup => true
  | _ => false

theorem Fits.getRegex (h : Fits body m) (hi : body[i]? = some sort) (hsort : sort.IsRegex) :
    Casts (m.getRegex i) fun r => ∃ ast, r = .regex ast ∧
      sort.Holds (.nonTerminal (parserValue ast)) := by
  have hne : sort ≠ .token ∧ sort ≠ .noAST := by
    constructor <;> rintro rfl <;> cases hsort
  refine (h.getParserAST hi hne.1 hne.2).bind fun ast hholds => ?_
  have hregex : ∃ r, ast = .value (.regex r) := by
    cases sort with
    | regex | group =>
      obtain ⟨r, hr⟩ := hholds
      cases hr
      exact ⟨_, rfl⟩
    | literal | positiveGroup =>
      obtain ⟨r, hr, -⟩ := hholds
      cases hr
      exact ⟨_, rfl⟩
    | _ => cases hsort
  obtain ⟨r, rfl⟩ := hregex
  exact ⟨r, rfl, hholds⟩

theorem Fits.moveRegex (h : Fits body m) (hi : body[i]? = some sort) (hsort : sort.IsRegex) :
    Casts (m.moveRegex i) fun _ => True := by
  refine (h.getRegex hi hsort).bind fun r hr => ?_
  obtain ⟨ast, rfl, -⟩ := hr
  trivial

theorem Fits.literalCast (h : Fits body m) (hi : body[i]? = some sort) (hsort : sort.IsRegex) :
    Casts (m.literalCast i) fun _ => True := by
  refine (h.getRegex hi hsort).bind fun r _ => ?_
  split <;> trivial

theorem Fits.getCharacter (h : Fits body m) (hi : body[i]? = some .literal) :
    Casts (m.getCharacter i) IsCharacter := by
  have hliteral : Casts (m.literalCast i) fun c => ∃ a, c = some a ∧ IsCharacter a := by
    refine (h.getRegex hi rfl).bind fun r hr => ?_
    obtain ⟨ast, rfl, c, hc, hcharacter⟩ := hr
    cases hc
    exact ⟨c, rfl, hcharacter⟩
  refine hliteral.bind fun c hc => ?_
  obtain ⟨a, rfl, hcharacter⟩ := hc
  exact hcharacter

theorem Fits.groupCast (h : Fits body m) (hi : body[i]? = some .group) :
    Casts (m.groupCast i) fun g => ∃ a, g = some a := by
  refine (h.getRegex hi rfl).bind fun r hr => ?_
  obtain ⟨ast, rfl, g, hg⟩ := hr
  cases hg
  exact ⟨g, rfl⟩

theorem Fits.positiveGroupCast (h : Fits body m) (hi : body[i]? = some .positiveGroup) :
    Casts (m.groupCast i) fun g => ∃ a, g = some a ∧ a.negate = false := by
  refine (h.getRegex hi rfl).bind fun r hr => ?_
  obtain ⟨ast, rfl, g, hg, hnegate⟩ := hr
  cases hg
  exact ⟨g, rfl, hnegate⟩

theorem Fits.integerCast (h : Fits body m) (hi : body[i]? = some .integer) :
    Casts (m.integerCast i) fun _ => True := by
  have hregex : Casts (m.getRegex i) fun r => ∃ ast, r = .integer ast := by
    refine (h.getParserAST hi (by decide) (by decide)).bind fun ast hast => ?_
    obtain ⟨integer, hinteger⟩ := hast
    cases hinteger
    exact ⟨integer, rfl⟩
  refine hregex.bind fun r hr => ?_
  obtain ⟨ast, rfl⟩ := hr
  trivial

theorem Fits.identifierName (h : Fits body m) (hi : body[i]? = some .identifier) :
    Casts (identifierName m i) fun _ => True := by
  refine (h.getParserAST hi (by decide) (by decide)).bind fun ast hast => ?_
  obtain ⟨name, hname⟩ := hast
  cases hname
  trivial

end Casts

/-! ## What the rules make -/

/-- From symbols of the sorts, the rule makes one of the sort of the head. -/
def RuleFits (rule : Option SemanticRule) (body : List SymbolSort) (head : SymbolSort) : Prop :=
  ∀ values address, List.Forall₂ SymbolSort.Holds body values →
    Casts (runRule rule values address) head.Holds

section Rules

variable {rule : SemanticRule} {body : List SymbolSort} {head sort sort' : SymbolSort}

theorem ruleFits_of (h : ∀ m, Fits body m → Casts (rule m) fun ast => head.Holds (.nonTerminal ast)) :
    RuleFits (some rule) body head :=
  fun values address hvalues => (h ⟨values, address⟩ hvalues).bind fun _ hast => hast

theorem ruleFits_none : RuleFits none body .noAST := fun _ _ _ => rfl

/-- A literal is a regex. -/
theorem RuleFits.regex (h : RuleFits (some rule) body .literal) :
    RuleFits (some rule) body .regex := by
  intro values address hvalues
  refine (h values address hvalues).mono (fun v hv => ?_) fun fault hfault => hfault
  obtain ⟨c, rfl, -⟩ := hv
  exact ⟨_, rfl⟩

/-! ### Identifiers, variables and delimiters -/

theorem newIdentifierRule_fits (h₀ : body[0]? = some .token) :
    RuleFits (some newIdentifierRule) body .identifier :=
  ruleFits_of fun _ h => (h.charAt h₀).bind fun _ _ => ⟨_, rfl⟩

theorem existingIdentifierRule_fits (h₀ : body[0]? = some .identifier)
    (h₁ : body[1]? = some .token) :
    RuleFits (some existingIdentifierRule) body .identifier := by
  refine ruleFits_of fun m h => (h.releaseParserAST h₀ (by decide)).bind fun ast hast => ?_
  obtain ⟨name, hname⟩ := hast
  cases hname
  exact (h.charAt h₁).bind fun _ _ => ⟨_, rfl⟩

theorem schemaVarRule_fits (h₁ : body[1]? = some .identifier) (h₂ : body[2]? = some .token)
    (h₃ : body[3]? = some .regex) : RuleFits (some schemaVarRule) body .schemaVar :=
  ruleFits_of fun _ h => (h.identifierName h₁).bind fun name _ =>
    (h.moveRegex h₃ rfl).bind fun regex _ => (h.tokenCast h₂).bind fun _ _ =>
      ⟨_, rfl, name, regex, _, rfl⟩

theorem existingDelimiterStringRule_fits (h₀ : body[0]? = some .delimiterString)
    (h₁ : body[1]? = some .literal) :
    RuleFits (some existingDelimiterStringRule) body .delimiterString := by
  refine ruleFits_of fun m h => (h.releaseParserAST h₀ (by decide)).bind fun ast hast => ?_
  obtain ⟨ast', hast', delimiters, rfl, -, hcharacters⟩ := hast
  cases hast'
  refine (h.getCharacter h₁).bind fun c hc => ⟨_, rfl, delimiters ++ [c], rfl, by simp, ?_⟩
  exact List.forall_mem_append.2 ⟨hcharacters, List.forall_mem_singleton.2 hc⟩

theorem newDelimiterStringRule_fits (h₀ : body[0]? = some .literal) :
    RuleFits (some newDelimiterStringRule) body .delimiterString :=
  ruleFits_of fun _ h => (h.getCharacter h₀).bind fun c hc =>
    ⟨_, rfl, [c], rfl, by simp, List.forall_mem_singleton.2 hc⟩

/-! ### Schemas -/

theorem newSchemaRule_fits : RuleFits (some newSchemaRule) body .schema :=
  ruleFits_of fun _ _ => ⟨[], [], rfl, List.forall_mem_nil _, List.forall_mem_nil _⟩

theorem newSchemaRuleWithVar_fits (h₀ : body[0]? = some .schemaVar) :
    RuleFits (some newSchemaRuleWithVar) body .schema := by
  refine ruleFits_of fun m h => (h.releaseParserAST h₀ (by decide)).bind fun ast hast => ?_
  obtain ⟨ast', hast', hvar⟩ := hast
  cases hast'
  exact ⟨[ast], [], rfl, List.forall_mem_singleton.2 hvar, List.forall_mem_nil _⟩

theorem newSchemaRuleWithDelimiters_fits (h₂ : body[2]? = some .delimiterString) :
    RuleFits (some newSchemaRuleWithDelimiters) body .schema := by
  refine ruleFits_of fun m h => (h.releaseParserAST h₂ (by decide)).bind fun ast hast => ?_
  obtain ⟨ast', hast', hdelimiters⟩ := hast
  cases hast'
  exact ⟨[], [ast], rfl, List.forall_mem_nil _, List.forall_mem_singleton.2 hdelimiters⟩

theorem existingSchemaRuleWithDelimiter_fits (h₀ : body[0]? = some .schema)
    (h₄ : body[4]? = some .delimiterString) :
    RuleFits (some existingSchemaRuleWithDelimiter) body .schema := by
  refine ruleFits_of fun m h => (h.releaseParserAST h₀ (by decide)).bind fun ast hast => ?_
  obtain ⟨schemaVars, delimiters, hschema, hvars, hdelimiters⟩ := hast
  cases hschema
  refine (h.releaseParserAST h₄ (by decide)).bind fun ast hast => ?_
  obtain ⟨ast', hast', hnew⟩ := hast
  cases hast'
  exact ⟨schemaVars, delimiters ++ [ast], rfl, hvars,
    List.forall_mem_append.2 ⟨hdelimiters, List.forall_mem_singleton.2 hnew⟩⟩

theorem existingSchemaRule_fits (h₀ : body[0]? = some .schema) (h₂ : body[2]? = some .schemaVar) :
    RuleFits (some existingSchemaRule) body .schema := by
  refine ruleFits_of fun m h => (h.releaseParserAST h₀ (by decide)).bind fun ast hast => ?_
  obtain ⟨schemaVars, delimiters, hschema, hvars, hdelimiters⟩ := hast
  cases hschema
  refine (h.releaseParserAST h₂ (by decide)).bind fun ast hast => ?_
  obtain ⟨ast', hast', hnew⟩ := hast
  cases hast'
  exact ⟨schemaVars ++ [ast], delimiters, rfl,
    List.forall_mem_append.2 ⟨hvars, List.forall_mem_singleton.2 hnew⟩, hdelimiters⟩

theorem identityRuleParserASTSchema_fits (h₀ : body[0]? = some .schema) :
    RuleFits (some identityRuleParserASTSchema) body .schema := by
  refine ruleFits_of fun m h => (h.releaseParserAST h₀ (by decide)).bind fun ast hast => ?_
  obtain ⟨schemaVars, delimiters, hschema, hvars, hdelimiters⟩ := hast
  cases hschema
  exact ⟨schemaVars, delimiters, rfl, hvars, hdelimiters⟩

/-! ### Regexes -/

theorem regexCaptureRule_fits (h₃ : body[3]? = some .identifier) (h₅ : body[5]? = some .regex) :
    RuleFits (some regexCaptureRule) body .regex :=
  ruleFits_of fun _ h => (h.identifierName h₃).bind fun _ _ =>
    (h.moveRegex h₅ rfl).bind fun _ _ => ⟨_, rfl⟩

theorem regexIdentityRule_fits (h₀ : body[0]? = some sort) (hsort : sort.IsRegex) :
    RuleFits (some regexIdentityRule) body .regex := by
  refine ruleFits_of fun m h => (h.getRegex h₀ hsort).bind fun r hr => ?_
  obtain ⟨ast, rfl, -⟩ := hr
  exact ⟨ast, rfl⟩

theorem regexMiddleIdentityRule_fits (h₁ : body[1]? = some sort) (hsort : sort.IsRegex) :
    RuleFits (some regexMiddleIdentityRule) body .regex := by
  refine ruleFits_of fun m h => (h.getRegex h₁ hsort).bind fun r hr => ?_
  obtain ⟨ast, rfl, -⟩ := hr
  exact ⟨ast, rfl⟩

theorem regexCatRule_fits (h₀ : body[0]? = some sort) (hsort : sort.IsRegex)
    (h₁ : body[1]? = some sort') (hsort' : sort'.IsRegex) :
    RuleFits (some regexCatRule) body .regex :=
  ruleFits_of fun _ h => (h.moveRegex h₀ hsort).bind fun _ _ =>
    (h.moveRegex h₁ hsort').bind fun _ _ => ⟨_, rfl⟩

theorem regexOrRule_fits (h₀ : body[0]? = some sort) (hsort : sort.IsRegex)
    (h₂ : body[2]? = some sort') (hsort' : sort'.IsRegex) :
    RuleFits (some regexOrRule) body .regex :=
  ruleFits_of fun _ h => (h.moveRegex h₀ hsort).bind fun _ _ =>
    (h.moveRegex h₂ hsort').bind fun _ _ => ⟨_, rfl⟩

theorem regexMatchZeroOrMoreRule_fits (h₀ : body[0]? = some .regex) :
    RuleFits (some SemanticRules.regexMatchZeroOrMoreRule) body .regex :=
  ruleFits_of fun _ h => (h.moveRegex h₀ rfl).bind fun _ _ => ⟨_, rfl⟩

theorem regexMatchOneOrMoreRule_fits (h₀ : body[0]? = some .regex) :
    RuleFits (some SemanticRules.regexMatchOneOrMoreRule) body .regex :=
  ruleFits_of fun _ h => (h.moveRegex h₀ rfl).bind fun _ _ => ⟨_, rfl⟩

theorem regexMatchZeroOrOneRule_fits (h₀ : body[0]? = some .regex) :
    RuleFits (some SemanticRules.regexMatchZeroOrOneRule) body .regex :=
  ruleFits_of fun _ h => (h.moveRegex h₀ rfl).bind fun _ _ => ⟨_, rfl⟩

theorem regexMatchExactlyRule_fits (castPow : Nat → UInt32) (h₀ : body[0]? = some .regex)
    (h₂ : body[2]? = some .integer) :
    RuleFits (some (SemanticRules.regexMatchExactlyRule castPow)) body .regex :=
  ruleFits_of fun _ h => (h.integerCast h₂).bind fun _ _ =>
    (h.moveRegex h₀ rfl).bind fun _ _ => ⟨_, rfl⟩

theorem regexMatchRangeRule_fits (castPow : Nat → UInt32) (h₀ : body[0]? = some .regex)
    (h₂ : body[2]? = some .integer) (h₄ : body[4]? = some .integer) :
    RuleFits (some (SemanticRules.regexMatchRangeRule castPow)) body .regex :=
  ruleFits_of fun _ h => (h.integerCast h₂).bind fun _ _ => (h.integerCast h₄).bind fun _ _ =>
    (h.moveRegex h₀ rfl).bind fun _ _ => ⟨_, rfl⟩

/-! ### Bracket expressions -/

theorem regexAddLiteralExistingGroupRule_fits (h₀ : body[0]? = some .group)
    (h₁ : body[1]? = some .regex) :
    RuleFits (some regexAddLiteralExistingGroupRule) body .group := by
  refine ruleFits_of fun m h => (h.groupCast h₀).bind fun g hg =>
    (h.literalCast h₁ rfl).bind fun c _ => ?_
  obtain ⟨left, rfl⟩ := hg
  cases c with
  | none => exact List.mem_cons_of_mem _ List.mem_cons_self
  | some right => exact ⟨_, rfl⟩

theorem regexAddRangeExistingGroupRule_fits (h₀ : body[0]? = some .group)
    (h₁ : body[1]? = some .positiveGroup) :
    RuleFits (some regexAddRangeExistingGroupRule) body .group := by
  refine ruleFits_of fun m h => (h.groupCast h₀).bind fun g hg =>
    (h.positiveGroupCast h₁).bind fun g' hg' => ?_
  obtain ⟨left, rfl⟩ := hg
  obtain ⟨right, rfl, hnegate⟩ := hg'
  have hgroup : RegexASTGroup.ofGroups (some left) (some right) =
      .ok { negate := left.negate, ranges := left.ranges ++ right.ranges } :=
    if_neg (by simp [hnegate])
  rw [hgroup]
  exact ⟨_, rfl⟩

theorem regexAddLiteralNewGroupRule_fits (h₁ : body[1]? = some .regex) :
    RuleFits (some regexAddLiteralNewGroupRule) body .group := by
  refine ruleFits_of fun m h => (h.literalCast h₁ rfl).bind fun c _ => ?_
  cases c with
  | none => exact List.mem_cons_of_mem _ (List.mem_cons_of_mem _ List.mem_cons_self)
  | some right => exact ⟨_, rfl⟩

theorem regexAddRangeNewGroupRule_fits (h₁ : body[1]? = some .positiveGroup) :
    RuleFits (some regexAddRangeNewGroupRule) body .group := by
  refine ruleFits_of fun m h => (h.positiveGroupCast h₁).bind fun g hg => ?_
  obtain ⟨right, rfl, -⟩ := hg
  exact ⟨_, rfl⟩

theorem regexComplementIncompleteGroupRule_fits :
    RuleFits (some regexComplementIncompleteGroupRule) body .group :=
  ruleFits_of fun _ _ => ⟨_, rfl⟩

theorem regexRangeRule_fits (h₀ : body[0]? = some .regex) (h₂ : body[2]? = some .regex) :
    RuleFits (some regexRangeRule) body .positiveGroup := by
  refine ruleFits_of fun m h => (h.literalCast h₀ rfl).bind fun left _ =>
    (h.literalCast h₂ rfl).bind fun right _ => ?_
  cases left with
  | none => exact List.mem_cons_of_mem _ (List.mem_cons_of_mem _
      (List.mem_cons_of_mem _ List.mem_cons_self))
  | some left =>
    cases right with
    | none => exact List.mem_cons_of_mem _ (List.mem_cons_of_mem _
        (List.mem_cons_of_mem _ (List.mem_cons_of_mem _ List.mem_cons_self)))
    | some right => exact ⟨_, rfl, rfl⟩

/-! ### Characters and shorthands -/

theorem regexLiteralRule_fits (h₀ : body[0]? = some .token) :
    RuleFits (some regexLiteralRule) body .literal :=
  ruleFits_of fun _ h => (h.charAt h₀).bind fun b _ => ⟨_, rfl, b, rfl⟩

theorem regexCancelLiteralRule_fits (h₁ : body[1]? = some .token) :
    RuleFits (some regexCancelLiteralRule) body .literal :=
  ruleFits_of fun _ h => (h.charAt h₁).bind fun b _ => ⟨_, rfl, b, rfl⟩

theorem regexExistingIntegerRule_fits (h₀ : body[0]? = some .integer)
    (h₁ : body[1]? = some .token) :
    RuleFits (some SemanticRules.regexExistingIntegerRule) body .integer :=
  ruleFits_of fun _ h => (h.integerCast h₀).bind fun _ _ => (h.charAt h₁).bind fun _ _ => ⟨_, rfl⟩

theorem regexNewIntegerRule_fits (h₀ : body[0]? = some .token) :
    RuleFits (some SemanticRules.regexNewIntegerRule) body .integer :=
  ruleFits_of fun _ h => (h.charAt h₀).bind fun _ _ => ⟨_, rfl⟩

/-- A rule that makes a character. -/
theorem ruleFits_character {c : Nat} (hc : IsCharacter c) :
    RuleFits (some fun _ => return parserValue (.mkLiteral c)) body .literal :=
  ruleFits_of fun _ _ => ⟨c, rfl, hc⟩

theorem regexWildcardRule_fits : RuleFits (some regexWildcardRule) body .group :=
  ruleFits_of fun _ _ => ⟨_, rfl⟩

/-- A rule that makes a group that is not negated. -/
theorem ruleFits_group {g : RegexASTGroup} (hg : g.negate = false) :
    RuleFits (some fun _ => return parserValue (.mkGroup g)) body .positiveGroup :=
  ruleFits_of fun _ _ => ⟨g, rfl, hg⟩

end Rules

/-! ## The productions -/

/-- The rule of the production keeps to the sorts of its symbols. -/
def EntryFits (e : Entry) : Prop := RuleFits e.2 (e.1.2.map sortOf) (sortOf e.1.1)

theorem schemaProductions_fit : ∀ e ∈ schemaProductions, EntryFits e := by
  simp only [schemaProductions, List.forall_mem_cons]
  exact ⟨newSchemaRule_fits, newSchemaRuleWithVar_fits rfl, newSchemaRuleWithDelimiters_fits rfl,
    identityRuleParserASTSchema_fits rfl, identityRuleParserASTSchema_fits rfl,
    existingSchemaRule_fits rfl rfl, existingSchemaRuleWithDelimiter_fits rfl rfl,
    existingDelimiterStringRule_fits rfl rfl, existingDelimiterStringRule_fits rfl rfl,
    newDelimiterStringRule_fits rfl, newDelimiterStringRule_fits rfl, regexLiteralRule_fits rfl,
    ruleFits_none, ruleFits_none, ruleFits_none, ruleFits_none, ruleFits_none, ruleFits_none,
    ruleFits_none, schemaVarRule_fits rfl rfl rfl, existingIdentifierRule_fits rfl rfl,
    newIdentifierRule_fits rfl, ruleFits_none, ruleFits_none, List.forall_mem_nil _⟩

theorem regexProductions_fit (castPow : Nat → UInt32) :
    ∀ e ∈ regexProductions castPow, EntryFits e := by
  simp only [regexProductions, List.forall_mem_cons]
  exact ⟨regexIdentityRule_fits rfl rfl, regexOrRule_fits rfl rfl rfl rfl,
    regexIdentityRule_fits rfl rfl, regexCatRule_fits rfl rfl rfl rfl,
    regexCatRule_fits rfl rfl rfl rfl, regexIdentityRule_fits rfl rfl,
    regexIdentityRule_fits rfl rfl, regexMatchZeroOrMoreRule_fits rfl,
    regexMatchOneOrMoreRule_fits rfl, regexMatchZeroOrOneRule_fits rfl,
    regexMatchExactlyRule_fits castPow rfl rfl, regexMatchRangeRule_fits castPow rfl rfl rfl,
    regexIdentityRule_fits rfl rfl, regexIdentityRule_fits rfl rfl,
    regexIdentityRule_fits rfl rfl, regexIdentityRule_fits rfl rfl,
    (regexLiteralRule_fits rfl).regex, regexAddRangeExistingGroupRule_fits rfl rfl,
    regexAddRangeExistingGroupRule_fits rfl rfl, regexAddLiteralExistingGroupRule_fits rfl rfl,
    regexAddRangeNewGroupRule_fits rfl, regexAddRangeNewGroupRule_fits rfl,
    regexAddLiteralNewGroupRule_fits rfl, regexComplementIncompleteGroupRule_fits,
    regexRangeRule_fits rfl rfl, List.forall_mem_nil _⟩

theorem literalProductions_fit : ∀ e ∈ literalProductions, EntryFits e := by
  have htokens : ∀ name ∈ literalTokens, sortOf name = .token := by decide +kernel
  refine List.forall_mem_append.2 ⟨List.forall_mem_map.2 fun name hname => ?_, ?_⟩
  · have hbody : ([name].map sortOf)[0]? = some .token := congrArg some (htokens name hname)
    exact (regexLiteralRule_fits hbody).regex
  · simp only [List.forall_mem_cons]
    exact ⟨regexCaptureRule_fits rfl rfl, regexMiddleIdentityRule_fits rfl rfl,
      List.forall_mem_nil _⟩

theorem escapeProductions_fit {specials : List (Nat × String)}
    (hspecials : specials.Perm specialRegexCharacters) :
    ∀ e ∈ escapeProductions specials, EntryFits e := by
  have htokens : ∀ e ∈ specialRegexCharacters, sortOf e.2 = .token := by decide +kernel
  refine List.forall_mem_map.2 fun e he => ?_
  have hbody : (["Backslash", e.2].map sortOf)[1]? = some .token :=
    congrArg some (htokens e (hspecials.subset he))
  exact (regexCancelLiteralRule_fits hbody).regex

theorem characterProductions_fit : ∀ e ∈ characterProductions, EntryFits e := by
  simp only [characterProductions, List.forall_mem_cons]
  exact ⟨regexIdentityRule_fits rfl rfl, ruleFits_character ⟨9, rfl⟩,
    ruleFits_character ⟨10, rfl⟩, ruleFits_character ⟨11, rfl⟩, ruleFits_character ⟨12, rfl⟩,
    ruleFits_character ⟨13, rfl⟩,
    regexExistingIntegerRule_fits rfl rfl, regexNewIntegerRule_fits rfl, regexWildcardRule_fits,
    ruleFits_group rfl, ruleFits_group rfl, ruleFits_group rfl, ruleFits_group rfl,
    ruleFits_group rfl, ruleFits_group rfl, List.forall_mem_nil _⟩

theorem productions_fit (castPow : Nat → UInt32) {specials : List (Nat × String)}
    (hspecials : specials.Perm specialRegexCharacters) :
    ∀ e ∈ productions castPow specials, EntryFits e := by
  unfold productions
  rw [List.forall_mem_append, List.forall_mem_append, List.forall_mem_append,
    List.forall_mem_append]
  exact ⟨⟨⟨⟨schemaProductions_fit, regexProductions_fit castPow⟩, literalProductions_fit⟩,
    escapeProductions_fit hspecials⟩, characterProductions_fit⟩

end SchemaParser

end LogSurgeon
