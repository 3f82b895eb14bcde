import LogSurgeon.FiniteAutomata.FinalRegisters
import LogSurgeon.SchemaParser.Conflicts
import LogSurgeon.SchemaParser.SchemaSymbols

/-!
# Parsing the text of a schema

The schema parser as a whole: its constructor generates the lexer and the tables,
and `parse` runs the semantic rules.

* The lexer has no delimiters, and gives a token the ids of terminals only
  (`generateLexer_yields`).
* `trySchema_yields`: whatever the text, the parser returns a schema that
  `LogParser` can read, or an exception ends it.  No null pointer is read, and
  no cast finds another class.
* What `report_error` says is left out, as is the address at which `FileReader`
  keeps its file.
-/

namespace LogSurgeon

open Lib

/-! ## The loop of `parse` -/

namespace SemanticParser

section Loop

variable (rules : Nat → Option SemanticRule) (tables : ParseTables) (t : LexerTables) (fuel : Nat)
  (renew : Reader → Reader)

/-- `renew` is the reader at its next call. -/
def parseLoop : Nat → Reader → SemanticParser → Except ParseFault (SemanticParser × Bool)
  | 0, _, _ => .error (.parser .outOfSteps)
  | steps + 1, reader, p => do
    let (p', done, accept) ← (p.readIfSafe reader).advance rules tables t fuel
    if done then return (p', accept)
    else parseLoop steps (renew (p.parser.inputBuffer.readIfSafe reader).2.2) p'

/-- The AST of the symbol that is left on the stack. -/
def parse (steps : Nat) (reader : Reader) (p : SemanticParser) :
    Except ParseFault (Option ParserAST) := do
  let (p, accept) ← (p.reset tables).parseLoop rules tables t fuel renew steps reader
  if ¬ accept then .error (.parser .thrown)
  else
    match ← (derefOr .nullPointer p.values.head?).mapError .parser with
    | .nonTerminal ast => return ast
    | .token _ => .error (.parser .thrown)

end Loop

variable {g : ParserGrammar} {rules : Nat → Option SemanticRule} {tables : ParseTables}
  {t : LexerTables} {HasSort : Nat → RuleSymbol → Prop} {Allowed : RuleFault → Prop}
  {Items : Nat → Nat → Nat → Prop} {p : SemanticParser} {delivered : List Token}

/-- Every iteration has no undefined behaviour, so the loop has none. -/
theorem parseLoop_yields (htables : Lalr1Parser.TablesOf g Items tables) (ht : t.LeadsOn)
    (hrules : KeepsSorts g rules HasSort Allowed)
    (hleaf : ∀ typeIds, t.GivesTypes typeIds → ∀ a ∈ typeIds, ∀ token, HasSort a (.token token))
    (h : Parsing g rules tables t delivered p) (fuel : Nat) (renew : Reader → Reader)
    (steps : Nat) (reader : Reader) :
    Yields (p.parseLoop rules tables t fuel renew steps reader)
      (fun r => r.2 = true → Accepted g rules t r.1) (ParseFault.IsAllowed Allowed) := by
  induction steps generalizing p delivered reader with
  | zero => exact Or.inr rfl
  | succ steps ih =>
    unfold parseLoop
    refine ((h.readIfSafe reader).advance htables ht hrules hleaf).bind fun r hr => ?_
    obtain ⟨p', done, accept⟩ := r
    obtain ⟨hgoes, haccepts⟩ := hr
    cases done with
    | true => exact haccepts
    | false =>
      obtain ⟨delivered', hparsing⟩ := hgoes rfl
      exact ih hparsing _

/-- What is left on the stack is of the sort of the start symbol. -/
theorem parse_yields (htables : Lalr1Parser.TablesOf g Items tables) (ht : t.LeadsOn)
    (hrules : KeepsSorts g rules HasSort Allowed)
    (hleaf : ∀ typeIds, t.GivesTypes typeIds → ∀ a ∈ typeIds, ∀ token, HasSort a (.token token))
    (fuel : Nat) (renew : Reader → Reader) (steps : Nat) (reader : Reader) :
    Yields (p.parse rules tables t fuel renew steps reader)
      (fun ast => HasSort g.startSymbol (.nonTerminal ast)) (ParseFault.IsAllowed Allowed) := by
  unfold parse
  refine (parseLoop_yields htables ht hrules hleaf parsing_reset fuel renew steps reader).bind
    fun r hr => ?_
  obtain ⟨p', accept⟩ := r
  cases accept with
  | false => exact Or.inl rfl
  | true =>
    obtain ⟨w, tree, value, address, hsentence, hw, hvalues, hvalue⟩ := (hr rfl).tree
    have hsorts := sorts_of_hasTypes (g := g) hleaf hw
    have hsort := (yields_evalSymbol hrules hsorts hsentence 0).of_ok hvalue
    dsimp only at hvalues hsort ⊢
    rw [hvalues]
    cases value with
    | token token => exact Or.inl rfl
    | nonTerminal ast => exact hsort

end SemanticParser

/-! ## The schema parser -/

namespace SchemaParser

/-- What the code leaves open: the cast of a power of ten, and the orders of two
hash tables. -/
structure Platform where
  castPow : Nat → UInt32
  specials : List (Nat × String)
  specials_perm : specials.Perm specialRegexCharacters
  regMapOrder : List (Nat × Nat) → List (Nat × Nat)

namespace Platform

variable (platform : Platform)

def grammar : ParserGrammar := SchemaParser.grammar platform.castPow platform.specials

def rules : Nat → Option SemanticRule := semanticRule platform.castPow platform.specials

/-- `m_lexer.generate()`.  The lexer has no delimiters. -/
def generateLexer (fuel : Nat) : Except Fault LexerTables := do
  let b := (calls platform.castPow platform.specials).foldl GrammarBuilder.call .new
  let t ← generateTables (fun _ => false) b.parser.rules platform.regMapOrder fuel
  return { t with hasDelimiters := false }

end Platform

/-- `dynamic_cast<SchemaAST*>`. -/
def castSchema : Option ParserAST → Option ParserAST
  | some (.schema schemaVars delimiters) => some (.schema schemaVars delimiters)
  | _ => none

section Parse

variable (platform : Platform) (fuel steps : Nat)

/-- The constructor and `generate_schema_ast`. -/
def generateSchemaAst (renew : Reader → Reader) (reader : Reader) :
    Except ParseFault (Option ParserAST) := do
  let t ← (platform.generateLexer fuel).mapError .parser
  let tables ← (Lalr1Parser.generate platform.grammar (fun i => (platform.rules i).isSome)
    fuel).mapError .parser
  let p : SemanticParser := {
    parser := { lexer := .new t, inputBuffer := { storage := { staticStorage := fun _ => 0 } } } }
  return castSchema (← p.parse platform.rules tables t fuel renew steps reader)

/-- The position in the string is not kept from one call of the reader to the
next. -/
def trySchemaString (schemaString : List UInt8) : Except ParseFault (Option ParserAST) :=
  generateSchemaAst platform fuel steps (fun _ => schemaStringReader schemaString)
    (schemaStringReader schemaString)

/-- The file, or why it cannot be opened. -/
def trySchemaFile (file : Except ErrorCode Reader) : Except ParseFault (Option ParserAST) :=
  match file with
  | .ok reader => generateSchemaAst platform fuel steps id reader
  | .error _ => .error (.parser .thrown)

end Parse

/-! ## The schema of an AST -/

/-- A name is made of letters, digits and underscores. -/
def nameOfBytes (name : List UInt8) : String := String.ofList (name.map fun c => Char.ofNat c.toNat)

/-- What `LogParser::add_rules` reads from a variable. -/
def toSchemaVar : Option ParserAST → Option SchemaVarAST
  | some (.schemaVar name regex _) => some ⟨nameOfBytes name, regex⟩
  | _ => none

/-- What `LogParser::set_delimiters` reads. -/
def toDelimiters : Option ParserAST → Option (List Nat)
  | some (.delimiterString delimiters) => some delimiters
  | _ => none

/-- The schema, if the casts of `LogParser` succeed. -/
def toSchema : Option ParserAST → Option SchemaAST
  | some (.schema schemaVars delimiters) => do
    let schemaVars ← schemaVars.mapM toSchemaVar
    return { schemaVars := schemaVars, delimiters := ← delimiters.mapM toDelimiters }
  | _ => none

theorem exists_mapM {α β : Type} {f : α → Option β} {P : β → Prop} {xs : List α}
    (h : ∀ x ∈ xs, ∃ y, f x = some y ∧ P y) : ∃ ys, xs.mapM f = some ys ∧ ∀ y ∈ ys, P y := by
  induction xs with
  | nil => exact ⟨[], rfl, List.forall_mem_nil _⟩
  | cons x xs ih =>
    obtain ⟨⟨y, hy, hP⟩, hxs⟩ := List.forall_mem_cons.1 h
    obtain ⟨ys, hys, hall⟩ := ih hxs
    exact ⟨y :: ys, by simp [hy, hys], List.forall_mem_cons.2 ⟨hP, hall⟩⟩

/-- A schema whose delimiters are characters, as `LogParser` reads it. -/
def ReadsAs (ast : Option ParserAST) (schema : SchemaAST) : Prop :=
  toSchema ast = some schema ∧
    ∀ delimiters ∈ schema.delimiters, delimiters ≠ [] ∧ ∀ c ∈ delimiters, IsCharacter c

/-- A schema that the rules make is one that `LogParser` can read. -/
theorem exists_readsAs {ast : Option ParserAST}
    (h : SymbolSort.schema.Holds (.nonTerminal ast)) :
    ∃ schema, ReadsAs (castSchema ast) schema := by
  obtain ⟨schemaVars, delimiters, hast, hvars, hdelimiters⟩ := h
  cases hast
  obtain ⟨vars, hvars, -⟩ : ∃ vars, schemaVars.mapM toSchemaVar = some vars ∧
      ∀ var ∈ vars, True :=
    exists_mapM fun var hvar => by
      obtain ⟨name, regex, lineNum, rfl⟩ := hvars var hvar
      exact ⟨_, rfl, trivial⟩
  obtain ⟨lists, hlists, hcharacters⟩ : ∃ lists, delimiters.mapM toDelimiters = some lists ∧
      ∀ ds ∈ lists, ds ≠ [] ∧ ∀ c ∈ ds, IsCharacter c :=
    exists_mapM fun ds hds => by
      obtain ⟨characters, rfl, hcharacters⟩ := hdelimiters ds hds
      exact ⟨characters, rfl, hcharacters⟩
  refine ⟨⟨vars, lists⟩, ?_, hcharacters⟩
  unfold castSchema toSchema
  dsimp only
  rw [hvars, hlists]
  rfl

/-! ## The lexer -/

/-- The DFA has a root, or its generation has not come to an end. -/
theorem generateTables_yields (isDelimiter : Nat → Bool) (rules : List LexicalRule)
    (regMapOrder : List (Nat × Nat) → List (Nat × Nat)) (fuel : Nat) :
    Yields (generateTables isDelimiter rules regMapOrder fuel) (fun _ => True)
      Fault.IsDefined := by
  unfold generateTables
  dsimp only
  cases Dfa.generate (Nfa.ofRules rules) regMapOrder fuel with
  | none => exact Or.inr rfl
  | some dfa =>
    show Yields (derefOr .thrown (dfa.state? dfa.getRoot) >>= _) _ _
    cases dfa.state? dfa.getRoot with
    | none => exact Or.inl rfl
    | some root => trivial

/-- The lexer keeps to states that exist, and matches rules of terminals. -/
theorem generateLexer_yields (platform : Platform) (fuel : Nat) :
    Yields (platform.generateLexer fuel)
      (fun t => t.LeadsOn ∧ ∀ typeIds, t.GivesTypes typeIds → ∀ a ∈ typeIds,
        a ∈ platform.grammar.terminals) Fault.IsDefined := by
  have hrules := GrammarBuilder.variableId_mem_terminals
    (calls platform.castPow platform.specials)
  have hreserved : ∀ a ∈ Parser.new.symbolId.map Prod.snd, a ∈ platform.grammar.terminals :=
    fun a ha => GrammarBuilder.mem_terminals_calls (OrderedSet.mem_insertAll.2 (Or.inl ha))
  unfold Platform.generateLexer
  dsimp only
  generalize ((calls platform.castPow platform.specials).foldl GrammarBuilder.call
    .new).parser.rules = rules at hrules ⊢
  cases htables : generateTables (fun _ => false) rules platform.regMapOrder fuel with
  | error fault => exact (generateTables_yields _ rules platform.regMapOrder fuel).of_error htables
  | ok t =>
    obtain ⟨dfa, root, hdfa, -, rfl⟩ := generateTables_cases htables
    refine ⟨⟨Dfa.wellFormed_of_generate hdfa, fun h => by cases h⟩, fun typeIds hgives => ?_⟩
    rcases hgives with rfl | rfl | ⟨state, hstate, rfl⟩
    · exact List.forall_mem_singleton.2 (hreserved _ (by decide))
    · exact List.forall_mem_singleton.2 (hreserved _ (by decide))
    · obtain ⟨i, hi⟩ := List.mem_iff_getElem?.1 hstate
      obtain ⟨S, -, hids, -⟩ := Dfa.exists_set_of_generate hdfa hi
      obtain ⟨is, -, hmatching, -⟩ := Dfa.exists_rules_of_set rules
        (Dfa.initialTagIdToFinalRegId (Nfa.ofRules rules).numTags) S
      rw [hids, hmatching]
      refine List.forall_mem_map.2 fun j _ => ?_
      exact hrules _ (List.getElem_mem j.isLt)

/-! ## Every text -/

theorem sortOf_startSymbol (platform : Platform) {v : RuleSymbol}
    (h : HasSort platform.castPow platform.specials platform.grammar.startSymbol v) :
    SymbolSort.schema.Holds v := by
  have hbody : (platform.grammar.rule platform.grammar.rootProductionId).body =
      [platform.grammar.startSymbol] := platform.grammar.body_root
  have hrule : platform.grammar.rule platform.grammar.rootProductionId = _ := rule_root
  rw [hrule] at hbody
  have hstart := (List.cons.inj hbody).1
  have hmem : "Schema" ∈ GrammarBuilder.namesOf (calls platform.castPow platform.specials) :=
    (mem_namesOf_of_mem List.mem_cons_self).2 "Schema" List.mem_cons_self
  unfold HasSort at h
  rw [← hstart, GrammarBuilder.nameOf_idxOf hmem] at h
  exact h

theorem generateSchemaAst_yields (platform : Platform) (fuel steps : Nat)
    (renew : Reader → Reader) (reader : Reader) :
    Yields (generateSchemaAst platform fuel steps renew reader)
      (fun ast => ∃ schema, ReadsAs ast schema) (ParseFault.IsAllowed (· ∈ reported)) := by
  have hreduced : platform.grammar.Reduced := reduced_grammar platform.specials_perm
  unfold generateSchemaAst
  have hlexer : Yields ((platform.generateLexer fuel).mapError ParseFault.parser) _
      (ParseFault.IsAllowed (· ∈ reported)) :=
    (generateLexer_yields platform fuel).mapError fun _ hfault => hfault
  refine hlexer.bind fun t ht => ?_
  obtain ⟨hleads, hterminals⟩ := ht
  have hleaf : ∀ typeIds, t.GivesTypes typeIds → ∀ a ∈ typeIds, ∀ token,
      HasSort platform.castPow platform.specials a (.token token) :=
    fun typeIds hgives a ha =>
      holds_token platform.specials_perm (hterminals typeIds hgives a ha)
  cases htables : Lalr1Parser.generate platform.grammar (fun i => (platform.rules i).isSome)
    fuel with
  | error fault => exact (Lalr1Parser.generate_yields hreduced _ fuel).of_error htables
  | ok tables =>
    obtain ⟨Items, hitems⟩ := Lalr1Parser.tablesOf_generate hreduced htables
    refine (SemanticParser.parse_yields hitems hleads (keepsSorts platform.specials_perm) hleaf
      fuel renew steps reader).bind fun ast hast => ?_
    exact exists_readsAs (sortOf_startSymbol platform hast)

theorem trySchemaString_yields (platform : Platform) (fuel steps : Nat)
    (schemaString : List UInt8) :
    Yields (trySchemaString platform fuel steps schemaString)
      (fun ast => ∃ schema, ReadsAs ast schema) (ParseFault.IsAllowed (· ∈ reported)) :=
  generateSchemaAst_yields platform fuel steps _ _

theorem trySchemaFile_yields (platform : Platform) (fuel steps : Nat)
    (file : Except ErrorCode Reader) :
    Yields (trySchemaFile platform fuel steps file)
      (fun ast => ∃ schema, ReadsAs ast schema) (ParseFault.IsAllowed (· ∈ reported)) := by
  cases file with
  | error err => exact Or.inl rfl
  | ok reader => exact generateSchemaAst_yields platform fuel steps _ _

end SchemaParser

end LogSurgeon
