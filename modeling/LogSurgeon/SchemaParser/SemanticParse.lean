import LogSurgeon.Lib.Outcomes
import LogSurgeon.SchemaParser.ParseRuns
import LogSurgeon.SchemaParser.SemanticRules
import LogSurgeon.ScannerTypes

/-!
# Parsing with semantic rules

`SemanticParser` is the parser of `Lalr1Parser.tpp` with the ASTs that
`Lalr1Parser` leaves out.  A reduction runs the rule of its production on the
symbols that it pops, and an exception of the rule ends the parse.

* `evalSymbols` runs the rules over trees, from the leaves up and from left to
  right, which is the order of the reductions.
* `Evaluated.parseAdvance`: with rules the parser does what it does without them,
  and its ASTs are those of its trees, until a rule throws.
* `yields_evalSymbols`: rules that keep to the sorts of the symbols do so over
  the tree of a sentence.
* `Parsing.advance`: so they do in every iteration of the loop of `parse`.
-/

namespace LogSurgeon

open Lib Lib.Grammar

/-! ## Rules over trees -/

/-- The symbol of a production whose rule is run, if it has one. -/
def runRule (rule : Option SemanticRule) (symbols : List RuleSymbol) (address : Nat) :
    Except RuleFault RuleSymbol :=
  match rule with
  | some rule => do return .nonTerminal (← rule ⟨symbols, address⟩)
  | none => return .nonTerminal none

mutual

/-- The symbol with its AST, and the next address. -/
def evalSymbol (rules : Nat → Option SemanticRule) :
    MatchedSymbol → Nat → Except RuleFault (RuleSymbol × Nat)
  | .token token, address => return (.token token, address)
  | .nonTerminal production symbols, address => do
    let (values, address) ← evalSymbols rules symbols address
    return (← runRule (rules production) values address, address + 1)

def evalSymbols (rules : Nat → Option SemanticRule) :
    List MatchedSymbol → Nat → Except RuleFault (List RuleSymbol × Nat)
  | [], address => return ([], address)
  | symbol :: symbols, address => do
    let (value, address) ← evalSymbol rules symbol address
    let (values, address) ← evalSymbols rules symbols address
    return (value :: values, address)

end

/-! ## The parser -/

inductive ParseFault where
  | parser (fault : Fault)
  | rule (fault : RuleFault)
deriving DecidableEq, Repr

/-- The parser has no undefined behaviour, and the fault of a rule is one of those
that are allowed. -/
def ParseFault.IsAllowed (Allowed : RuleFault → Prop) : ParseFault → Prop
  | parser fault => fault.IsDefined
  | rule fault => Allowed fault

/-- The parser, the ASTs of the symbols on its stack, and the number of
reductions. -/
structure SemanticParser where
  parser : Lalr1Parser
  values : List RuleSymbol := []
  reductions : Nat := 0

namespace SemanticParser

def reset (tables : ParseTables) (p : SemanticParser) : SemanticParser where
  parser := p.parser.reset tables

def readIfSafe (reader : Reader) (p : SemanticParser) : SemanticParser :=
  { p with parser := p.parser.readIfSafe reader }

def getNextSymbol (t : LexerTables) (fuel : Nat) (p : SemanticParser) :
    Except ParseFault (SemanticParser × Token) := do
  let (parser, token) ← (p.parser.getNextSymbol t fuel).mapError .parser
  return ({ p with parser := parser }, token)

section Steps

variable (rules : Nat → Option SemanticRule) (tables : ParseTables)

def reduce (nextToken : Token) (production : Nat) (p : SemanticParser) :
    Except ParseFault SemanticParser := do
  let n := (tables.productions production).body.length
  let value ← (runRule (rules production) (p.values.take n).reverse p.reductions).mapError .rule
  let parser ← (p.parser.reduce tables nextToken production).mapError .parser
  return { parser, values := value :: p.values.drop n, reductions := p.reductions + 1 }

def parseSymbol (typeId : Nat) (nextToken : Token) (p : SemanticParser) :
    Except ParseFault (SemanticParser × Bool × Bool) := do
  let curr ← (derefOr .nullPointer p.parser.parseStackStates.head?).mapError .parser
  match tables.actions curr typeId with
  | .accepting isAccepting => return (p, isAccepting, isAccepting)
  | .shift itemSet =>
    return ({ p with
      parser := { p.parser with
        parseStackStates := itemSet :: p.parser.parseStackStates
        parseStackMatches := .token nextToken :: p.parser.parseStackMatches }
      values := .token nextToken :: p.values }, true, false)
  | .reduce production => return (← p.reduce rules tables nextToken production, true, false)

def parseAdvance (nextToken : Token) (p : SemanticParser) :
    List Nat → Except ParseFault (SemanticParser × Bool × Bool)
  | [] =>
    return ({ p with
      parser := { p.parser with
        parseStackMatches := .token nextToken :: p.parser.parseStackMatches }
      values := .token nextToken :: p.values }, true, false)
  | typeId :: typeIds => do
    match ← p.parseSymbol rules tables typeId nextToken with
    | (p, true, accept) => return (p, accept, accept)
    | (p, false, _) => p.parseAdvance nextToken typeIds

/-- The body of the loop of `parse` behind the read. -/
def advance (t : LexerTables) (fuel : Nat) (p : SemanticParser) :
    Except ParseFault (SemanticParser × Bool × Bool) := do
  let (p, token) ← p.getNextSymbol t fuel
  let typeIds ← (derefOr .nullPointer token.typeIds).mapError .parser
  p.parseAdvance rules tables token typeIds

end Steps

/-! ## The ASTs are those of the trees -/

/-- The ASTs on the stack are what the rules make of its trees. -/
def Evaluated (rules : Nat → Option SemanticRule) (p : SemanticParser) : Prop :=
  evalSymbols rules p.parser.parseStackMatches.reverse 0 = .ok (p.values.reverse, p.reductions)

section Evaluation

variable {rules : Nat → Option SemanticRule} {tables : ParseTables} {p : SemanticParser}
  {q : Lalr1Parser} {token : Token} {typeIds : List Nat} {typeId i n address : Nat}
  {done accept : Bool} {symbols symbols' : List MatchedSymbol}

theorem evalSymbols_nil : evalSymbols rules [] address = .ok ([], address) := by
  rw [evalSymbols]
  rfl

theorem evalSymbols_cons (symbol : MatchedSymbol) :
    evalSymbols rules (symbol :: symbols) address = (evalSymbol rules symbol address >>= fun r =>
      evalSymbols rules symbols r.2 >>= fun s => .ok (r.1 :: s.1, s.2)) := by
  rw [evalSymbols]
  rfl

theorem evalSymbol_token : evalSymbol rules (.token token) address = .ok (.token token, address) := by
  rw [evalSymbol]
  rfl

theorem evalSymbol_nonTerminal :
    evalSymbol rules (.nonTerminal i symbols) address =
      (evalSymbols rules symbols address >>= fun r =>
        runRule (rules i) r.1 r.2 >>= fun value => .ok (value, r.2 + 1)) := by
  rw [evalSymbol]
  rfl

theorem evalSymbols_append : evalSymbols rules (symbols ++ symbols') address =
    (evalSymbols rules symbols address >>= fun r =>
      evalSymbols rules symbols' r.2 >>= fun s => .ok (r.1 ++ s.1, s.2)) := by
  induction symbols generalizing address with
  | nil =>
    rw [List.nil_append, evalSymbols_nil]
    show _ = evalSymbols rules symbols' address >>= fun s => .ok s
    cases evalSymbols rules symbols' address <;> rfl
  | cons symbol symbols ih =>
    rw [List.cons_append, evalSymbols_cons, evalSymbols_cons]
    cases evalSymbol rules symbol address with
    | error fault => rfl
    | ok r =>
      show (evalSymbols rules (symbols ++ symbols') r.2 >>= _) = _
      rw [ih]
      dsimp only [bind, Except.bind]
      cases evalSymbols rules symbols r.2 with
      | error fault => rfl
      | ok s =>
        dsimp only
        cases evalSymbols rules symbols' s.2 <;> rfl

theorem evalSymbols_singleton (symbol : MatchedSymbol) :
    evalSymbols rules [symbol] address =
      (evalSymbol rules symbol address >>= fun r => .ok ([r.1], r.2)) := by
  rw [evalSymbols_cons]
  simp only [evalSymbols_nil]
  rfl

/-- Every symbol has its AST. -/
theorem length_of_evalSymbols {values : List RuleSymbol} {address' : Nat}
    (h : evalSymbols rules symbols address = .ok (values, address')) :
    values.length = symbols.length := by
  induction symbols generalizing address values address' with
  | nil =>
    rw [evalSymbols_nil] at h
    cases h
    rfl
  | cons symbol symbols ih =>
    rw [evalSymbols_cons] at h
    obtain ⟨r, -, h⟩ := exists_of_bind_eq_ok h
    obtain ⟨s, hs, h⟩ := exists_of_bind_eq_ok h
    cases h
    rw [List.length_cons, List.length_cons, ih hs]

theorem parseStackMatches_of_reduce {parser : Lalr1Parser}
    (h : parser.reduce tables token i = .ok q) :
    q.parseStackMatches = .nonTerminal i
      (parser.parseStackMatches.take (tables.productions i).body.length).reverse ::
        parser.parseStackMatches.drop (tables.productions i).body.length := by
  obtain ⟨curr, -, h⟩ := exists_of_bind_eq_ok h
  split at h
  · cases h
    rfl
  · cases h

/-- The symbols that a reduction pops are evaluated behind those below them. -/
theorem Evaluated.exists_popped (h : p.Evaluated rules) (n : Nat) :
    ∃ address, evalSymbols rules (p.parser.parseStackMatches.drop n).reverse 0 =
        .ok ((p.values.drop n).reverse, address) ∧
      evalSymbols rules (p.parser.parseStackMatches.take n).reverse address =
        .ok ((p.values.take n).reverse, p.reductions) := by
  have hsymbols : p.parser.parseStackMatches.reverse =
      (p.parser.parseStackMatches.drop n).reverse ++
        (p.parser.parseStackMatches.take n).reverse := by
    rw [← List.reverse_append, List.take_append_drop]
  have hvalues : p.values.reverse = (p.values.drop n).reverse ++ (p.values.take n).reverse := by
    rw [← List.reverse_append, List.take_append_drop]
  have hlength := length_of_evalSymbols h
  rw [List.length_reverse, List.length_reverse] at hlength
  unfold Evaluated at h
  rw [hsymbols, evalSymbols_append] at h
  obtain ⟨⟨below, address⟩, hbelow, h⟩ := exists_of_bind_eq_ok h
  obtain ⟨⟨popped, address'⟩, hpopped, h⟩ := exists_of_bind_eq_ok h
  have heq := Except.ok.inj h
  obtain ⟨happend, rfl⟩ := Prod.mk.inj heq
  have hsame : below.length = (p.values.drop n).reverse.length := by
    rw [length_of_evalSymbols hbelow]
    simp [hlength]
  obtain ⟨rfl, rfl⟩ := List.append_inj (happend.trans hvalues) hsame
  exact ⟨address, hbelow, hpopped⟩

/-- The rule of the tree on the top of the stack throws. -/
def Throws (rules : Nat → Option SemanticRule) (q : Lalr1Parser) (fault : ParseFault) : Prop :=
  ∃ e tree address, fault = .rule e ∧ q.parseStackMatches.head? = some tree ∧
    evalSymbol rules tree address = .error e

theorem Evaluated.reduce (h : p.Evaluated rules) (hq : p.parser.reduce tables token i = .ok q) :
    Yields (p.reduce rules tables token i) (fun p' => p'.parser = q ∧ p'.Evaluated rules)
      (Throws rules q) := by
  obtain ⟨address, hbelow, hpopped⟩ := h.exists_popped (tables.productions i).body.length
  have hmatches := parseStackMatches_of_reduce hq
  unfold SemanticParser.reduce
  dsimp only
  generalize (tables.productions i).body.length = n at hbelow hpopped hmatches
  have htree : evalSymbol rules (.nonTerminal i (p.parser.parseStackMatches.take n).reverse)
      address = (runRule (rules i) (p.values.take n).reverse p.reductions >>= fun value =>
        .ok (value, p.reductions + 1)) := by
    rw [evalSymbol_nonTerminal, hpopped]
    rfl
  cases hrule : runRule (rules i) (p.values.take n).reverse p.reductions with
  | error e =>
    rw [hrule] at htree
    refine ⟨e, _, address, rfl, ?_, htree⟩
    rw [hmatches]
    rfl
  | ok value =>
    rw [hrule] at htree
    rw [hq]
    refine ⟨rfl, ?_⟩
    show evalSymbols rules q.parseStackMatches.reverse 0 =
      .ok ((value :: p.values.drop n).reverse, p.reductions + 1)
    rw [hmatches, List.reverse_cons, evalSymbols_append, hbelow]
    show (evalSymbols rules [.nonTerminal i (p.parser.parseStackMatches.take n).reverse] address
      >>= _) = _
    rw [evalSymbols_singleton, htree, List.reverse_cons]
    rfl

theorem Evaluated.push (h : p.Evaluated rules) (token : Token) :
    evalSymbols rules (MatchedSymbol.token token :: p.parser.parseStackMatches).reverse 0 =
      .ok ((RuleSymbol.token token :: p.values).reverse, p.reductions) := by
  unfold Evaluated at h
  rw [List.reverse_cons, evalSymbols_append, h, List.reverse_cons]
  show (evalSymbols rules [.token token] p.reductions >>= fun s =>
    .ok (p.values.reverse ++ s.1, s.2)) = _
  rw [evalSymbols_singleton, evalSymbol_token]
  rfl

theorem Evaluated.parseSymbol (h : p.Evaluated rules)
    (hq : p.parser.parseSymbol tables typeId token = .ok (q, done, accept)) :
    Yields (p.parseSymbol rules tables typeId token)
      (fun r => r.1.parser = q ∧ r.2 = (done, accept) ∧ r.1.Evaluated rules)
      (fun fault => done = true ∧ accept = false ∧ Throws rules q fault) := by
  obtain ⟨curr, hcurr, hq⟩ := exists_of_bind_eq_ok hq
  unfold SemanticParser.parseSymbol
  rw [hcurr]
  show Yields (match tables.actions curr typeId with
    | .accepting isAccepting => _
    | .shift itemSet => _
    | .reduce production => _) _ _
  cases haction : tables.actions curr typeId with
  | accepting isAccepting =>
    rw [haction] at hq
    cases hq
    exact ⟨rfl, rfl, h⟩
  | shift itemSet =>
    rw [haction] at hq
    cases hq
    exact ⟨rfl, rfl, h.push token⟩
  | reduce production =>
    rw [haction] at hq
    obtain ⟨q', hreduce, hq⟩ := exists_of_bind_eq_ok hq
    cases hq
    exact ((h.reduce hreduce).mono (fun p' hp' => hp') fun fault hfault => ⟨rfl, rfl, hfault⟩).bind
      fun p' hp' => ⟨hp'.1, rfl, hp'.2⟩

/-- With rules the parser goes on as it does without them, until a rule
throws. -/
theorem Evaluated.parseAdvance (h : p.Evaluated rules)
    (hq : p.parser.parseAdvance tables token typeIds = .ok (q, done, accept)) :
    Yields (p.parseAdvance rules tables token typeIds)
      (fun r => r.1.parser = q ∧ r.2 = (done, accept) ∧ r.1.Evaluated rules)
      (fun fault => done = false ∧ Throws rules q fault) := by
  induction typeIds generalizing p with
  | nil =>
    cases hq
    exact ⟨rfl, rfl, h.push token⟩
  | cons typeId typeIds ih =>
    obtain ⟨⟨q₁, ret, accept₁⟩, hq₁, hq⟩ := exists_of_bind_eq_ok hq
    unfold SemanticParser.parseAdvance
    cases ret with
    | true =>
      cases hq
      refine ((h.parseSymbol hq₁).mono (fun r hr => hr) fun fault hfault => hfault.2).bind
        fun r hr => ?_
      obtain ⟨p', ret', accept'⟩ := r
      obtain ⟨hparser, hr, hvalues⟩ := hr
      cases hr
      exact ⟨hparser, rfl, hvalues⟩
    | false =>
      -- Only a reduction runs a rule, and that ends the search for an action.
      refine ((h.parseSymbol hq₁).mono (fun r hr => hr)
        fun fault hfault => absurd hfault.1 Bool.false_ne_true).bind fun r hr => ?_
      obtain ⟨p', ret', accept'⟩ := r
      obtain ⟨rfl, hr, hvalues⟩ := hr
      cases hr
      exact ih hvalues hq

end Evaluation

/-! ## Sorts -/

section Sorts

variable {g : ParserGrammar} {rules : Nat → Option SemanticRule} {HasSort : Nat → RuleSymbol → Prop}
  {Allowed : RuleFault → Prop} {xs : List Nat} {w : List Token} {trees : List MatchedSymbol}

/-- From symbols of the sorts of the body, a rule makes one of the sort of the
head, or it ends with one of the faults. -/
def KeepsSorts (g : ParserGrammar) (rules : Nat → Option SemanticRule)
    (HasSort : Nat → RuleSymbol → Prop) (Allowed : RuleFault → Prop) : Prop :=
  ∀ i, g.semantics.IsRule i → ∀ values address, List.Forall₂ HasSort (g.rule i).body values →
    Yields (runRule (rules i) values address) (HasSort (g.rule i).head) Allowed

theorem yields_evalSymbols (hrules : KeepsSorts g rules HasSort Allowed)
    (htokens : ∀ token ∈ w, ∀ a ∈ g.semantics.types token, HasSort a (.token token))
    (h : g.semantics.Evaluates xs w trees) (address : Nat) :
    Yields (evalSymbols rules trees address) (fun r => List.Forall₂ HasSort xs r.1) Allowed := by
  induction h generalizing address with
  | nil =>
    rw [evalSymbols_nil]
    exact List.Forall₂.nil
  | @token a token xs w trees ha _ ih =>
    obtain ⟨htoken, hw⟩ := List.forall_mem_cons.1 htokens
    show Yields (evalSymbols rules (.token token :: trees) address) _ _
    rw [evalSymbols_cons, evalSymbol_token]
    exact (ih hw address).bind fun r hr => List.Forall₂.cons (htoken a ha) hr
  | @rule i xs w w' trees trees' hi _ _ ihbody ih =>
    obtain ⟨hw', hw⟩ := List.forall_mem_append.1 htokens
    show Yields (evalSymbols rules (.nonTerminal i trees' :: trees) address) _ _
    rw [evalSymbols_cons, evalSymbol_nonTerminal]
    have hbody := (ihbody hw' address).bind fun r hr =>
      (hrules i hi r.1 r.2 hr).bind (f := fun value => .ok (value, r.2 + 1))
        (R := fun r => HasSort (g.rule i).head r.1) fun value hvalue => hvalue
    exact hbody.bind fun r hr => (ih hw r.2).bind fun s hs => List.Forall₂.cons hr hs

theorem yields_evalSymbol {a : Nat} {tree : MatchedSymbol}
    (hrules : KeepsSorts g rules HasSort Allowed)
    (htokens : ∀ token ∈ w, ∀ a ∈ g.semantics.types token, HasSort a (.token token))
    (h : g.semantics.Evaluates [a] w [tree]) (address : Nat) :
    Yields (evalSymbol rules tree address) (fun r => HasSort a r.1) Allowed := by
  have hyields := yields_evalSymbols hrules htokens h address
  rw [evalSymbols_singleton] at hyields
  cases hvalue : evalSymbol rules tree address with
  | error fault =>
    rw [hvalue] at hyields
    exact hyields
  | ok r =>
    rw [hvalue] at hyields
    exact (List.forall₂_cons.1 hyields).1

end Sorts

/-! ## Runs -/

section Run

variable {g : ParserGrammar} {rules : Nat → Option SemanticRule} {tables : ParseTables}
  {t : LexerTables} {HasSort : Nat → RuleSymbol → Prop} {Allowed : RuleFault → Prop}
  {Items : Nat → Nat → Nat → Prop} {p : SemanticParser} {q q' : Lalr1Parser}
  {delivered : List Token} {token : Token} {typeIds : List Nat} {fuel typeId i : Nat}
  {done accept : Bool}

/-- Only the scan of a token changes the lexer. -/
theorem lexer_of_parseAdvance (h : q.parseAdvance tables token typeIds = .ok (q', done, accept)) :
    q'.lexer = q.lexer := by
  have hreduce : ∀ {q q' : Lalr1Parser} {i : Nat}, q.reduce tables token i = .ok q' →
      q'.lexer = q.lexer := by
    intro q q' i h
    obtain ⟨curr, -, h⟩ := exists_of_bind_eq_ok h
    split at h
    · cases h
      rfl
    · cases h
  induction typeIds generalizing q with
  | nil =>
    cases h
    rfl
  | cons typeId typeIds ih =>
    obtain ⟨⟨q₁, ret, accept₁⟩, hsymbol, h⟩ := exists_of_bind_eq_ok h
    have hlexer : q₁.lexer = q.lexer := by
      obtain ⟨curr, -, hsymbol⟩ := exists_of_bind_eq_ok hsymbol
      split at hsymbol
      · cases hsymbol
        rfl
      · cases hsymbol
        rfl
      · obtain ⟨q₂, hq₂, hsymbol⟩ := exists_of_bind_eq_ok hsymbol
        cases hsymbol
        exact hreduce hq₂
    cases ret with
    | true =>
      cases h
      exact hlexer
    | false => exact (ih h).trans hlexer

/-- The types of the token that comes next. -/
theorem getNextSymbol_yields (ht : t.LeadsOn) (hready : Scanner.Ready t q.lexer)
    (hlexer : q.lexer.KeepsTypes t) :
    Yields (q.getNextSymbol t fuel)
      (fun r => Scanner.Ready t r.1.lexer ∧ r.1.lexer.KeepsTypes t ∧
        ∀ token ∈ q.delivers r.2, token.HasTypes t) Fault.IsDefined := by
  unfold Lalr1Parser.getNextSymbol Lalr1Parser.delivers
  cases q.nextToken with
  | none =>
    refine (Scanner.scan_yields (s := q.scanner) ht hready hlexer).bind fun r hr => ?_
    obtain ⟨s, result⟩ := r
    obtain ⟨hready', hlexer', hreturns⟩ := hr
    cases result with
    | error err => exact Or.inl rfl
    | ok token => exact ⟨hready', hlexer', List.forall_mem_singleton.2 (hreturns token rfl)⟩
  | some kept => exact ⟨hready, hlexer, List.forall_mem_nil _⟩

/-- Between two iterations the parser has read a part of a sentence, with its
ASTs, and the tokens of it have types that the lexer gives. -/
structure Parsing (g : ParserGrammar) (rules : Nat → Option SemanticRule) (tables : ParseTables)
    (t : LexerTables) (delivered : List Token) (p : SemanticParser) : Prop where
  consistent : Lalr1Parser.Consistent g tables delivered p.parser
  evaluated : p.Evaluated rules
  ready : Scanner.Ready t p.parser.lexer
  lexer : p.parser.lexer.KeepsTypes t
  tokens : ∀ token ∈ delivered, token.HasTypes t

theorem parsing_reset : Parsing g rules tables t [] (p.reset tables) where
  consistent := ⟨[], [], ⟨rfl, rfl⟩, ShiftReduce.hasRead_nil, rfl⟩
  evaluated := evalSymbols_nil
  ready := Scanner.ready_of_not_asked rfl
  lexer := .of_unmatched rfl rfl
  tokens := List.forall_mem_nil _

theorem Parsing.readIfSafe (h : Parsing g rules tables t delivered p) (reader : Reader) :
    Parsing g rules tables t delivered (p.readIfSafe reader) := by
  obtain ⟨stack, w, hholds, hread, hdelivered⟩ := h.consistent
  exact ⟨⟨stack, w, hholds.readIfSafe reader, hread, hdelivered⟩, h.evaluated, h.ready, h.lexer,
    h.tokens⟩

/-- The tree of a sentence, and what the rules make of it. -/
structure Accepted (g : ParserGrammar) (rules : Nat → Option SemanticRule) (t : LexerTables)
    (p : SemanticParser) : Prop where
  tree : ∃ w tree value address, g.semantics.Evaluates [g.startSymbol] w [tree] ∧
    (∀ token ∈ w, token.HasTypes t) ∧ p.values = [value] ∧
    evalSymbol rules tree 0 = .ok (value, address)

theorem accepted_of_isParsed (hparsed : Lalr1Parser.IsParsed g delivered token typeIds p.parser)
    (hvalues : p.Evaluated rules) (htokens : ∀ token ∈ delivered, token.HasTypes t) :
    Accepted g rules t p := by
  obtain ⟨w, tree, rfl, -, hstack, hsentence⟩ := hparsed
  unfold Evaluated at hvalues
  rw [hstack, List.reverse_singleton, evalSymbols_singleton] at hvalues
  obtain ⟨⟨value, address⟩, hvalue, hvalues⟩ := exists_of_bind_eq_ok hvalues
  have heq := Prod.mk.inj (Except.ok.inj hvalues)
  have hone : p.values = [value] := by
    rw [← List.reverse_reverse p.values, ← heq.1]
    rfl
  exact ⟨w, tree, value, address, hsentence,
    fun token' htoken => htokens token' (List.mem_append_left _ htoken), hone, hvalue⟩

/-- The tree on the top of the stack is that of a sentence of one symbol. -/
theorem exists_sentence_of_top {tree : MatchedSymbol}
    (h : Lalr1Parser.Consistent g tables delivered q)
    (htop : q.parseStackMatches.head? = some tree) :
    ∃ a w, g.semantics.Evaluates [a] w [tree] ∧ ∀ token ∈ w, token ∈ delivered := by
  obtain ⟨stack, w, hholds, ⟨xs, hlinked, hvalues⟩, rfl⟩ := h
  rw [hholds.symbols] at htop
  cases hlinked with
  | nil => cases htop
  | @push stack xs a state value hlinked hmove =>
    cases htop
    rw [List.reverse_cons, List.map_cons, List.reverse_cons] at hvalues
    obtain ⟨w₁, w₂, vs₁, vs₂, rfl, hsplit, h₁, h₂⟩ := hvalues.exists_append
    obtain ⟨rfl, rfl⟩ := List.append_inj' hsplit h₂.length_eq.symm
    exact ⟨a, w₂, h₂, fun token htoken =>
      List.mem_append_left _ (List.mem_append_right _ htoken)⟩

/-- A kept token is the last one that was delivered. -/
theorem mem_delivered_of_kept (h : Lalr1Parser.Consistent g tables delivered q)
    (hkept : q.nextToken = some token) : token ∈ delivered := by
  obtain ⟨stack, w, -, -, rfl⟩ := h
  rw [hkept]
  exact List.mem_append_right _ List.mem_cons_self

/-- The token that comes next has types. -/
theorem Parsing.getNextSymbol_yields (ht : t.LeadsOn) (h : Parsing g rules tables t delivered p) :
    Yields (p.parser.getNextSymbol t fuel)
      (fun r => Scanner.Ready t r.1.lexer ∧ r.1.lexer.KeepsTypes t ∧ r.2.HasTypes t ∧
        ∀ token ∈ delivered ++ p.parser.delivers r.2, token.HasTypes t) Fault.IsDefined := by
  have hnext : Yields (p.parser.getNextSymbol t fuel) _ _ :=
    SemanticParser.getNextSymbol_yields ht h.ready h.lexer
  cases hresult : p.parser.getNextSymbol t fuel with
  | error fault => exact hnext.of_error hresult
  | ok r =>
    obtain ⟨hready, hlexer, hnew⟩ := hnext.of_ok hresult
    have htokens := List.forall_mem_append.2 ⟨h.tokens, hnew⟩
    refine ⟨hready, hlexer, ?_, htokens⟩
    unfold Lalr1Parser.delivers at hnew
    unfold Lalr1Parser.getNextSymbol at hresult
    cases hkept : p.parser.nextToken with
    | none =>
      rw [hkept] at hnew
      exact hnew _ List.mem_cons_self
    | some token =>
      rw [hkept] at hresult
      cases hresult
      exact h.tokens token (mem_delivered_of_kept h.consistent hkept)

/-- A token is of the sort of each of its types. -/
theorem sorts_of_hasTypes
    (hleaf : ∀ typeIds, t.GivesTypes typeIds → ∀ a ∈ typeIds, ∀ token, HasSort a (.token token))
    {w : List Token} (htokens : ∀ token ∈ w, token.HasTypes t) :
    ∀ token ∈ w, ∀ a ∈ g.semantics.types token, HasSort a (.token token) := by
  intro token htoken a ha
  have ha : a ∈ token.typeIds.getD [] := ha
  obtain ⟨typeIds, htypes, hgives⟩ := htokens token htoken
  rw [htypes] at ha
  exact hleaf typeIds hgives a ha token

/-- An iteration has no undefined behaviour, and it runs rules on symbols of their
sorts only. -/
theorem Parsing.advance (htables : Lalr1Parser.TablesOf g Items tables) (ht : t.LeadsOn)
    (hrules : KeepsSorts g rules HasSort Allowed)
    (hleaf : ∀ typeIds, t.GivesTypes typeIds → ∀ a ∈ typeIds, ∀ token, HasSort a (.token token))
    (h : Parsing g rules tables t delivered p) :
    Yields (p.advance rules tables t fuel)
      (fun r => (r.2.1 = false → ∃ delivered', Parsing g rules tables t delivered' r.1) ∧
        (r.2.2 = true → Accepted g rules t r.1))
      (ParseFault.IsAllowed Allowed) := by
  unfold SemanticParser.advance SemanticParser.getNextSymbol
  have hyields : Yields (p.parser.getNextSymbol t fuel) _ _ := h.getNextSymbol_yields ht
  cases hnext : p.parser.getNextSymbol t fuel with
  | error fault => exact hyields.of_error hnext
  | ok result =>
    obtain ⟨q₁, token⟩ := result
    obtain ⟨hready, hlexer, ⟨typeIds, htypes, -⟩, htokens⟩ := hyields.of_ok hnext
    show Yields ((derefOr .nullPointer token.typeIds).mapError ParseFault.parser >>= _) _ _
    rw [htypes]
    obtain ⟨q', done, accept, hq', hgoes, hparsed⟩ := h.consistent.parseAdvance htables hnext htypes
    have hevaluated : Evaluated rules { p with parser := q₁ } := by
      have hmatches : q₁.parseStackMatches = p.parser.parseStackMatches := by
        obtain ⟨stack, w, hholds, -⟩ := h.consistent
        exact (hholds.getNextSymbol hnext).1.symbols.trans hholds.symbols.symm
      unfold Evaluated
      rw [hmatches]
      exact h.evaluated
    refine (hevaluated.parseAdvance hq').mono (fun r hr => ?_) fun fault hfault => ?_
    · obtain ⟨p', done', accept'⟩ := r
      obtain ⟨rfl, hr, hvalues⟩ := hr
      cases hr
      have hsame := lexer_of_parseAdvance hq'
      refine ⟨fun hdone => ⟨_, hgoes hdone, hvalues, ?_, ?_, htokens⟩,
        fun haccept => accepted_of_isParsed (hparsed haccept) hvalues htokens⟩
      · rw [hsame]
        exact hready
      · rw [hsame]
        exact hlexer
    · obtain ⟨hdone, e, tree, address, rfl, htop, hthrows⟩ := hfault
      obtain ⟨a, w, hsentence, hw⟩ := exists_sentence_of_top (hgoes hdone) htop
      have hsorts := sorts_of_hasTypes (g := g) hleaf fun token htoken =>
        htokens token (hw token htoken)
      have hevaluates := yields_evalSymbol hrules hsorts hsentence address
      exact hevaluates.of_error hthrows

end Run

end SemanticParser

end LogSurgeon
