import LogSurgeon.SchemaParser.ParsingTable

/-!
# Runs of the generated parser

`Lalr1Parser::parse` with the tables of a grammar, whatever the lexer delivers.
`ParseRun` is its loop, wherever the reads come from: it counts the iterations
and keeps the tokens that the lexer has delivered.

* `Holds`: the two stacks of the parser are the one of a shift-reduce machine.
* `parseAdvance_cases`: an iteration is a step of the machine, it accepts, or it
  finds no action for any symbol of the token.
* A parser that accepts has the tree of a sentence, and a sentence is accepted
  if the generation lost no action to the one that accepts.
-/

namespace LogSurgeon

open Lib Lib.Grammar

namespace Lalr1Parser

/-- A read of the loop. -/
def readIfSafe (reader : Reader) (p : Lalr1Parser) : Lalr1Parser :=
  { p with inputBuffer := (p.inputBuffer.readIfSafe reader).2.1 }

/-- The loop of `parse`, which goes on whatever a read returns. -/
def parseLoop (t : LexerTables) (tables : ParseTables) (fuel : Nat) :
    Nat → Reader → Lalr1Parser → Except Fault (Lalr1Parser × Bool)
  | 0, _, _ => .error .outOfSteps
  | steps + 1, reader, p => do
    let (p', done, accept) ← (p.readIfSafe reader).advance t tables fuel
    if done then return (p', accept)
    else parseLoop t tables fuel steps (p.inputBuffer.readIfSafe reader).2.2 p'

/-- The symbol that is left on the stack.  An input that is not accepted is
reported by an exception. -/
def parse (t : LexerTables) (tables : ParseTables) (fuel steps : Nat) (reader : Reader)
    (p : Lalr1Parser) : Except Fault MatchedSymbol := do
  let (p, accept) ← parseLoop t tables fuel steps reader (p.reset tables)
  if ¬ accept then .error .thrown
  else
    match p.parseStackMatches.head? with
    | some (.nonTerminal production symbols) => return .nonTerminal production symbols
    | _ => .error .thrown

/-- A token that was kept is not delivered again. -/
def delivers (p : Lalr1Parser) (token : Token) : List Token :=
  match p.nextToken with
  | none => [token]
  | some _ => []

/-- The loop of `parse` behind a read, after a number of iterations. -/
inductive ParseRun (t : LexerTables) (tables : ParseTables) (fuel : Nat) :
    Nat → List Token → Lalr1Parser → Prop
  | start (p : Lalr1Parser) (reader : Reader) :
      ParseRun t tables fuel 0 [] ((p.reset tables).readIfSafe reader)
  | next {n : Nat} {delivered : List Token} {p p₁ p' : Lalr1Parser} {token : Token}
      {typeIds : List Nat} {accept : Bool} (reader : Reader) :
      ParseRun t tables fuel n delivered p → p.getNextSymbol t fuel = .ok (p₁, token) →
      token.typeIds = some typeIds →
      p₁.parseAdvance tables token typeIds = .ok (p', false, accept) →
      ParseRun t tables fuel (n + 1) (delivered ++ p.delivers token) (p'.readIfSafe reader)

/-- The stacks of the parser are that of the machine, above the root set. -/
structure Holds (tables : ParseTables) (stack : List (Nat × MatchedSymbol)) (p : Lalr1Parser) :
    Prop where
  states : p.parseStackStates = stack.map Prod.fst ++ [tables.rootItemSet]
  symbols : p.parseStackMatches = stack.map Prod.snd

section Step

variable {g : ParserGrammar} {tables : ParseTables} {stack stack' : List (Nat × MatchedSymbol)}
  {p p₁ p' : Lalr1Parser} {token : Token} {typeIds : List Nat} {i j s n : Nat}

theorem Holds.readIfSafe (h : Holds tables stack p) (reader : Reader) :
    Holds tables stack (p.readIfSafe reader) := ⟨h.states, h.symbols⟩

theorem Holds.head? (h : Holds tables stack p) :
    p.parseStackStates.head? = some ((tables.machine g).top stack) := by
  rw [h.states]
  cases stack <;> rfl

theorem Holds.drop (h : Holds tables stack p) (hn : n ≤ stack.length) :
    p.parseStackStates.drop n = (stack.drop n).map Prod.fst ++ [tables.rootItemSet] := by
  rw [h.states, List.drop_append_of_le_length (by simpa using hn), List.map_drop]

/-- Taking the next token leaves the stacks. -/
theorem Holds.getNextSymbol {t : LexerTables} {fuel : Nat} (h : Holds tables stack p)
    (hnext : p.getNextSymbol t fuel = .ok (p₁, token)) :
    Holds tables stack p₁ ∧ p₁.nextToken = none ∧
      p.nextToken.toList ++ p.delivers token = [token] := by
  unfold Lalr1Parser.getNextSymbol at hnext
  unfold delivers
  split at hnext
  · rename_i hnone
    obtain ⟨⟨s, result⟩, -, hnext⟩ := exists_of_bind_eq_ok hnext
    cases result with
    | error err => cases hnext
    | ok token' =>
      cases hnext
      rw [hnone]
      exact ⟨⟨h.states, h.symbols⟩, rfl, rfl⟩
  · rename_i kept hsome
    cases hnext
    rw [hsome]
    exact ⟨⟨h.states, h.symbols⟩, rfl, rfl⟩

/-- A reduction of the parser is one of the machine. -/
theorem Holds.reduce (hrule : tables.productions = g.rule) (h : Holds tables stack p)
    (hreduce : (tables.machine g).reduce i stack = some stack') (token : Token) :
    ∃ p', p.reduce tables token i = .ok p' ∧ Holds tables stack' p' ∧
      p'.nextToken = some token := by
  unfold ShiftReduce.reduce at hreduce
  dsimp only at hreduce
  have hbody : ((tables.machine g).rule i).body = (tables.productions i).body := by
    rw [hrule]
    rfl
  have hhead : ((tables.machine g).rule i).head = (tables.productions i).head := by
    rw [hrule]
    rfl
  rw [hbody, hhead] at hreduce
  generalize hn : (tables.productions i).body.length = n at hreduce
  split at hreduce
  · cases hreduce
  · rename_i hlength
    have hdrop := h.drop (Nat.not_lt.1 hlength)
    split at hreduce
    · rename_i q hgoto
      cases hreduce
      have hgoto := move_eq_shift.1 hgoto
      have htop : (p.parseStackStates.drop n).head? =
          some ((tables.machine g).top (stack.drop n)) := by
        rw [hdrop]
        cases stack.drop n <;> rfl
      unfold Lalr1Parser.reduce
      dsimp only
      rw [hn, htop, derefOr_some]
      dsimp only [bind, Except.bind]
      rw [hgoto]
      refine ⟨_, rfl, ⟨?_, ?_⟩, rfl⟩
      · show q :: p.parseStackStates.drop n = _
        rw [hdrop]
        rfl
      · show MatchedSymbol.nonTerminal i (p.parseStackMatches.take n).reverse ::
          p.parseStackMatches.drop n = _
        rw [h.symbols, ← List.map_take, ← List.map_drop]
        rfl
    · cases hreduce

/-- What a symbol does by its action. -/
theorem parseSymbol_of_accepting {isAccepting : Bool} (hcurr : p.parseStackStates.head? = some j)
    (haction : tables.actions j s = .accepting isAccepting) :
    p.parseSymbol tables s token = .ok (p, isAccepting, isAccepting) := by
  unfold parseSymbol
  rw [hcurr, derefOr_some]
  dsimp only [bind, Except.bind]
  rw [haction]
  rfl

theorem parseSymbol_of_shift (hcurr : p.parseStackStates.head? = some j)
    (haction : tables.actions j s = .shift i) :
    p.parseSymbol tables s token = .ok ({ p with
      parseStackStates := i :: p.parseStackStates
      parseStackMatches := .token token :: p.parseStackMatches }, true, false) := by
  unfold parseSymbol
  rw [hcurr, derefOr_some]
  dsimp only [bind, Except.bind]
  rw [haction]
  rfl

theorem parseSymbol_of_reduce (hcurr : p.parseStackStates.head? = some j)
    (haction : tables.actions j s = .reduce i) (hreduce : p.reduce tables token i = .ok p') :
    p.parseSymbol tables s token = .ok (p', true, false) := by
  unfold parseSymbol
  rw [hcurr, derefOr_some]
  dsimp only [bind, Except.bind]
  rw [haction]
  dsimp only
  rw [hreduce]
  rfl

/-- What an iteration does with a token, if reductions find what they need. -/
theorem parseAdvance_cases (hrule : tables.productions = g.rule) (h : Holds tables stack p)
    (hreduces : ∀ s i, (tables.machine g).move ((tables.machine g).top stack) s = .reduce i →
      ∃ stack', (tables.machine g).reduce i stack = some stack') (token : Token)
    (typeIds : List Nat) :
    ((tables.machine g).look ((tables.machine g).top stack) typeIds = .error ∧
        p.parseAdvance tables token typeIds = .ok
          ({ p with parseStackMatches := .token token :: p.parseStackMatches }, true, false)) ∨
      ((tables.machine g).look ((tables.machine g).top stack) typeIds = .accept ∧
        p.parseAdvance tables token typeIds = .ok (p, true, true)) ∨
      (∃ j p', (tables.machine g).look ((tables.machine g).top stack) typeIds = .shift j ∧
        p.parseAdvance tables token typeIds = .ok (p', false, false) ∧
        Holds tables ((j, .token token) :: stack) p' ∧ p'.nextToken = p.nextToken) ∨
      ∃ i stack' p', (tables.machine g).look ((tables.machine g).top stack) typeIds = .reduce i ∧
        (tables.machine g).reduce i stack = some stack' ∧
        p.parseAdvance tables token typeIds = .ok (p', false, false) ∧
        Holds tables stack' p' ∧ p'.nextToken = some token := by
  induction typeIds with
  | nil => exact Or.inl ⟨rfl, rfl⟩
  | cons s typeIds ih =>
    unfold Lalr1Parser.parseAdvance ShiftReduce.look
    cases haction : tables.actions ((tables.machine g).top stack) s with
    | accepting isAccepting =>
      cases isAccepting with
      | true =>
        have hmove : (tables.machine g).move ((tables.machine g).top stack) s = .accept :=
          move_eq_accept.2 haction
        rw [hmove, parseSymbol_of_accepting h.head? haction]
        exact Or.inr (Or.inl ⟨rfl, rfl⟩)
      | false =>
        have hmove : (tables.machine g).move ((tables.machine g).top stack) s = .error := by
          show tables.move _ _ = _
          unfold ParseTables.move
          rw [haction]
        rw [hmove, parseSymbol_of_accepting h.head? haction]
        exact ih
    | shift j =>
      have hmove : (tables.machine g).move ((tables.machine g).top stack) s = .shift j :=
        move_eq_shift.2 haction
      rw [hmove, parseSymbol_of_shift h.head? haction]
      refine Or.inr (Or.inr (Or.inl ⟨j, _, rfl, rfl, ⟨?_, ?_⟩, rfl⟩))
      · show j :: p.parseStackStates = _
        rw [h.states]
        rfl
      · show MatchedSymbol.token token :: p.parseStackMatches = _
        rw [h.symbols]
        rfl
    | reduce i =>
      have hmove : (tables.machine g).move ((tables.machine g).top stack) s = .reduce i :=
        move_eq_reduce.2 haction
      obtain ⟨stack', hstack'⟩ := hreduces s i hmove
      obtain ⟨p', hreduce, hholds, hkept⟩ := h.reduce hrule hstack' token
      rw [hmove, parseSymbol_of_reduce h.head? haction hreduce]
      exact Or.inr (Or.inr (Or.inr ⟨i, stack', p', rfl, hstack', rfl, hholds, hkept⟩))

end Step

/-! ## A parser of letters -/

def letterLexer : LexerTables where
  isDelimiter := fun _ => false
  hasDelimiters := false
  isFirstCharOfAVariable := fun c => c = 97
  dfa := {
    states := [{ bytesTransition := .insertOrAssign 97 ⟨[], 1⟩ .empty },
      { matchingVariableIds := [7] }]
    tagIdToFinalRegId := .empty
    regHandler := .new }
  ruleIdToCapture := []
  captureToTagIdPair := []

def letterParser : Lalr1Parser where
  lexer := .new letterLexer
  inputBuffer := { storage := { staticStorage := fun _ => 0 } }

/-! ## What a run has read -/

section Run

variable {g : ParserGrammar} {tables : ParseTables} {t : LexerTables} {fuel fuel' n : Nat}
  {hasSemanticRule : Nat → Bool} {p p₁ p' : Lalr1Parser} {delivered : List Token} {token : Token}
  {typeIds : List Nat} {accept done : Bool} {Items : Nat → Nat → Nat → Prop}

/-- The stack holds what was delivered, apart from a token that is kept. -/
def Consistent (g : ParserGrammar) (tables : ParseTables) (delivered : List Token)
    (p : Lalr1Parser) : Prop :=
  ∃ stack w, Holds tables stack p ∧ (tables.machine g).HasRead stack w ∧
    delivered = w ++ p.nextToken.toList

/-- What the tables of a grammar are to the parser. -/
structure TablesOf (g : ParserGrammar) (Items : Nat → Nat → Nat → Prop) (tables : ParseTables) :
    Prop where
  rule : tables.productions = g.rule
  sound : (tables.machine g).SoundItems g.rootProductionId Items
  accepting : ∀ i s, tables.actions i s = .accepting true → s = SymbolId.tokenEnd.toNat

/-- The tree that an accepting parser has is that of the tokens before the end,
which is the last one. -/
def IsParsed (g : ParserGrammar) (delivered : List Token) (tokenEnd : Token)
    (typeIds : List Nat) (p : Lalr1Parser) : Prop :=
  ∃ w tree, delivered = w ++ [tokenEnd] ∧ SymbolId.tokenEnd.toNat ∈ typeIds ∧
    p.parseStackMatches = [tree] ∧ g.semantics.Evaluates [g.startSymbol] w [tree]

/-- An iteration returns, and a parser that goes on is consistent again. -/
theorem Consistent.parseAdvance (htables : TablesOf g Items tables)
    (h : Consistent g tables delivered p) (hnext : p.getNextSymbol t fuel = .ok (p₁, token))
    (htypes : token.typeIds = some typeIds) :
    ∃ p' done accept, p₁.parseAdvance tables token typeIds = .ok (p', done, accept) ∧
      (done = false → Consistent g tables (delivered ++ p.delivers token) p') ∧
      (accept = true → IsParsed g (delivered ++ p.delivers token) token typeIds p') := by
  obtain ⟨stack, w, hholds, hread, rfl⟩ := h
  obtain ⟨hholds₁, hnone, htoken⟩ := hholds.getNextSymbol hnext
  have hdelivered : w ++ p.nextToken.toList ++ p.delivers token = w ++ [token] := by
    rw [List.append_assoc, htoken]
  have hreduces : ∀ s i, (tables.machine g).move ((tables.machine g).top stack) s = .reduce i →
      ∃ stack', (tables.machine g).reduce i stack = some stack' := by
    intro s i hmove
    obtain ⟨stack', hstack', -⟩ := hread.reduce htables.sound hmove
    exact ⟨stack', hstack'⟩
  rw [hdelivered]
  rcases parseAdvance_cases htables.rule hholds₁ hreduces token typeIds with ⟨-, herror⟩ |
    ⟨hlook, haccept⟩ | ⟨j, p', hlook, hshift, hholds', hkept⟩ |
    ⟨i, stack', p', hlook, hstack', hreduce, hholds', hkept⟩
  · exact ⟨_, true, false, herror, (by simp), (by simp)⟩
  · refine ⟨p₁, true, true, haccept, (by simp), fun _ => ?_⟩
    obtain ⟨s, hs, hmove⟩ := ShiftReduce.exists_move_of_look hlook (by simp)
    have hvalues := hread.accept htables.sound hmove
    have hbody : ((tables.machine g).rule g.rootProductionId).body = [g.startSymbol] := g.body_root
    rw [hbody] at hvalues
    have hlength := hvalues.length_eq
    obtain ⟨tree, htree⟩ := List.length_eq_one_iff.1 hlength
    rw [htree] at hvalues
    have hend := htables.accepting _ _ (move_eq_accept.1 hmove)
    refine ⟨w, tree, rfl, hend ▸ hs, ?_, hvalues⟩
    rw [hholds₁.symbols, ← List.reverse_reverse (stack.map Prod.snd), htree]
    rfl
  · obtain ⟨s, hs, hmove⟩ := ShiftReduce.exists_move_of_look hlook (by simp)
    have ht : s ∈ (tables.machine g).types token := by
      show s ∈ token.typeIds.getD []
      rw [htypes]
      exact hs
    refine ⟨p', false, false, hshift,
      fun _ => ⟨_, w ++ [token], hholds', hread.shift ht hmove, ?_⟩, (by simp)⟩
    rw [hkept, hnone]
    simp
  · obtain ⟨s, -, hmove⟩ := ShiftReduce.exists_move_of_look hlook (by simp)
    obtain ⟨stack₁, hstack₁, hread'⟩ := hread.reduce htables.sound hmove
    rw [hstack'] at hstack₁
    cases hstack₁
    refine ⟨p', false, false, hreduce, fun _ => ⟨stack', w, hholds', hread', ?_⟩, (by simp)⟩
    rw [hkept]
    rfl

theorem ParseRun.consistent (htables : TablesOf g Items tables)
    (h : ParseRun t tables fuel n delivered p) : Consistent g tables delivered p := by
  induction h with
  | start p reader => exact ⟨[], [], ⟨rfl, rfl⟩, ShiftReduce.hasRead_nil, rfl⟩
  | next reader _ hnext htypes hadvance ih =>
    obtain ⟨p', done, accept, hreturns, hgoes, -⟩ := ih.parseAdvance htables hnext htypes
    rw [hadvance] at hreturns
    cases hreturns
    obtain ⟨stack, w, hholds, hread, hdelivered⟩ := hgoes rfl
    exact ⟨stack, w, hholds.readIfSafe reader, hread, hdelivered⟩

theorem tablesOf_generate (hg : g.Reduced) (h : generate g hasSemanticRule fuel = .ok tables) :
    ∃ Items, TablesOf g Items tables := by
  obtain ⟨n, lookaheads, lr1, -, his, htable, hrule, hroot⟩ := exists_of_generate hg h
  refine ⟨_, hrule, soundItems hg his htable hroot, fun i s haccept => ?_⟩
  obtain ⟨item, -, hwants⟩ := htable.sound i s (by rw [haccept]; exact fun h => by cases h)
  rw [haccept] at hwants
  exact hwants.of_accept.2.2

/-- An iteration returns for every token with types: a reduction finds the
symbols of its body on the stack, and a set for its head. -/
theorem parseAdvance_returns (hg : g.Reduced)
    (hgenerate : generate g hasSemanticRule fuel' = .ok tables)
    (hrun : ParseRun t tables fuel n delivered p)
    (hnext : p.getNextSymbol t fuel = .ok (p₁, token)) (htypes : token.typeIds = some typeIds) :
    ∃ result, p₁.parseAdvance tables token typeIds = .ok result := by
  obtain ⟨Items, htables⟩ := tablesOf_generate hg hgenerate
  obtain ⟨p', done, accept, hreturns, -⟩ :=
    (hrun.consistent htables).parseAdvance htables hnext htypes
  exact ⟨_, hreturns⟩

/-- The first token of the text `aa`. -/
def firstLetter : Except Fault (ParseTables × Lalr1Parser × Token × List Nat) := do
  let tables ← generate lettersGrammar (fun _ => true) 12
  let (p, token) ← ((letterParser.reset tables).readIfSafe (.ofBytes [97, 97])).getNextSymbol
    letterLexer 20
  return (tables, p, token, ← derefOr .nullPointer token.typeIds)

theorem parseAdvance_returns_letters :
    ∃ tables p token typeIds, generate lettersGrammar (fun _ => true) 12 = .ok tables ∧
      ((letterParser.reset tables).readIfSafe (.ofBytes [97, 97])).getNextSymbol letterLexer 20 =
        .ok (p, token) ∧ token.typeIds = some typeIds ∧
      ∃ result, p.parseAdvance tables token typeIds = .ok result := by
  have hok : firstLetter.isOk = true := by decide +kernel
  obtain ⟨⟨tables, p, token, typeIds⟩, hfirst⟩ := exists_of_isOk hok
  obtain ⟨tables', hgenerate, hfirst⟩ := exists_of_bind_eq_ok hfirst
  obtain ⟨⟨p', token'⟩, hnext, hfirst⟩ := exists_of_bind_eq_ok hfirst
  obtain ⟨typeIds', htypes, hfirst⟩ := exists_of_bind_eq_ok hfirst
  cases hfirst
  have htypes := eq_some_of_derefOr htypes
  exact ⟨tables, p, token, typeIds, hgenerate, hnext, htypes,
    parseAdvance_returns reduced_lettersGrammar hgenerate (.start _ _) hnext htypes⟩

/-- A parser that accepts has one symbol left, which is the tree of the tokens
that the lexer has delivered in front of the end. -/
theorem accepted_is_sentence (hg : g.Reduced)
    (hgenerate : generate g hasSemanticRule fuel' = .ok tables)
    (hrun : ParseRun t tables fuel n delivered p)
    (hnext : p.getNextSymbol t fuel = .ok (p₁, token)) (htypes : token.typeIds = some typeIds)
    (haccept : p₁.parseAdvance tables token typeIds = .ok (p', done, true)) :
    IsParsed g (delivered ++ p.delivers token) token typeIds p' := by
  obtain ⟨Items, htables⟩ := tablesOf_generate hg hgenerate
  obtain ⟨p'', done', accept, hreturns, -, hparsed⟩ :=
    (hrun.consistent htables).parseAdvance htables hnext htypes
  rw [haccept] at hreturns
  cases hreturns
  exact hparsed rfl

/-- The last iteration of the loop. -/
theorem exists_of_parseLoop {steps : Nat} {reader : Reader}
    (hrun : ∀ reader, ParseRun t tables fuel n delivered (p.readIfSafe reader))
    (h : parseLoop t tables fuel steps reader p = .ok (p', accept)) :
    ∃ n delivered q p₁ token typeIds, ParseRun t tables fuel n delivered q ∧
      q.getNextSymbol t fuel = .ok (p₁, token) ∧ token.typeIds = some typeIds ∧
      p₁.parseAdvance tables token typeIds = .ok (p', true, accept) := by
  induction steps generalizing n delivered p reader with
  | zero => cases h
  | succ steps ih =>
    obtain ⟨⟨p₂, done, accept'⟩, hadvance, h⟩ := exists_of_bind_eq_ok h
    obtain ⟨⟨p₁, token⟩, hnext, hadvance⟩ := exists_of_bind_eq_ok hadvance
    obtain ⟨typeIds, htypes, hadvance⟩ := exists_of_bind_eq_ok hadvance
    have htypes := eq_some_of_derefOr htypes
    cases done with
    | true =>
      cases h
      exact ⟨n, delivered, _, p₁, token, typeIds, hrun reader, hnext, htypes, hadvance⟩
    | false => exact ih (fun reader' => (hrun reader).next reader' hnext htypes hadvance) h

/-- What `parse` returns is the tree of the tokens that the lexer has delivered in
front of the end. -/
theorem parse_is_sentence {steps : Nat} {reader : Reader} {tree : MatchedSymbol} (hg : g.Reduced)
    (hgenerate : generate g hasSemanticRule fuel' = .ok tables)
    (h : p.parse t tables fuel steps reader = .ok tree) :
    ∃ n delivered q p₁ token w, ParseRun t tables fuel n delivered q ∧
      q.getNextSymbol t fuel = .ok (p₁, token) ∧
      delivered ++ q.delivers token = w ++ [token] ∧
      SymbolId.tokenEnd.toNat ∈ token.typeIds.getD [] ∧
      g.semantics.Evaluates [g.startSymbol] w [tree] := by
  obtain ⟨⟨p', accept⟩, hloop, h⟩ := exists_of_bind_eq_ok h
  obtain ⟨n, delivered, q, p₁, token, typeIds, hrun, hnext, htypes, hadvance⟩ :=
    exists_of_parseLoop (fun reader => .start p reader) hloop
  cases accept with
  | false => cases h
  | true =>
    obtain ⟨w, tree', hdelivered, hend, hstack, hsentence⟩ :=
      accepted_is_sentence hg hgenerate hrun hnext htypes hadvance
    have htree : tree' = tree := by
      dsimp only at h
      rw [hstack] at h
      cases tree' with
      | token => cases h
      | nonTerminal production symbols =>
        cases h
        rfl
    refine ⟨n, delivered, q, p₁, token, w, hrun, hnext, hdelivered, ?_, htree ▸ hsentence⟩
    rw [htypes]
    exact hend

/-- The text `aa`. -/
def twoLetters : Except Fault (ParseTables × MatchedSymbol) := do
  let tables ← generate lettersGrammar (fun _ => true) 12
  return (tables, ← letterParser.parse letterLexer tables 20 10 (.ofBytes [97, 97]))

theorem parse_is_sentence_letters :
    ∃ tables tree, generate lettersGrammar (fun _ => true) 12 = .ok tables ∧
      letterParser.parse letterLexer tables 20 10 (.ofBytes [97, 97]) = .ok tree ∧
      ∃ n delivered q p₁ token w, ParseRun letterLexer tables 20 n delivered q ∧
        q.getNextSymbol letterLexer 20 = .ok (p₁, token) ∧
        delivered ++ q.delivers token = w ++ [token] ∧
        SymbolId.tokenEnd.toNat ∈ token.typeIds.getD [] ∧
        lettersGrammar.semantics.Evaluates [8] w [tree] := by
  have hok : twoLetters.isOk = true := by decide +kernel
  obtain ⟨⟨tables, tree⟩, hparse⟩ := exists_of_isOk hok
  obtain ⟨tables', hgenerate, hparse⟩ := exists_of_bind_eq_ok hparse
  obtain ⟨tree', htree, hparse⟩ := exists_of_bind_eq_ok hparse
  cases hparse
  exact ⟨tables, tree, hgenerate, htree, parse_is_sentence reduced_lettersGrammar hgenerate htree⟩

end Run

/-! ## Sentences -/

section Sentence

variable {g : ParserGrammar} {tables : ParseTables} {t : LexerTables} {fuel fuel' n : Nat}
  {hasSemanticRule : Nat → Bool} {p p₁ p' : Lalr1Parser} {delivered input : List Token}
  {token : Token} {Items : Nat → Nat → Nat → Prop}

/-- The parser is where the machine is after as many steps on the input. -/
structure Follows (g : ParserGrammar) (tables : ParseTables) (input : List Token) (n : Nat)
    (delivered : List Token) (p : Lalr1Parser) (stack : List (Nat × MatchedSymbol))
    (consumed rest : List Token) : Prop where
  steps : (tables.machine g).steps n ([], input) = some (stack, rest)
  holds : Holds tables stack p
  read : (tables.machine g).HasRead stack consumed
  input : input = consumed ++ rest
  delivered : delivered = consumed ++ p.nextToken.toList

theorem Follows.rest_eq {stack : List (Nat × MatchedSymbol)} {consumed rest : List Token}
    (h : Follows g tables input n delivered p stack consumed rest)
    (hnext : p.getNextSymbol t fuel = .ok (p₁, token))
    (hleft : delivered ++ p.delivers token <+: input) :
    delivered ++ p.delivers token = consumed ++ [token] ∧ ∃ rest', rest = token :: rest' := by
  obtain ⟨-, -, htoken⟩ := h.holds.getNextSymbol hnext
  have hdelivered : delivered ++ p.delivers token = consumed ++ [token] := by
    rw [h.delivered, List.append_assoc, htoken]
  refine ⟨hdelivered, ?_⟩
  rw [hdelivered, h.input, List.prefix_append_right_inj] at hleft
  obtain ⟨rest', hrest⟩ := hleft
  exact ⟨rest', hrest.symm⟩

theorem Follows.reduces (htables : TablesOf g Items tables)
    {stack : List (Nat × MatchedSymbol)} {consumed rest : List Token}
    (h : Follows g tables input n delivered p stack consumed rest) :
    ∀ s i, (tables.machine g).move ((tables.machine g).top stack) s = .reduce i →
      ∃ stack', (tables.machine g).reduce i stack = some stack' := by
  intro s i hmove
  obtain ⟨stack', hstack', -⟩ := h.read.reduce htables.sound hmove
  exact ⟨stack', hstack'⟩

/-- As long as the lexer delivers the input, a run makes the steps of the
machine. -/
theorem ParseRun.follows (htables : TablesOf g Items tables)
    (h : ParseRun t tables fuel n delivered p) (hleft : delivered <+: input) :
    ∃ stack consumed rest, Follows g tables input n delivered p stack consumed rest := by
  induction h with
  | start p reader =>
    exact ⟨[], [], input, ⟨rfl, ⟨rfl, rfl⟩, ShiftReduce.hasRead_nil, rfl, rfl⟩⟩
  | @next n delivered p p₁ p' token typeIds accept reader _ hnext htypes hadvance ih =>
    obtain ⟨stack, consumed, rest, hfollows⟩ := ih ((List.prefix_append _ _).trans hleft)
    obtain ⟨hdelivered, rest', rfl⟩ := hfollows.rest_eq hnext hleft
    obtain ⟨hholds₁, hnone, -⟩ := hfollows.holds.getNextSymbol hnext
    have htypes' : (tables.machine g).types token = typeIds := by
      show token.typeIds.getD [] = typeIds
      rw [htypes]
      rfl
    rcases parseAdvance_cases htables.rule hholds₁ (hfollows.reduces htables) token typeIds with
      ⟨-, herror⟩ | ⟨-, haccept⟩ | ⟨j, p'', hlook, hshift, hholds', hkept⟩ |
      ⟨i, stack', p'', hlook, hstack', hreduce, hholds', hkept⟩
    · rw [herror] at hadvance
      cases hadvance
    · rw [haccept] at hadvance
      cases hadvance
    · rw [hshift] at hadvance
      cases hadvance
      obtain ⟨s, hs, hmove⟩ := ShiftReduce.exists_move_of_look hlook (by simp)
      rw [← htypes'] at hlook hs
      refine ⟨_, consumed ++ [token], rest', ⟨?_, hholds'.readIfSafe reader,
        hfollows.read.shift hs hmove, ?_, ?_⟩⟩
      · rw [ShiftReduce.steps_trans hfollows.steps, ShiftReduce.steps_one]
        exact ShiftReduce.step_shift hlook
      · rw [hfollows.input, List.append_cons]
      · rw [hdelivered]
        show consumed ++ [token] = consumed ++ [token] ++ p'.nextToken.toList
        rw [hkept, hnone]
        simp
    · rw [hreduce] at hadvance
      cases hadvance
      obtain ⟨s, -, hmove⟩ := ShiftReduce.exists_move_of_look hlook (by simp)
      obtain ⟨stack₁, hstack₁, hread'⟩ := hfollows.read.reduce htables.sound hmove
      rw [hstack'] at hstack₁
      cases hstack₁
      rw [← htypes'] at hlook
      refine ⟨stack', consumed, token :: rest', ⟨?_, hholds'.readIfSafe reader, hread',
        hfollows.input, ?_⟩⟩
      · rw [ShiftReduce.steps_trans hfollows.steps, ShiftReduce.steps_one]
        exact ShiftReduce.step_reduce hlook hstack'
      · rw [hdelivered]
        show consumed ++ [token] = consumed ++ p'.nextToken.toList
        rw [hkept]
        rfl

/-- Every token has one type, which is a terminal. -/
def SingleTyped (g : ParserGrammar) (w : List Token) : Prop :=
  ∀ token ∈ w, ∃ a ∈ g.terminals, token.typeIds = some [a]

theorem types_of_typeIds {a : Nat} (h : token.typeIds = some [a]) :
    (tables.machine g).types token = [a] := by
  show token.typeIds.getD [] = [a]
  rw [h]
  rfl

theorem SingleTyped.isToken {w : List Token} (h : SingleTyped g w) :
    ∀ token ∈ w, ∀ a ∈ (tables.machine g).types token, a ∈ g.terminals.toList := by
  intro token hmem a ha
  obtain ⟨b, hb, htypes⟩ := h token hmem
  rw [types_of_typeIds htypes] at ha
  rw [List.mem_singleton.1 ha]
  exact hb

theorem SingleTyped.exists_types {w : List Token} (h : SingleTyped g w) :
    ∀ token ∈ w, ∃ a, (tables.machine g).types token = [a] := by
  intro token hmem
  obtain ⟨b, -, htypes⟩ := h token hmem
  exact ⟨b, types_of_typeIds htypes⟩

/-- With a sentence and its end the loop makes a number of iterations, and in the
last one it accepts the tree of the sentence. -/
theorem sentence_is_accepted (hg : g.Reduced) (htokens : g.TokensApart)
    (hgenerate : generate g hasSemanticRule fuel' = .ok tables)
    {numbering : Numbering (OrderedSet Item) Nat} {lr1 : Lr1ItemSets}
    (hsets : generateItemSets g fuel' = .ok (numbering, lr1)) (halone : AcceptsAlone g lr1)
    {w : List Token} {tree : MatchedSymbol} {tokenEnd : Token}
    (hsentence : g.semantics.Evaluates [g.startSymbol] w [tree]) (hsingle : SingleTyped g w)
    (hend : tokenEnd.typeIds = some [SymbolId.tokenEnd.toNat]) :
    ∃ last, ∀ (t : LexerTables) (fuel n : Nat) (delivered : List Token) (p p₁ : Lalr1Parser)
      (token : Token), ParseRun t tables fuel n delivered p →
      p.getNextSymbol t fuel = .ok (p₁, token) →
      delivered ++ p.delivers token <+: w ++ [tokenEnd] →
      n ≤ last ∧ ∃ typeIds p' done, token.typeIds = some typeIds ∧
        p₁.parseAdvance tables token typeIds = .ok (p', done, done) ∧
        (done = true ↔ n = last) ∧
        (done = true → delivered ++ p.delivers token = w ++ [tokenEnd] ∧
          p'.parseStackMatches = [tree]) := by
  obtain ⟨numbering', lookaheads, lr1', hsets', his, htable, hrule, hroot⟩ :=
    exists_of_generate hg hgenerate
  rw [hsets] at hsets'
  cases hsets'
  obtain ⟨Items, htables⟩ := tablesOf_generate hg hgenerate
  have hcomplete := completeItems hg htokens his htable hroot halone
  have hbody : ((tables.machine g).rule g.rootProductionId).body = [g.startSymbol] := g.body_root
  obtain ⟨last, stack', hsteps', hvalues, haccepts⟩ :=
    hcomplete.exists_accepts (fun i hi => g.rule_mem hi.1) (hbody ▸ hsentence) hsingle.isToken
      hsingle.exists_types (types_of_typeIds hend) []
  refine ⟨last, fun t fuel n delivered p p₁ token hrun hnext hleft => ?_⟩
  obtain ⟨stack, consumed, rest, hfollows⟩ :=
    hrun.follows htables ((List.prefix_append _ _).trans hleft)
  obtain ⟨hdelivered, rest', rfl⟩ := hfollows.rest_eq hnext hleft
  obtain ⟨hholds₁, -, -⟩ := hfollows.holds.getNextSymbol hnext
  obtain ⟨a, htoken⟩ : ∃ a, token.typeIds = some [a] := by
    have hmem : token ∈ w ++ [tokenEnd] := by
      rw [hfollows.input]
      simp
    rcases List.mem_append.1 hmem with hmem | hmem
    · obtain ⟨a, -, ha⟩ := hsingle token hmem
      exact ⟨a, ha⟩
    · rw [List.mem_singleton.1 hmem]
      exact ⟨_, hend⟩
  refine ⟨haccepts.le hsteps' hfollows.steps, ?_⟩
  have hcases := parseAdvance_cases htables.rule hholds₁ (hfollows.reduces htables)
    token [a]
  by_cases hlast : n = last
  · subst hlast
    have hsame := hfollows.steps.symm.trans hsteps'
    obtain ⟨rfl, hrest⟩ := Prod.mk.inj (Option.some.inj hsame)
    obtain ⟨t', input', hinput, hlook⟩ := haccepts
    obtain ⟨rfl, rfl⟩ := List.cons.inj hrest
    obtain ⟨rfl, rfl⟩ := List.cons.inj hinput
    dsimp only at hlook
    rw [types_of_typeIds htoken] at hlook
    rcases hcases with ⟨hother, -⟩ | ⟨-, haccept⟩ | ⟨j, p', hother, -⟩ | ⟨i, stack', p', hother, -⟩
    · rw [hlook] at hother
      cases hother
    · refine ⟨[a], p₁, true, htoken, haccept, ⟨fun _ => rfl, fun _ => rfl⟩, fun _ => ⟨?_, ?_⟩⟩
      · rw [hdelivered, hfollows.input]
      · rw [hholds₁.symbols, hvalues]
        rfl
    · rw [hlook] at hother
      cases hother
    · rw [hlook] at hother
      cases hother
  · obtain ⟨c, hstep⟩ := haccepts.exists_step hsteps' hfollows.steps hlast
    have hgoes : ∀ p', (false = true ↔ n = last) ∧ (false = true →
        delivered ++ p.delivers token = w ++ [tokenEnd] ∧
          Lalr1Parser.parseStackMatches p' = [tree]) :=
      fun p' => ⟨⟨fun h => Bool.noConfusion h, fun h => absurd h hlast⟩, fun h => Bool.noConfusion h⟩
    unfold ShiftReduce.step at hstep
    dsimp only at hstep
    rw [types_of_typeIds htoken] at hstep
    rcases hcases with ⟨hlook, -⟩ | ⟨hlook, -⟩ | ⟨j, p', -, hshift, -⟩ |
      ⟨i, stack', p', -, -, hreduce, -⟩
    · rw [hlook] at hstep
      cases hstep
    · rw [hlook] at hstep
      cases hstep
    · exact ⟨[a], p', false, htoken, hshift, hgoes p'⟩
    · exact ⟨[a], p', false, htoken, hreduce, hgoes p'⟩

/-- The tables of the letters, which accept alone. -/
def lettersTables :
    Except Fault (ParseTables × Numbering (OrderedSet Item) Nat × Lr1ItemSets) := do
  let tables ← generate lettersGrammar (fun _ => true) 12
  let (numbering, lr1) ← generateItemSets lettersGrammar 12
  if AcceptsAlone lettersGrammar lr1 then return (tables, numbering, lr1)
  else .error .thrown

theorem exists_lettersTables :
    ∃ tables numbering lr1, generate lettersGrammar (fun _ => true) 12 = .ok tables ∧
      generateItemSets lettersGrammar 12 = .ok (numbering, lr1) ∧
      AcceptsAlone lettersGrammar lr1 := by
  have hok : lettersTables.isOk = true := by decide +kernel
  obtain ⟨result, hresult⟩ := exists_of_isOk hok
  obtain ⟨tables, hgenerate, hresult⟩ := exists_of_bind_eq_ok hresult
  obtain ⟨⟨numbering, lr1⟩, hsets, hresult⟩ := exists_of_bind_eq_ok hresult
  dsimp only at hresult
  split at hresult
  · rename_i halone
    exact ⟨tables, numbering, lr1, hgenerate, hsets, halone⟩
  · cases hresult

/-- A letter, with its position. -/
def letter (pos : Nat) : Token := { startPos := pos, endPos := pos + 1, typeIds := some [7] }

theorem singleTyped_letters : SingleTyped lettersGrammar [letter 0, letter 1] := by
  have hmem : 7 ∈ lettersGrammar.terminals :=
    OrderedSet.mem_insert.2 (Or.inr (OrderedSet.mem_insert.2 (Or.inl rfl)))
  intro token htoken
  rcases List.mem_pair.1 htoken with rfl | rfl
  · exact ⟨7, hmem, rfl⟩
  · exact ⟨7, hmem, rfl⟩

def lettersTree : MatchedSymbol :=
  .nonTerminal 2 [.nonTerminal 2 [.nonTerminal 0 [], .token (letter 0)], .token (letter 1)]

theorem evaluates_lettersTree :
    lettersGrammar.semantics.Evaluates [8] [letter 0, letter 1] [lettersTree] := by
  have hletter : ∀ pos, lettersGrammar.semantics.Evaluates [7] [letter pos] [.token (letter pos)] :=
    fun pos => .token (List.mem_singleton.2 rfl) .nil
  have hempty : lettersGrammar.semantics.IsRule 0 := ⟨by decide, by decide⟩
  have hmore : lettersGrammar.semantics.IsRule 2 := ⟨by decide, by decide⟩
  have hnone : lettersGrammar.semantics.Evaluates [8] [] [.nonTerminal 0 []] :=
    .rule hempty .nil .nil
  have hfirst : lettersGrammar.semantics.Evaluates [8] [letter 0]
      [.nonTerminal 2 [.nonTerminal 0 [], .token (letter 0)]] :=
    .rule hmore (hnone.append (hletter 0)) .nil
  exact .rule hmore (hfirst.append (hletter 1)) .nil

theorem sentence_is_accepted_letters :
    ∃ tables, generate lettersGrammar (fun _ => true) 12 = .ok tables ∧
      ∃ last, ∀ (t : LexerTables) (fuel n : Nat) (delivered : List Token) (p p₁ : Lalr1Parser)
        (token : Token), ParseRun t tables fuel n delivered p →
        p.getNextSymbol t fuel = .ok (p₁, token) →
        delivered ++ p.delivers token <+:
          [letter 0, letter 1] ++ [{ typeIds := some [SymbolId.tokenEnd.toNat] }] →
        n ≤ last ∧ ∃ typeIds p' done, token.typeIds = some typeIds ∧
          p₁.parseAdvance tables token typeIds = .ok (p', done, done) ∧
          (done = true ↔ n = last) ∧
          (done = true → delivered ++ p.delivers token =
              [letter 0, letter 1] ++ [{ typeIds := some [SymbolId.tokenEnd.toNat] }] ∧
            p'.parseStackMatches = [lettersTree]) := by
  obtain ⟨tables, numbering, lr1, hgenerate, hsets, halone⟩ := exists_lettersTables
  exact ⟨tables, hgenerate, sentence_is_accepted reduced_lettersGrammar tokensApart_lettersGrammar
    hgenerate hsets halone evaluates_lettersTree singleTyped_letters rfl⟩

/-- So a grammar whose tables can be generated has one tree for a sentence. -/
theorem sentence_has_one_tree (hg : g.Reduced) (htokens : g.TokensApart)
    (hgenerate : generate g hasSemanticRule fuel' = .ok tables)
    {numbering : Numbering (OrderedSet Item) Nat} {lr1 : Lr1ItemSets}
    (hsets : generateItemSets g fuel' = .ok (numbering, lr1)) (halone : AcceptsAlone g lr1)
    {w : List Token} {tree tree' : MatchedSymbol} (hsingle : SingleTyped g w)
    (hsentence : g.semantics.Evaluates [g.startSymbol] w [tree])
    (hsentence' : g.semantics.Evaluates [g.startSymbol] w [tree']) : tree = tree' := by
  obtain ⟨numbering', lookaheads, lr1', hsets', his, htable, hrule, hroot⟩ :=
    exists_of_generate hg hgenerate
  rw [hsets] at hsets'
  cases hsets'
  have hcomplete := completeItems hg htokens his htable hroot halone
  have hbody : ((tables.machine g).rule g.rootProductionId).body = [g.startSymbol] := g.body_root
  let tokenEnd : Token := { typeIds := some [SymbolId.tokenEnd.toNat] }
  have hend : (tables.machine g).types tokenEnd = [SymbolId.tokenEnd.toNat] := types_of_typeIds rfl
  have hsame := hcomplete.unique_values (fun i hi => g.rule_mem hi.1) (hbody ▸ hsentence)
    (hbody ▸ hsentence') hsingle.isToken hsingle.exists_types hend
  exact List.head_eq_of_cons_eq hsame

theorem sentence_has_one_tree_letters :
    {tree | lettersGrammar.semantics.Evaluates [8] [letter 0, letter 1] [tree]} =
      {lettersTree} := by
  obtain ⟨tables, numbering, lr1, hgenerate, hsets, halone⟩ := exists_lettersTables
  ext tree
  constructor
  · exact fun htree => sentence_has_one_tree reduced_lettersGrammar tokensApart_lettersGrammar
      hgenerate hsets halone singleTyped_letters htree evaluates_lettersTree
  · rintro rfl
    exact evaluates_lettersTree

end Sentence

end Lalr1Parser

end LogSurgeon
