import LogSurgeon.SchemaParser.Lr1ItemSets
import LogSurgeon.SchemaParser.RuleSorts

/-!
# The symbols of the schema grammar

The grammar has its symbols by their ids.  Here the facts about the names become
facts about the ids.

* `keepsSorts`: the rules keep to the sorts of the symbols.
* `holds_token`: a token of any type that has a rule is of the sort of its type.
* `reduced_grammar`: the grammar is one that the item sets can be trusted for.
-/

namespace LogSurgeon

open Lib Lib.Grammar

namespace SchemaParser

variable {castPow : Nat → UInt32} {specials : List (Nat × String)}

/-! ## Names -/

/-- The names with rules. -/
def tokenNames : List String := NamedGrammar.ruleNames (addLexicalRules specialRegexCharacters)

theorem ruleNames_calls (castPow : Nat → UInt32) (specials : List (Nat × String)) :
    NamedGrammar.ruleNames (calls castPow specials) =
      NamedGrammar.ruleNames (addLexicalRules specials) := by
  have hproductions : ∀ entries : List Entry, NamedGrammar.ruleNames
      (entries.map fun e => BuilderCall.production e.1.1 e.1.2 e.2) = [] := by
    intro entries
    induction entries with
    | nil => rfl
    | cons e entries ih => exact ih
  have hlater := hproductions (productions castPow specials)
  unfold NamedGrammar.ruleNames at hlater ⊢
  unfold calls addProductions
  rw [List.filterMap_append, hlater, List.append_nil]

/-- The order of the special characters does not matter for the names. -/
theorem mem_ruleNames_calls (hspecials : specials.Perm specialRegexCharacters) {name : String} :
    name ∈ NamedGrammar.ruleNames (calls castPow specials) ↔ name ∈ tokenNames := by
  rw [ruleNames_calls]
  have hperm : (addLexicalRules specials).Perm (addLexicalRules specialRegexCharacters) :=
    (hspecials.map _).append_right _
  exact (hperm.filterMap _).mem_iff

theorem isTokenName_iff (hspecials : specials.Perm specialRegexCharacters) {name : String} :
    GrammarBuilder.IsTokenName (calls castPow specials) name ↔
      name ∈ tokenNames ++ Parser.new.symbolId.map Prod.fst := by
  unfold GrammarBuilder.IsTokenName
  rw [mem_ruleNames_calls hspecials, List.mem_append]

theorem sortOf_of_isTokenName (hspecials : specials.Perm specialRegexCharacters) {name : String}
    (h : GrammarBuilder.IsTokenName (calls castPow specials) name) : sortOf name = .token := by
  have hall : ∀ name ∈ tokenNames ++ Parser.new.symbolId.map Prod.fst, sortOf name = .token := by
    decide +kernel
  exact hall name ((isTokenName_iff hspecials).1 h)

/-- A production without its rule.  `castPow` is in the rules only. -/
def pairs (specials : List (Nat × String)) : List (String × List String) :=
  schemaProductions.map Prod.fst ++ (regexProductions fun _ => 0).map Prod.fst ++
    literalProductions.map Prod.fst ++ (escapeProductions specials).map Prod.fst ++
    characterProductions.map Prod.fst

theorem map_fst_productions (castPow : Nat → UInt32) (specials : List (Nat × String)) :
    (productions castPow specials).map Prod.fst = pairs specials := by
  unfold productions pairs
  rw [List.map_append, List.map_append, List.map_append, List.map_append]
  rfl

theorem pairs_perm (hspecials : specials.Perm specialRegexCharacters) :
    (pairs specials).Perm (pairs specialRegexCharacters) := by
  unfold pairs
  exact (((hspecials.map _).map _).append_left _).append_right _

/-- The symbols of a production are tokens and nonterminals. -/
theorem pairs_symbols (hspecials : specials.Perm specialRegexCharacters) :
    ∀ pair ∈ pairs specials, ∀ s ∈ pair.2,
      s ∈ tokenNames ∨ s ∈ nonTerminalSorts.map Prod.fst := by
  have hall : ∀ pair ∈ pairs specialRegexCharacters, ∀ s ∈ pair.2,
      s ∈ tokenNames ∨ s ∈ nonTerminalSorts.map Prod.fst := by
    decide +kernel
  exact fun pair hpair => hall pair ((pairs_perm hspecials).subset hpair)

/-! ## Sorts of ids -/

/-- The symbol has what its sort says. -/
def HasSort (castPow : Nat → UInt32) (specials : List (Nat × String)) (s : Nat) (v : RuleSymbol) :
    Prop :=
  (sortOf (GrammarBuilder.nameOf (calls castPow specials) s)).Holds v

theorem keepsSorts (hspecials : specials.Perm specialRegexCharacters) :
    SemanticParser.KeepsSorts (grammar castPow specials) (semanticRule castPow specials)
      (HasSort castPow specials) (· ∈ reported) := by
  intro i hi values address hvalues
  obtain ⟨e, he, hrule, hsemantic, hhead, hbody⟩ :=
    GrammarBuilder.exists_entry (hasRoot_calls castPow specials) hi.1 hi.2
  rw [productionCalls_calls] at he
  have hfits := productions_fit castPow hspecials e he
  have hnames : e.1.2.map sortOf = (e.1.2.map (GrammarBuilder.namesOf
      (calls castPow specials)).idxOf).map fun s =>
        sortOf (GrammarBuilder.nameOf (calls castPow specials) s) := by
    rw [List.map_map]
    refine List.map_congr_left fun s hs => ?_
    exact congrArg sortOf (GrammarBuilder.nameOf_idxOf (hbody s hs)).symm
  have hsorts : List.Forall₂ SymbolSort.Holds (e.1.2.map sortOf) values := by
    have hrule : (grammar castPow specials).rule i = _ := hrule
    rw [hrule] at hvalues
    rw [hnames, List.forall₂_map_left_iff]
    exact hvalues
  have hyields := hfits values address hsorts
  have hsemantic : semanticRule castPow specials i = e.2 := hsemantic
  rw [hsemantic]
  refine hyields.mono (fun v hv => ?_) fun fault hfault => hfault
  have hrule : (grammar castPow specials).rule i = _ := hrule
  show (sortOf (GrammarBuilder.nameOf _ ((grammar castPow specials).rule i).head)).Holds v
  rw [hrule]
  show (sortOf (GrammarBuilder.nameOf _ ((GrammarBuilder.namesOf _).idxOf e.1.1))).Holds v
  rw [GrammarBuilder.nameOf_idxOf hhead]
  exact hv

/-- A token is of the sort of every terminal. -/
theorem holds_token (hspecials : specials.Perm specialRegexCharacters) {s : Nat}
    (hs : s ∈ (grammar castPow specials).terminals) (token : Token) :
    HasSort castPow specials s (.token token) := by
  obtain ⟨name, hname, rfl⟩ :=
    (GrammarBuilder.mem_terminals_grammar (hasRoot_calls castPow specials)).1 hs
  unfold HasSort
  rw [GrammarBuilder.nameOf_idxOf (GrammarBuilder.mem_namesOf_of_isTokenName
    (hasRoot_calls castPow specials) hname), sortOf_of_isTokenName hspecials hname]
  exact ⟨token, rfl⟩

/-! ## The grammar is reduced -/

/-- The pairs of the grammar: that of the root and those of the calls. -/
theorem mem_productions_grammar {p : Production Nat} :
    p ∈ (grammar castPow specials).productions ↔
      ∃ pair ∈ (cStartPrime, ["Schema"]) :: pairs specials,
        NamedGrammar.encode (GrammarBuilder.namesOf (calls castPow specials)) pair = p := by
  refine (GrammarBuilder.mem_productions_grammar (hasRoot_calls castPow specials)).trans ?_
  unfold GrammarBuilder.rootPair
  rw [productionCalls_calls, map_fst_productions]
  rfl

theorem mem_namesOf_of_mem {pair : String × List String}
    (hpair : pair ∈ (cStartPrime, ["Schema"]) :: pairs specials) :
    pair.1 ∈ GrammarBuilder.namesOf (calls castPow specials) ∧
      ∀ s ∈ pair.2, s ∈ GrammarBuilder.namesOf (calls castPow specials) := by
  refine GrammarBuilder.mem_namesOf_of_mem (hasRoot_calls castPow specials) ?_
  unfold GrammarBuilder.rootPair
  rw [productionCalls_calls, map_fst_productions]
  exact hpair

theorem rule_root :
    (grammar castPow specials).rule (grammar castPow specials).rootProductionId =
      NamedGrammar.encode (GrammarBuilder.namesOf (calls castPow specials))
        (cStartPrime, ["Schema"]) := by
  refine (GrammarBuilder.rule_rootProductionId (hasRoot_calls castPow specials)).trans ?_
  unfold GrammarBuilder.rootPair
  rw [productionCalls_calls]
  rfl

theorem symbols_of_mem (hspecials : specials.Perm specialRegexCharacters)
    {pair : String × List String} (hpair : pair ∈ (cStartPrime, ["Schema"]) :: pairs specials) :
    ∀ s ∈ pair.2, s ∈ tokenNames ∨ s ∈ nonTerminalSorts.map Prod.fst := by
  rcases List.mem_cons.1 hpair with rfl | hpair
  · exact List.forall_mem_singleton.2 (Or.inr List.mem_cons_self)
  · exact pairs_symbols hspecials pair hpair

/-- The root has a name of its own. -/
theorem root_fresh (hspecials : specials.Perm specialRegexCharacters) :
    ∀ p ∈ (grammar castPow specials).productions,
      ((grammar castPow specials).rule (grammar castPow specials).rootProductionId).head ∉
        p.body := by
  have hstart : ¬ (cStartPrime ∈ tokenNames ∨ cStartPrime ∈ nonTerminalSorts.map Prod.fst) := by
    decide +kernel
  intro p hp hmem
  obtain ⟨pair, hpair, rfl⟩ := mem_productions_grammar.1 hp
  rw [rule_root] at hmem
  obtain ⟨s, hs, heq⟩ := List.mem_map.1 hmem
  have hname : s = cStartPrime := (List.idxOf_inj ((mem_namesOf_of_mem hpair).2 s hs)).1 heq
  rw [← hname] at hstart
  exact hstart (symbols_of_mem hspecials hpair s hs)

theorem sum_size_calls (hspecials : specials.Perm specialRegexCharacters) :
    ((calls castPow specials).map BuilderCall.size).sum ≤ 1000 := by
  have hsizes : (calls castPow specials).map BuilderCall.size =
      (addLexicalRules specials).map BuilderCall.size ++
        (pairs specials).map fun pair => pair.2.length + 3 := by
    unfold calls addProductions
    rw [List.map_append, List.map_map, ← map_fst_productions castPow, List.map_map]
    rfl
  have htokens : (addLexicalRules specials).Perm (addLexicalRules specialRegexCharacters) :=
    (hspecials.map _).append_right _
  rw [hsizes, ((htokens.map _).append ((pairs_perm hspecials).map _)).sum_eq]
  decide +kernel

theorem null_fresh (hspecials : specials.Perm specialRegexCharacters) :
    cNullSymbol ∉ (grammar castPow specials).terminals := by
  intro hmem
  obtain ⟨name, hname, hid⟩ :=
    (GrammarBuilder.mem_terminals_grammar (hasRoot_calls castPow specials)).1 hmem
  have hlt := Interning.idxOf_lt (GrammarBuilder.mem_namesOf_of_isTokenName
    (hasRoot_calls castPow specials) hname)
  have hnames := GrammarBuilder.length_namesOf_le (calls castPow specials)
  have hsizes : ((calls castPow specials).map BuilderCall.size).sum ≤ 1000 :=
    sum_size_calls hspecials
  have hnull : cNullSymbol = 10000000 := rfl
  omega

/-- For every nonterminal a production with tokens and nonterminals behind it in
the list. -/
def groundProductions : List (Production String) :=
  [⟨"Schema", ["Comment"]⟩, ⟨"Comment", ["ForwardSlash", "ForwardSlash", "Text"]⟩,
    ⟨"SchemaVar", ["WhitespaceStar", "Identifier", "Colon", "Regex"]⟩,
    ⟨"DelimiterString", ["DelimiterCharacter"]⟩,
    ⟨"DelimiterCharacter", ["DelimiterCharacters"]⟩, ⟨"PortableNewLine", ["NewLine"]⟩,
    ⟨"Text", ["CommentCharacters"]⟩, ⟨"WhitespaceStar", []⟩,
    ⟨"Identifier", ["IdentifierCharacters"]⟩, ⟨"Regex", ["Or"]⟩, ⟨"Or", ["Concat"]⟩,
    ⟨"Concat", ["Quantity"]⟩, ⟨"Quantity", ["CompleteGroup", "Star"]⟩,
    ⟨"CompleteGroup", ["Literal"]⟩, ⟨"IncompleteGroup", ["Lbracket", "Literal"]⟩,
    ⟨"LiteralRange", ["Literal", "Dash", "Literal"]⟩, ⟨"Literal", ["WhiteSpaceCharacter"]⟩,
    ⟨"WhiteSpaceCharacter", ["Backslash", "t"]⟩, ⟨"Integer", ["Numeric"]⟩,
    ⟨"Wildcard", ["Dot"]⟩, ⟨"Shorthand", ["Backslash", "d"]⟩]

theorem mem_pairs_of_mem_groundProductions (hspecials : specials.Perm specialRegexCharacters) :
    ∀ p ∈ groundProductions, (p.head, p.body) ∈ pairs specials := by
  have hall : ∀ p ∈ groundProductions, (p.head, p.body) ∈ pairs specialRegexCharacters := by
    decide +kernel
  exact fun p hp => (pairs_perm hspecials).symm.subset (hall p hp)

theorem productive (hspecials : specials.Perm specialRegexCharacters) :
    ∀ p ∈ (grammar castPow specials).productions, ∀ s ∈ p.body,
      ∃ w, (∀ t ∈ w, t ∈ (grammar castPow specials).terminals) ∧
        Derives (grammar castPow specials).productions [s] w := by
  have hgrounded : Grounded (· ∈ tokenNames) groundProductions := by decide +kernel
  have hheads : ∀ s ∈ nonTerminalSorts.map Prod.fst,
      s ∈ groundProductions.map Production.head := by decide +kernel
  have htoken : ∀ name ∈ tokenNames,
      (GrammarBuilder.namesOf (calls castPow specials)).idxOf name ∈
        (grammar castPow specials).terminals := fun name hname =>
    (GrammarBuilder.mem_terminals_grammar (hasRoot_calls castPow specials)).2
      ⟨name, Or.inl ((mem_ruleNames_calls hspecials).2 hname), rfl⟩
  have hderives : ∀ name ∈ groundProductions.map Production.head,
      ∃ w, (∀ t ∈ w, ∃ b, b ∈ tokenNames ∧
          t = (GrammarBuilder.namesOf (calls castPow specials)).idxOf b) ∧
        Derives (grammar castPow specials).productions
          [(GrammarBuilder.namesOf (calls castPow specials)).idxOf name] w :=
    hgrounded.exists_derives fun p hp => mem_productions_grammar.2
      ⟨_, List.mem_cons_of_mem _ (mem_pairs_of_mem_groundProductions hspecials p hp), rfl⟩
  intro p hp s hs
  obtain ⟨pair, hpair, rfl⟩ := mem_productions_grammar.1 hp
  obtain ⟨name, hname, rfl⟩ := List.mem_map.1 hs
  rcases symbols_of_mem hspecials hpair name hname with htokens | hnonTerminal
  · exact ⟨[_], List.forall_mem_singleton.2 (htoken name htokens), .refl⟩
  · obtain ⟨w, hw, hsteps⟩ := hderives name (hheads name hnonTerminal)
    refine ⟨w, fun t ht => ?_, hsteps⟩
    obtain ⟨b, hb, rfl⟩ := hw t ht
    exact htoken b hb

theorem reduced_grammar (hspecials : specials.Perm specialRegexCharacters) :
    (grammar castPow specials).Reduced :=
  ⟨root_fresh hspecials, null_fresh hspecials, productive hspecials⟩

end SchemaParser

end LogSurgeon
