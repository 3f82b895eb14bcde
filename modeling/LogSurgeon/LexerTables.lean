import LogSurgeon.Schema
import LogSurgeon.FiniteAutomata.DfaIntersect
import LogSurgeon.FiniteAutomata.DfaLanguage
import LogSurgeon.FiniteAutomata.NfaRoot
import LogSurgeon.FiniteAutomata.RegisterStore

/-!
# The tables of a generated lexer

`WellFormed` is what the lexer relies on in its tables: the states and the
registers that it uses exist, the root is not accepting, and a newline always
leads from the root to a match of the newline rule.  The tables that
`SchemaAST.generate` returns are well formed (`ofSchema_generate`).
-/

namespace LogSurgeon

/-! ## The root of the DFA -/

namespace Dfa

open Lib Determinization

/-- The variables of a state. -/
def typeIds (dfa : Dfa) (p : Nat) : List Nat := (dfa.state? p).elim [] (·.matchingVariableIds)

theorem typeIds_of_state? {dfa : Dfa} {p : Nat} {s : DfaState} (h : dfa.state? p = some s) :
    dfa.typeIds p = s.matchingVariableIds := by
  unfold typeIds
  rw [h]
  rfl

theorem isAccepting_iff {dfa : Dfa} {p : Nat} {s : DfaState} (h : dfa.state? p = some s) :
    s.isAccepting ↔ dfa.typeIds p ≠ [] := by
  rw [typeIds_of_state? h]
  exact decide_eq_true_iff

section Root

variable {P : LexicalRule → Nat → Prop} {rules : List LexicalRule} {c id fuel : Nat}
variable {regMapOrder : List (Nat × Nat) → List (Nat × Nat)} {dfa : Dfa}
variable {g : Determinization} {S₀ S : ConfigurationSet} {i : Nat}

/-- The variables of the state of a set are those of its accepting states. -/
theorem exists_rules_of_typeIds (hinv : Invariant (Nfa.ofRules rules) regMapOrder fuel S₀ g)
    (hS : g.dfaStates.find? S = some i) :
    ∃ is : List (Fin rules.length), is.Pairwise (· ≤ ·) ∧
      g.dfa.typeIds i = is.map (fun i => (rules.get i).variableId) ∧
      ∀ i, i ∈ is ↔ StatesOf S (Nfa.acceptingStateOf rules i) := by
  obtain ⟨s, hs, hids, -⟩ := hinv.stateOfSet S i hS
  rw [typeIds_of_state? hs, hids]
  exact exists_rules_of_set rules _ S

/-- A transition leads to a set with the NFA states behind the byte, and there
is a byte transition of the NFA. -/
theorem statesOf_dest {nfa : Nfa} (hinv : Invariant nfa regMapOrder fuel S₀ g)
    (hS : g.dfaStates.find? S = some i) {byte : Nat} {t : DfaTransition}
    (ht : g.dfa.transition? i byte = some t) :
    ∃ R, g.dfaStates.find? R = some t.destState ∧
      (∃ p next, StatesOf S p ∧ nfa.ByteStep p byte next) ∧
      ∀ p next, StatesOf S p → nfa.ByteStep p byte next → StatesOf R next := by
  obtain ⟨low, ops, D, hcomputed, ⟨R, hR, hleads⟩, -⟩ := hinv.transitions S i byte t hS ht
  have hstates := hcomputed.statesOf
  have hbyte : ∃ p next, StatesOf S p ∧ nfa.ByteStep p byte next := by
    obtain ⟨-, rh, rh', ts, -, hts, hfind⟩ := hcomputed
    obtain ⟨m, -, -, hbytes⟩ := getTransitions_spec hts
    obtain ⟨c, hc, next, hstep⟩ := (hbytes byte).1.1 (by rw [hfind]; rfl)
    exact ⟨c.nfaState, next, ⟨c, hc, rfl⟩, hstep⟩
  refine ⟨R, hR, hbyte, fun p next hp hstep => ?_⟩
  have hD : StatesOf D next := (hstates next).2 ⟨p, next, hp, hstep, .refl next⟩
  rcases hleads with ⟨hRD, -⟩ | ⟨regMap, hmap, -⟩
  · rw [hRD]
    exact hD
  · obtain ⟨c, hc, rfl⟩ := hD
    obtain ⟨-, -, hrenames⟩ := tryGetMapping_sound hmap
    obtain ⟨c', hc', -⟩ := hrenames c hc
    obtain ⟨hmem, hsame, -⟩ := firstComparable_mem hc'
    exact ⟨c', hmem, hsame.symm⟩

/-- Without spontaneous transitions, the initial set has the root only. -/
theorem statesOf_initial {nfa : Nfa} {s : NfaState}
    (hS₀ : (initialConfiguration nfa).spontaneousClosure nfa fuel = some S₀)
    (hs : nfa.state? nfa.root = some s) (hspontaneous : s.spontaneousTransitions = []) (q : Nat) :
    StatesOf S₀ q ↔ q = nfa.root := by
  rw [exactFor_initial hS₀ q]
  constructor
  · intro h
    obtain ⟨ops, hpath⟩ := Nfa.reaches_nil_iff.1 h
    clear h
    induction hpath with
    | refl => rfl
    | snoc _ hs' ht ih =>
      rw [ih] at hs'
      obtain rfl := Option.some.inj (hs.symm.trans hs')
      rw [hspontaneous] at ht
      cases ht
  · rintro rfl
    exact .refl _

/-- The rules with the literal `c` in front. -/
abbrev withLiteral (id c : Nat) (rules : List LexicalRule) : List LexicalRule :=
  ⟨id, RegexAST.mkLiteral c⟩ :: rules

/-- The root of the DFA is not accepting, and it reads the first bytes of the
rules.  The literal is the first rule that the state behind `c` matches. -/
theorem root_of_generate (hc : c < cSizeOfByte)
    (hrules : ∀ rule ∈ rules, rule.regex.ReadsFirst (P rule))
    (h : generate (Nfa.ofRules (withLiteral id c rules)) regMapOrder fuel = some dfa) :
    dfa.typeIds dfa.getRoot = [] ∧
      (∃ t ids, dfa.transition? dfa.getRoot c = some t ∧ dfa.typeIds t.destState = id :: ids) ∧
      ∀ b < cSizeOfByte, (dfa.transition? dfa.getRoot b).isSome ↔
        b = c ∨ ∃ rule ∈ rules, P rule b := by
  obtain ⟨s, hs, hspontaneous, hlabel, hone, hbytes⟩ := @Nfa.ofRules_root P rules c id hc hrules
  have hroot := Nfa.root_ofRules (withLiteral id c rules)
  rw [← hroot] at hs
  obtain ⟨g, hg, rfl⟩ := Option.map_eq_some_iff.1 h
  obtain ⟨S₀, hS₀, hinv, -, hcomplete⟩ := determinize_spec hg
  have hstates := statesOf_initial hS₀ hs hspontaneous
  have hzero : ∀ byte next, (Nfa.ofRules (withLiteral id c rules)).ByteStep
      (Nfa.ofRules (withLiteral id c rules)).root byte next →
      ∃ t, g.dfa.transition? 0 byte = some t := by
    intro byte next hstep
    obtain ⟨x, hx, heq⟩ := (hstates _).2 rfl
    rw [← heq] at hstep
    exact hcomplete S₀ 0 hinv.root x hx byte next hstep
  refine ⟨?_, ?_, fun b hb => ?_⟩
  · obtain ⟨is, -, hids, hmem⟩ := exists_rules_of_typeIds hinv hinv.root
    show g.dfa.typeIds 0 = []
    rw [hids, List.map_eq_nil_iff, List.eq_nil_iff_forall_not_mem]
    intro j hj
    have haccepting := (hstates _).1 ((hmem j).1 hj)
    have hlabels := Nfa.label_eq_some_iff.2 ⟨j, j.isLt, haccepting.symm, rfl⟩
    unfold Nfa.labels at hlabels
    rw [List.getElem?_map] at hlabels
    have hs : (Nfa.ofRules (withLiteral id c rules)).states[
      (Nfa.ofRules (withLiteral id c rules)).root]? = some s := hs
    rw [hs, Option.map_some, hlabel] at hlabels
    cases hlabels
  · have hstep : (Nfa.ofRules (withLiteral id c rules)).ByteStep
        (Nfa.ofRules (withLiteral id c rules)).root c 1 := ⟨hc, s, hs, hone⟩
    obtain ⟨t, ht⟩ := hzero c 1 hstep
    obtain ⟨R, hR, -, hdest⟩ := statesOf_dest hinv hinv.root ht
    obtain ⟨is, hsorted, hids, hmem⟩ := exists_rules_of_typeIds hinv hR
    have hfirst : (⟨0, Nat.succ_pos _⟩ : Fin (withLiteral id c rules).length) ∈ is :=
      (hmem _).2 (hdest _ 1 ((hstates _).2 rfl) hstep)
    cases his : is with
    | nil =>
      rw [his] at hfirst
      cases hfirst
    | cons j js =>
      have hj : j = ⟨0, Nat.succ_pos _⟩ := by
        rw [his] at hfirst hsorted
        rcases List.mem_cons.1 hfirst with heq | hmem
        · exact heq.symm
        · exact Fin.le_zero_iff.1 ((List.pairwise_cons.1 hsorted).1 _ hmem)
      refine ⟨t, js.map fun i => (withLiteral id c rules)[i].variableId, ht, ?_⟩
      rw [hids, his, List.map_cons, hj]
      rfl
  · rw [← hbytes b hb]
    constructor
    · intro hsome
      obtain ⟨t, ht⟩ := Option.isSome_iff_exists.1 hsome
      obtain ⟨R, -, ⟨p, next, hp, -, s', hs', hnext⟩, -⟩ := statesOf_dest hinv hinv.root ht
      rw [(hstates p).1 hp] at hs'
      obtain rfl := Option.some.inj (hs.symm.trans hs')
      exact List.ne_nil_of_mem hnext
    · intro hne
      obtain ⟨next, hnext⟩ := List.exists_mem_of_ne_nil _ hne
      obtain ⟨t, ht⟩ := hzero b next ⟨hb, s, hs, hnext⟩
      exact Option.isSome_iff_exists.2 ⟨t, ht⟩

end Root

end Dfa

/-! ## The rules of a schema -/

/-- `rule` is the rule of `var`, and it has a reserved id only under the name of
the id. -/
structure IsRuleOf (delimiters : List Nat) (var : SchemaVarAST) (rule : LexicalRule) : Prop where
  regex : rule.regex = schemaVarRegex delimiters var
  reserved : ∀ e ∈ Parser.new.symbolId, rule.variableId = e.2 ↔ var.name = e.1

/-- A header or a variable starts behind the byte. -/
def LeadingByte (delimiters : List Nat) (rule : LexicalRule) (b : Nat) : Prop :=
  if rule.variableId = SymbolId.tokenHeader.toNat then b = cCharStartOfFile.toNat ∨ b = 10
  else b ∈ delimiters

theorem IsRuleOf.isHeader_iff {delimiters : List Nat} {var : SchemaVarAST} {rule : LexicalRule}
    (h : IsRuleOf delimiters var rule) :
    rule.variableId = SymbolId.tokenHeader.toNat ↔ var.name = cTokenHeader :=
  h.reserved (cTokenHeader, SymbolId.tokenHeader.toNat) (by decide)

theorem IsRuleOf.readsFirst {delimiters : List Nat} {var : SchemaVarAST} {rule : LexicalRule}
    (h : IsRuleOf delimiters var rule) : rule.regex.ReadsFirst (LeadingByte delimiters rule) := by
  rw [h.regex]
  unfold schemaVarRegex leadingRegex LeadingByte
  by_cases hheader : var.name = cTokenHeader
  · simp only [if_pos hheader, if_pos (h.isHeader_iff.2 hheader)]
    exact (RegexAST.readsFirst_mkOr_literal _ _).mkCat _
  · simp only [if_neg hheader, if_neg fun hid => hheader (h.isHeader_iff.1 hid)]
    refine RegexAST.ReadsFirst.mkCat ((RegexAST.readsFirst_mkGroup _).congr fun b _ => ?_) _
    show RegexASTGroup.Covers (RegexASTGroup.merge (RegexASTGroup.sorted _)) b ↔ _
    rw [RegexASTGroup.covers_merge_sorted]
    unfold RegexASTGroup.Covers RegexASTGroup.ofLiterals
    simp only [List.mem_map, exists_exists_and_eq_and]
    constructor
    · rintro ⟨d, hd, hle, hge⟩
      rwa [Nat.le_antisymm hge hle]
    · intro hb
      exact ⟨b, hb, Nat.le_refl b, Nat.le_refl b⟩

namespace Parser

/-- The reserved names have their ids, and no other name has one of these. -/
structure KeepsReserved (parser : Parser) : Prop where
  lookup : ∀ e ∈ Parser.new.symbolId, parser.symbolId.lookup e.1 = some e.2
  reserved : ∀ name id, parser.symbolId.lookup name = some id → id < Parser.new.symbolId.length →
    (name, id) ∈ Parser.new.symbolId
  length_le : Parser.new.symbolId.length ≤ parser.symbolId.length

theorem mem_of_lookup {α β : Type} [BEq α] [LawfulBEq α] {list : List (α × β)} {name : α} {id : β}
    (h : list.lookup name = some id) : (name, id) ∈ list := by
  obtain ⟨front, back, rfl, -⟩ := List.lookup_eq_some_iff.1 h
  simp

theorem keepsReserved_new : KeepsReserved Parser.new where
  lookup := by decide
  reserved _ _ h _ := mem_of_lookup h
  length_le := Nat.le_refl _

theorem KeepsReserved.addRule {parser : Parser} (h : parser.KeepsReserved) (name : String)
    (rule : RegexAST) : (parser.addRule name rule).KeepsReserved := by
  unfold Parser.addRule
  split
  · exact ⟨h.lookup, h.reserved, h.length_le⟩
  · rename_i hnone
    have hid : parser.symbolIdOf name = parser.symbolId.length := by
      unfold symbolIdOf
      rw [Option.not_isSome_iff_eq_none.1 hnone]
      rfl
    refine ⟨fun e he => ?_, fun name' id hlookup hlt => ?_, ?_⟩
    · rw [List.lookup_append, h.lookup e he]
      rfl
    · rw [List.lookup_append] at hlookup
      rcases Option.or_eq_some_iff.1 hlookup with hold | ⟨-, hnew⟩
      · exact h.reserved name' id hold hlt
      · have hmem := List.mem_singleton.1 (mem_of_lookup hnew)
        have heq : id = parser.symbolIdOf name := congrArg Prod.snd hmem
        have := h.length_le
        omega
    · have := h.length_le
      simp only [List.length_append]
      omega

theorem KeepsReserved.isRuleOf {parser : Parser} (h : parser.KeepsReserved)
    (delimiters : List Nat) (var : SchemaVarAST) :
    IsRuleOf delimiters var ⟨parser.symbolIdOf var.name, schemaVarRegex delimiters var⟩ := by
  refine ⟨rfl, fun e he => ?_⟩
  have hlt : ∀ e ∈ Parser.new.symbolId, e.2 < Parser.new.symbolId.length := by decide
  have hinjective : ∀ e ∈ Parser.new.symbolId, ∀ e' ∈ Parser.new.symbolId,
      e.2 = e'.2 → e.1 = e'.1 := by decide
  have hlength := h.length_le
  unfold symbolIdOf
  constructor
  · intro hid
    have hlt := hlt e he
    cases hlookup : parser.symbolId.lookup var.name with
    | none =>
      rw [hlookup] at hid
      have hid : parser.symbolId.length = e.2 := hid
      omega
    | some id =>
      rw [hlookup] at hid
      obtain rfl : id = e.2 := hid
      exact hinjective _ (h.reserved var.name _ hlookup hlt) e he rfl
  · intro hname
    rw [hname, h.lookup e he]
    rfl

end Parser

/-- The rules of a schema: the newline, and those of the variables. -/
theorem addRules_spec {schema : SchemaAST} {parser : Parser} (h : addRules schema = .ok parser) :
    ∃ rules, parser.rules = Dfa.withLiteral SymbolId.tokenNewline.toNat 10 rules ∧
      (∀ rule ∈ rules, ∃ var ∈ schema.schemaVars, IsRuleOf schema.delimiterList var rule) ∧
      ∀ var ∈ schema.schemaVars, ∃ rule ∈ rules, IsRuleOf schema.delimiterList var rule := by
  have hfold : ∀ (vars : List SchemaVarAST) (parser : Parser), parser.KeepsReserved →
      ∃ rules, (vars.foldl (fun parser var =>
          parser.addRule var.name (schemaVarRegex schema.delimiterList var)) parser).rules =
          parser.rules ++ rules ∧
        (∀ rule ∈ rules, ∃ var ∈ vars, IsRuleOf schema.delimiterList var rule) ∧
        ∀ var ∈ vars, ∃ rule ∈ rules, IsRuleOf schema.delimiterList var rule := by
    intro vars
    induction vars with
    | nil => exact fun parser _ => ⟨[], (List.append_nil _).symm, by simp, by simp⟩
    | cons var vars ih =>
      intro parser hparser
      have hvar := hparser.isRuleOf schema.delimiterList var
      obtain ⟨rules, hrules, hleft, hright⟩ := ih _ (hparser.addRule var.name
        (schemaVarRegex schema.delimiterList var))
      refine ⟨⟨parser.symbolIdOf var.name, schemaVarRegex schema.delimiterList var⟩ :: rules,
        ?_, fun rule hrule => ?_, fun var' hvar' => ?_⟩
      · rw [List.foldl_cons, hrules]
        show (parser.rules ++ [_]) ++ rules = _
        rw [List.append_assoc]
        rfl
      · rcases List.mem_cons.1 hrule with rfl | hrule
        · exact ⟨var, List.mem_cons_self, hvar⟩
        · obtain ⟨var', hvar', hrest⟩ := hleft rule hrule
          exact ⟨var', List.mem_cons_of_mem var hvar', hrest⟩
      · rcases List.mem_cons.1 hvar' with rfl | hvar'
        · exact ⟨_, List.mem_cons_self, hvar⟩
        · obtain ⟨rule, hrule, hrest⟩ := hright var' hvar'
          exact ⟨rule, List.mem_cons_of_mem _ hrule, hrest⟩
  unfold addRules at h
  split_ifs at h
  cases h
  exact hfold schema.schemaVars _
    (Parser.keepsReserved_new.addRule cTokenNewline (RegexAST.mkLiteral 10))

/-! ## Well-formed tables -/

namespace LexerTables

/-- What the lexer relies on in its tables. -/
structure WellFormed (t : LexerTables) : Prop where
  hasDelimiters : t.hasDelimiters = true
  dfa : t.dfa.WellFormed
  registers : t.dfa.WellFormedRegisters
  firstChar : ∀ c, t.isFirstCharOfAVariable c = (t.dfa.transition? t.dfa.getRoot c).isSome
  root : t.dfa.typeIds t.dfa.getRoot = []
  newline : ∃ transition ids, t.dfa.transition? t.dfa.getRoot 10 = some transition ∧
    t.dfa.typeIds transition.destState = SymbolId.tokenNewline.toNat :: ids

/-- What the tables of a schema say about it. -/
structure OfSchema (schema : SchemaAST) (t : LexerTables) : Prop extends WellFormed t where
  isDelimiter : t.isDelimiter = isDelimiterOf schema.delimiters
  startOfFile : (t.dfa.transition? t.dfa.getRoot cCharStartOfFile.toNat).isSome ↔
    schema.schemaVars ≠ []
  delimiter : (∃ var ∈ schema.schemaVars, var.name ≠ cTokenHeader) → ∀ b < cSizeOfByte,
    t.isDelimiter b → t.isFirstCharOfAVariable b
  reserved : ∀ p, ∀ e ∈ Parser.new.symbolId, e.2 ∈ t.dfa.typeIds p →
    e.1 = cTokenNewline ∨ ∃ var ∈ schema.schemaVars, var.name = e.1

theorem mem_delimiterList {schema : SchemaAST} {b : Nat} :
    b ∈ schema.delimiterList ↔ b < cSizeOfByte ∧ isDelimiterOf schema.delimiters b := by
  unfold SchemaAST.delimiterList
  rw [List.mem_filter, List.mem_range]

/-- The start-of-file character is a delimiter of every schema with rules. -/
theorem startOfFile_mem_delimiterList {schema : SchemaAST} {parser : Parser}
    (h : addRules schema = .ok parser) :
    cCharStartOfFile.toNat ∈ schema.delimiterList := by
  have hne : schema.delimiterList ≠ [] := by
    intro hnil
    unfold addRules at h
    rw [if_pos hnil] at h
    split_ifs at h
  obtain ⟨b, hb⟩ := List.exists_mem_of_ne_nil _ hne
  have hb := (mem_delimiterList.1 hb).2
  refine mem_delimiterList.2 ⟨by decide, ?_⟩
  unfold isDelimiterOf at hb ⊢
  split at hb
  · simp
  · cases hb

theorem ofSchema_generate {schema : SchemaAST}
    {regMapOrder : List (Nat × Nat) → List (Nat × Nat)} {fuel : Nat} {t : LexerTables}
    (horder : ∀ regMap, (regMapOrder regMap).Perm regMap)
    (h : schema.generate regMapOrder fuel = .ok t) : OfSchema schema t := by
  obtain ⟨parser, hparser, htables⟩ := exists_of_bind_eq_ok h
  obtain ⟨rules, hrules, hvars, hall⟩ := addRules_spec hparser
  obtain ⟨dfa, root, hdfa, hroot, rfl⟩ := generateTables_cases htables
  rw [hrules] at hdfa
  have hreads : ∀ rule ∈ rules, rule.regex.ReadsFirst (LeadingByte schema.delimiterList rule) := by
    intro rule hrule
    obtain ⟨var, -, hvar⟩ := hvars rule hrule
    exact hvar.readsFirst
  obtain ⟨hids, hnewline, hbytes⟩ := Dfa.root_of_generate (c := 10) (by decide) hreads hdfa
  have hfirst : ∀ c, (root.getTransition c).isSome =
      (dfa.transition? dfa.getRoot c).isSome := by
    intro c
    unfold Dfa.transition?
    rw [hroot]
    rfl
  have hstart := startOfFile_mem_delimiterList hparser
  refine ⟨⟨rfl, Dfa.wellFormed_of_generate hdfa, Dfa.wellFormedRegisters_of_generate horder hdfa,
    hfirst, hids, hnewline⟩, rfl, ?_, fun hvar b hb hdelimiter => ?_, fun p e he hmem => ?_⟩
  · rw [hbytes _ (by decide)]
    constructor
    · intro h hnil
      rcases h with h | ⟨rule, hrule, -⟩
      · exact absurd h (by decide)
      · obtain ⟨var, hvar, -⟩ := hvars rule hrule
        rw [hnil] at hvar
        cases hvar
    · intro hne
      obtain ⟨var, hvar⟩ := List.exists_mem_of_ne_nil _ hne
      obtain ⟨rule, hrule, -⟩ := hall var hvar
      refine Or.inr ⟨rule, hrule, ?_⟩
      unfold LeadingByte
      split
      · exact Or.inl rfl
      · exact hstart
  · obtain ⟨var, hvar, hname⟩ := hvar
    obtain ⟨rule, hrule, hof⟩ := hall var hvar
    show (root.getTransition b).isSome
    rw [hfirst, hbytes b hb]
    refine Or.inr ⟨rule, hrule, ?_⟩
    unfold LeadingByte
    rw [if_neg fun hid => hname (hof.isHeader_iff.1 hid)]
    exact mem_delimiterList.2 ⟨hb, hdelimiter⟩
  · obtain ⟨g, hg, rfl⟩ := Option.map_eq_some_iff.1 hdfa
    obtain ⟨S₀, -, hinv, -⟩ := Dfa.determinize_spec hg
    have hp : p < g.dfa.states.length := by
      by_contra hge
      have hnone : g.dfa.state? p = none := List.getElem?_eq_none (not_lt.1 hge)
      have hmem : e.2 ∈ g.dfa.typeIds p := hmem
      unfold Dfa.typeIds at hmem
      rw [hnone] at hmem
      cases hmem
    obtain ⟨S, hS⟩ := hinv.setOfState p hp
    obtain ⟨is, -, hids, -⟩ := Dfa.exists_rules_of_typeIds hinv hS
    have hmem : e.2 ∈ g.dfa.typeIds p := hmem
    rw [hids, List.mem_map] at hmem
    obtain ⟨i, -, hi⟩ := hmem
    rcases List.mem_cons.1 (List.getElem_mem i.isLt) with hnewline | hrule
    · left
      have hid : e.2 = SymbolId.tokenNewline.toNat := by
        rw [← hi]
        exact congrArg LexicalRule.variableId hnewline
      have hinjective : ∀ e ∈ Parser.new.symbolId, e.2 = SymbolId.tokenNewline.toNat →
          e.1 = cTokenNewline := by decide
      exact hinjective e he hid
    · right
      obtain ⟨var, hvar, hof⟩ := hvars _ hrule
      exact ⟨var, hvar, (hof.reserved e he).1 hi⟩

end LexerTables

end LogSurgeon
