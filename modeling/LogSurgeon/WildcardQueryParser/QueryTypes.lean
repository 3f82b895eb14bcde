import LogSurgeon.FiniteAutomata.TagFree
import LogSurgeon.Schema
import LogSurgeon.WildcardQueryParser.QueryText

/-!
# The variable type of a literal

For a view without wildcards the query keeps one type of the variables that
match the literal.  The types come from a set, so the least id is kept.  The
lexer keeps the first id of its DFA state, which belongs to the first rule.

The DFA of the literal is the DFA of a rule without captures, so it accepts
exactly the literal.  What the schema parser makes of the view's regex is not
modelled: the results are about the string that it reads.
-/

namespace LogSurgeon

open Lib

/-! ## Literals -/

/-- The tree is a concatenation of literals, which spell the string. -/
inductive RegexAST.IsLiteral : RegexAST → List UInt8 → Prop where
  | literal (b : UInt8) : IsLiteral (mkLiteral b.toNat) [b]
  | cat {l r : RegexAST} {s t : List UInt8} (hl : IsLiteral l s) (hr : IsLiteral r t) :
      IsLiteral (mkCat l r) (s ++ t)

namespace RegexAST.IsLiteral

variable {r : RegexAST} {s : List UInt8}

theorem tagFree (h : r.IsLiteral s) : r.TagFree := by
  induction h with
  | literal => rfl
  | cat _ _ ihl ihr => exact ⟨rfl, ihl, ihr⟩

/-- The rule of a search has no captures. -/
theorem tagFree_rules (h : r.IsLiteral s) :
    ∀ rule ∈ [(⟨0, r⟩ : LexicalRule)], rule.regex.TagFree := by
  simpa using h.tagFree

theorem wellFormed (h : r.IsLiteral s) : r.WellFormed := by
  induction h with
  | literal => trivial
  | cat _ _ ihl ihr => exact ⟨ihl, ihr⟩

theorem separateLoops (h : r.IsLiteral s) : r.SeparateLoops := by
  induction h with
  | literal => trivial
  | cat _ _ ihl ihr => exact ⟨ihl, ihr⟩

theorem mem_denote_iff (h : r.IsLiteral s) (w : List UInt8) : w ∈ r.denote ↔ w = s := by
  induction h generalizing w with
  | literal b =>
    constructor
    · rintro ⟨c, rfl, hc⟩
      rw [UInt8.toNat_inj.1 hc]
    · rintro rfl
      exact ⟨b, rfl, rfl⟩
  | @cat l r s t _ _ ihl ihr =>
    constructor
    · intro hw
      obtain ⟨u, hu, v, hv, rfl⟩ := Language.mem_mul.1 hw
      rw [(ihl u).1 hu, (ihr v).1 hv]
    · rintro rfl
      exact Language.mem_mul.2 ⟨s, (ihl s).2 rfl, t, (ihr t).2 rfl, rfl⟩

end RegexAST.IsLiteral

/-- The DFA of a literal accepts exactly the literal. -/
theorem Dfa.accepts_literal_iff {r : RegexAST} {s : List UInt8} (h : r.IsLiteral s)
    {regMapOrder : List (Nat × Nat) → List (Nat × Nat)} {fuel : Nat} {dfa : Dfa}
    (hdfa : generate (Nfa.ofRules [⟨0, r⟩]) regMapOrder fuel = some dfa) (w : List UInt8) :
    dfa.Accepts w ↔ w = s := by
  obtain ⟨g, hg, rfl⟩ := Option.map_eq_some_iff.1 hdfa
  have hanswers := answers_of_tagFree h.tagFree_rules hg w
  have hmatch : ∀ i : Fin 1, MatchesFrom [⟨0, r⟩] (AtRoot [⟨0, r⟩]) w i ↔ w = s := by
    intro i
    have hwf : ∀ rule ∈ [(⟨0, r⟩ : LexicalRule)], rule.regex.WellFormed := by
      simpa using h.wellFormed
    have hreaches := Nfa.reaches_acceptingState hwf i.isLt w
    rw [← h.mem_denote_iff w, ← r.wiredWords_eq_denote h.wellFormed h.separateLoops]
    obtain rfl : i = 0 := Subsingleton.elim _ _
    constructor
    · rintro ⟨_, rfl, hreach⟩
      exact hreaches.1 hreach
    · intro hw
      exact ⟨_, rfl, hreaches.2 hw⟩
  unfold Answers at hanswers
  constructor
  · rintro ⟨p, st, hrun, hst, hne⟩
    rw [hrun] at hanswers
    obtain ⟨st', hst', hids⟩ := hanswers
    obtain rfl : st = st' := Option.some.inj (hst.symm.trans hst')
    obtain ⟨id, hid⟩ := List.exists_mem_of_ne_nil _ hne
    obtain ⟨i, hi, -⟩ := (hids.mem id).1 hid
    exact (hmatch i).1 hi
  · intro hw
    cases hrun : g.dfa.run g.dfa.getRoot w with
    | none =>
      rw [hrun] at hanswers
      exact absurd ((hmatch 0).2 hw) (hanswers 0)
    | some p =>
      rw [hrun] at hanswers
      obtain ⟨st, hst, hids⟩ := hanswers
      have hmem := (hids.mem 0).2 ⟨0, (hmatch 0).2 hw, rfl⟩
      exact ⟨p, st, hrun, hst, List.ne_nil_of_mem hmem⟩

namespace Query

variable {env : QueryEnvironment} {lexer : LexerTables} {v : ExpressionView}
  {regexString s : List UInt8} {regex : RegexAST} {types : OrderedSet Nat}

/-- With a regex that is read as a literal, the types are those of the literal. -/
theorem mem_getMatchingVariableTypes_iff
    (hparse : env.parseSchemaVariable (cSearchVariable ++ regexString) = some regex)
    (hliteral : regex.IsLiteral s)
    (h : getMatchingVariableTypes env lexer regexString = some types) (t : Nat) :
    t ∈ types ↔ lexer.dfa.MatchesType s t := by
  obtain ⟨regex', hregex', h⟩ := Option.bind_eq_some_iff.1 h
  obtain rfl : regex = regex' := Option.some.inj (hparse.symm.trans hregex')
  obtain ⟨dfa, hdfa, h⟩ := Option.bind_eq_some_iff.1 h
  rw [Dfa.mem_getIntersect_iff h]
  simp only [Dfa.accepts_literal_iff hliteral hdfa, exists_eq_right]

/-- The search for the types of a literal ends. -/
theorem exists_getMatchingVariableTypes (hlexer : lexer.dfa.WellFormed)
    (hparse : env.parseSchemaVariable (cSearchVariable ++ regexString) = some regex)
    (hliteral : regex.IsLiteral s) :
    ∃ fuel types,
      getMatchingVariableTypes { env with fuel := fuel } lexer regexString = some types := by
  obtain ⟨g, steps, hg⟩ := Dfa.exists_determinize_of_tagFree hliteral.tagFree_rules
    env.regMapOrder
  have hgenerate : ∀ fuel, steps ≤ fuel →
      Dfa.generate (Nfa.ofRules [⟨0, regex⟩]) env.regMapOrder fuel = some g.dfa := by
    intro fuel hfuel
    unfold Dfa.generate
    rw [hg fuel hfuel]
    rfl
  have hdfa := Dfa.wellFormed_of_generate (hgenerate steps le_rfl)
  refine ⟨max steps (lexer.dfa.states.length * g.dfa.states.length), ?_⟩
  obtain ⟨types, htypes⟩ := @Dfa.exists_getIntersect lexer.dfa g.dfa env.address1 env.address2
    hlexer hdfa _ (Nat.le_max_right steps _)
  refine ⟨types, ?_⟩
  unfold getMatchingVariableTypes
  rw [Option.bind_eq_bind, hparse, Option.bind_some, Option.bind_eq_bind,
    hgenerate _ (Nat.le_max_left _ _)]
  exact htypes

/-! ## Views without wildcards -/

/-- A view without wildcards that the query parser takes for a variable as it
is. -/
def PlainView (lexer : LexerTables) (v : ExpressionView) : Prop :=
  (∀ c ∈ v.chars, c.isWildcard = false) ∧ v.isWellFormed ∧
    v.isSurroundedByDelimsOrWildcards lexer.isDelimiter ∧
    v.extendToAdjacentGreedyWildcards.1 = false

instance (lexer : LexerTables) (v : ExpressionView) : Decidable (PlainView lexer v) :=
  inferInstanceAs (Decidable (_ ∧ _))

/-- The string that the view stands for, without the escape characters. -/
def literalString (v : ExpressionView) : List UInt8 :=
  (v.chars.filter (!·.isEscape)).map (·.value)

theorem new_self (v : ExpressionView) :
    ExpressionView.new v.expression v.beginIdx v.endIdx = v :=
  ExpressionView.new_eq v.begin_le v.end_le

theorem extend_eq_self (h : v.extendToAdjacentGreedyWildcards.1 = false) :
    v.extendToAdjacentGreedyWildcards.2 = v := by
  unfold ExpressionView.extendToAdjacentGreedyWildcards at h ⊢
  dsimp only at h ⊢
  rw [Bool.or_eq_false_iff] at h
  rw [h.1, h.2]
  exact new_self v

theorem addRegexChar_snd {c : ExpressionCharacter} (h : c.isWildcard = false)
    (regex : List UInt8 × Bool) : (ExpressionView.addRegexChar regex c).2 = regex.2 := by
  obtain ⟨hgreedy, hnonGreedy⟩ := Bool.or_eq_false_iff.1 h
  have hgreedy : c.isGreedyWildcard = false := hgreedy
  have hnonGreedy : c.isNonGreedyWildcard = false := hnonGreedy
  unfold ExpressionView.addRegexChar
  simp only [hgreedy, hnonGreedy, Bool.false_eq_true, if_false]
  split_ifs <;> rfl

theorem generateRegexString_snd (h : ∀ c ∈ v.chars, c.isWildcard = false) :
    v.generateRegexString.2 = false := by
  have hfold : ∀ (cs : List ExpressionCharacter) (regex : List UInt8 × Bool),
      (∀ c ∈ cs, c.isWildcard = false) →
      (cs.foldl ExpressionView.addRegexChar regex).2 = regex.2 := by
    intro cs
    induction cs with
    | nil => exact fun _ _ => rfl
    | cons c cs ih =>
      intro regex hcs
      obtain ⟨hc, hcs⟩ := List.forall_mem_cons.1 hcs
      rw [List.foldl_cons, ih _ hcs, addRegexChar_snd hc]
  exact hfold v.chars ([], false) h

/-- The view is not a single `*`. -/
theorem getSearchString_ne_star (hplain : ∀ c ∈ v.chars, c.isWildcard = false)
    (hwell : v.isWellFormed) : v.getSearchString ≠ [ExpressionCharacter.cStar] := by
  intro hstar
  have hlength := congrArg List.length hstar
  rw [ExpressionView.length_getSearchString, List.length_singleton] at hlength
  have hend := v.end_le
  rw [← Expression.length_getChars] at hend
  have hbefore : v.beginIdx ≠ 0 →
      (v.expression.getChars[v.beginIdx - 1]?).any (·.isEscape) = false := by
    intro hb
    unfold ExpressionView.isWellFormed at hwell
    have hne : v.chars ≠ [] := by
      intro hnil
      rw [← ExpressionView.map_value_chars, hnil] at hstar
      cases hstar
    rw [if_neg hne, decide_eq_true (show v.beginIdx > 0 by omega), Bool.true_and] at hwell
    split at hwell
    · cases hwell
    · rename_i hno
      simpa using hno
  have hone : Consistent false v.chars :=
    consistent_slice (consistent_getChars v.expression) (by omega) hend hbefore
  unfold Consistent at hone
  rw [ExpressionView.map_value_chars, hstar] at hone
  have hmem : ExpressionCharacter.greedyStar ∈ v.chars := by
    rw [← hone]
    exact List.mem_singleton_self _
  have hwild := hplain _ hmem
  cases hwild

/-- A plain view is interpreted by the types of its regex. -/
theorem getAllSingleTokenInterpretations_of_plainView (h : PlainView lexer v) :
    getAllSingleTokenInterpretations env lexer v =
      (getMatchingVariableTypes env lexer v.generateRegexString.1).map fun types =>
        interpretationsOfTypes v.getSearchString false types.toList := by
  obtain ⟨hplain, hwell, hsurrounded, hextended⟩ := h
  have hself := extend_eq_self hextended
  unfold getAllSingleTokenInterpretations
  simp only [hwell, hsurrounded, hself, Bool.not_true, Bool.false_eq_true, if_false,
    getSearchString_ne_star hplain hwell, generateRegexString_snd hplain]

/-- Without a wildcard there is one variable, of the first type. -/
theorem interpretationsOfTypes_eq_iff {text : List UInt8} {ids : List Nat} {t : Nat} :
    interpretationsOfTypes text false ids = [QueryInterpretation.ofVariable t text false] ↔
      ids.head? = some t := by
  have hne : QueryInterpretation.ofStatic text ≠
      QueryInterpretation.ofVariable t text false := by
    unfold QueryInterpretation.ofStatic QueryInterpretation.appendStaticToken
    split <;> simp [QueryInterpretation.ofVariable, QueryInterpretation.appendVariableToken]
  cases ids with
  | nil => simpa [interpretationsOfTypes] using hne
  | cons id ids =>
    simp [interpretationsOfTypes, QueryInterpretation.ofVariable,
      QueryInterpretation.appendVariableToken]

/-- The first element of a set of numbers is the least one. -/
theorem head?_toList_eq_some_iff {types : OrderedSet Nat} {t : Nat} :
    types.toList.head? = some t ↔ t ∈ types ∧ ∀ u ∈ types, t ≤ u := by
  obtain ⟨l, hl⟩ := types
  show l.head? = some t ↔ t ∈ l ∧ ∀ u ∈ l, t ≤ u
  cases l with
  | nil => simp
  | cons x l =>
    have hlt : ∀ u ∈ l, x < u := fun u hu => Nat.compare_eq_lt.1 ((List.pairwise_cons.1 hl).1 u hu)
    rw [List.head?_cons, Option.some.injEq]
    constructor
    · rintro rfl
      refine ⟨List.mem_cons_self, fun u hu => ?_⟩
      rcases List.mem_cons.1 hu with rfl | hu
      · exact le_rfl
      · exact (hlt u hu).le
    · rintro ⟨ht, hle⟩
      rcases List.mem_cons.1 ht with rfl | ht
      · rfl
      · have hle := hle x List.mem_cons_self
        have hlt := hlt t ht
        omega

/-! ## The type of a literal -/

/-- The schema parser reads the regex of the view as the string. -/
def ReadsAs (env : QueryEnvironment) (v : ExpressionView) (s : List UInt8) : Prop :=
  ∃ regex, env.parseSchemaVariable (cSearchVariable ++ v.generateRegexString.1) = some regex ∧
    regex.IsLiteral s

/-- `t` is the least id among the variables that match the string. -/
def LeastType (dfa : Dfa) (s : List UInt8) (t : Nat) : Prop :=
  dfa.MatchesType s t ∧ ∀ u, dfa.MatchesType s u → t ≤ u

/-- The view is interpreted as one variable of the type, and nothing else. -/
def InterpretsAs (env : QueryEnvironment) (lexer : LexerTables) (v : ExpressionView) (t : Nat) :
    Prop :=
  ∃ fuel, getAllSingleTokenInterpretations { env with fuel := fuel } lexer v =
    some [QueryInterpretation.ofVariable t v.getSearchString false]

theorem wellFormed_of_generateTables {isDelimiter : Nat → Bool} {rules : List LexicalRule}
    {regMapOrder : List (Nat × Nat) → List (Nat × Nat)} {fuel : Nat}
    (h : generateTables isDelimiter rules regMapOrder fuel = .ok lexer) :
    lexer.dfa.WellFormed := by
  obtain ⟨dfa, root, hdfa, -, rfl⟩ := generateTables_cases h
  exact Dfa.wellFormed_of_generate hdfa

theorem interpretsAs_iff_leastType (hlexer : lexer.dfa.WellFormed) (hview : PlainView lexer v)
    (hread : ∀ regex,
      env.parseSchemaVariable (cSearchVariable ++ v.generateRegexString.1) = some regex →
        ∃ s, regex.IsLiteral s) (t : Nat) :
    InterpretsAs env lexer v t ↔ ∃ s, ReadsAs env v s ∧ LeastType lexer.dfa s t := by
  constructor
  · rintro ⟨fuel, hfuel⟩
    rw [getAllSingleTokenInterpretations_of_plainView hview] at hfuel
    obtain ⟨types, htypes, hinterpretations⟩ := Option.map_eq_some_iff.1 hfuel
    have hleast := head?_toList_eq_some_iff.1 (interpretationsOfTypes_eq_iff.1 hinterpretations)
    obtain ⟨regex, hparse, -⟩ := Option.bind_eq_some_iff.1 htypes
    obtain ⟨s, hliteral⟩ := hread regex hparse
    have hmem := @mem_getMatchingVariableTypes_iff { env with fuel := fuel } _ _ _ _ _ hparse
      hliteral htypes
    refine ⟨s, ⟨regex, hparse, hliteral⟩, (hmem t).1 hleast.1, fun u hu => ?_⟩
    exact hleast.2 u ((hmem u).2 hu)
  · rintro ⟨s, ⟨regex, hparse, hliteral⟩, hmatch, hle⟩
    obtain ⟨fuel, types, htypes⟩ := exists_getMatchingVariableTypes hlexer hparse hliteral
    have hmem := @mem_getMatchingVariableTypes_iff { env with fuel := fuel } _ _ _ _ _ hparse
      hliteral htypes
    refine ⟨fuel, ?_⟩
    rw [getAllSingleTokenInterpretations_of_plainView hview, htypes, Option.map_some]
    refine congrArg some (interpretationsOfTypes_eq_iff.2 (head?_toList_eq_some_iff.2 ?_))
    exact ⟨(hmem t).2 hmatch, fun u hu => hle u ((hmem u).1 hu)⟩

theorem matchesType_iff_of_run {dfa : Dfa} {w : List UInt8} {p : Nat} {st : DfaState}
    (hrun : dfa.run dfa.getRoot w = some p) (hst : dfa.state? p = some st) (t : Nat) :
    dfa.MatchesType w t ↔ t ∈ st.matchingVariableIds := by
  constructor
  · rintro ⟨p', st', hrun', hst', ht⟩
    obtain rfl : p = p' := Option.some.inj (hrun.symm.trans hrun')
    obtain rfl : st = st' := Option.some.inj (hst.symm.trans hst')
    exact ht
  · intro ht
    exact ⟨p, st, hrun, hst, ht⟩

theorem ReadsAs.eq {s t : List UInt8} (hs : ReadsAs env v s) (ht : ReadsAs env v t) : s = t := by
  obtain ⟨regex, hparse, hliteral⟩ := hs
  obtain ⟨regex', hparse', hliteral'⟩ := ht
  obtain rfl : regex = regex' := Option.some.inj (hparse.symm.trans hparse')
  exact (hliteral'.mem_denote_iff s).1 ((hliteral.mem_denote_iff s).2 rfl)

/-- The query `a` of length one. -/
def literalView : ExpressionView := ExpressionView.new ⟨[97]⟩ 0 1

/-- The schema parser at `search:a`. -/
def literalEnvironment : QueryEnvironment where
  parseSchemaVariable s := if s = cSearchVariable ++ [97] then some (.literal [] 97) else none
  regMapOrder := id
  address1 := .refl Nat
  address2 := .refl Nat
  fuel := 8

/-- Whether the rules make a lexer that reaches the given ids on `a`. -/
def reachesIds (rules : List LexicalRule) (ids : List Nat) : Bool :=
  match generateTables (fun _ => false) rules id 8 with
  | .error _ => false
  | .ok lexer => decide (PlainView lexer literalView) &&
      ((lexer.dfa.run lexer.dfa.getRoot (literalString literalView)).bind lexer.dfa.state?).any
        fun st => st.matchingVariableIds = ids

theorem of_reachesIds {rules : List LexicalRule} {ids : List Nat}
    (h : reachesIds rules ids) :
    ∃ lexer p st, generateTables (fun _ => false) rules id 8 = .ok lexer ∧
      PlainView lexer literalView ∧
      lexer.dfa.run lexer.dfa.getRoot (literalString literalView) = some p ∧
      lexer.dfa.state? p = some st ∧ st.matchingVariableIds = ids := by
  unfold reachesIds at h
  split at h
  · cases h
  · rename_i lexer hlexer
    rw [Bool.and_eq_true, decide_eq_true_eq] at h
    obtain ⟨hview, h⟩ := h
    obtain ⟨st, hst, hids⟩ := (Option.any_eq_true _ _).1 h
    obtain ⟨p, hrun, hst⟩ := Option.bind_eq_some_iff.1 hst
    exact ⟨lexer, p, st, hlexer, hview, hrun, hst, of_decide_eq_true hids⟩

theorem isLiteral_of_parse {s : List UInt8} {regex : RegexAST}
    (h : literalEnvironment.parseSchemaVariable s = some regex) :
    ∃ s, regex.IsLiteral s := by
  change (if s = cSearchVariable ++ [97] then some (.literal [] 97) else none) = some regex at h
  split_ifs at h
  obtain rfl := Option.some.inj h
  exact ⟨[97], .literal 97⟩

end Query

end LogSurgeon
