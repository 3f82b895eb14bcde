import LogSurgeon.FiniteAutomata.DfaLanguage
import LogSurgeon.FiniteAutomata.DfaTermination

/-!
# Rules without captures

Without captures there are no tags, so a configuration is its NFA state.  Then
a mapping between two sets only exists if they are equal, every word is
unambiguous, and so the generation ends with a DFA that is right about every
word.
-/

namespace LogSurgeon

open Lib

/-! ## Trees and NFAs without tags -/

/-- The tree has no captures and negates none. -/
def RegexAST.TagFree : RegexAST → Prop
  | empty neg | literal neg _ | group neg _ => neg = []
  | or neg l r | cat neg l r => neg = [] ∧ l.TagFree ∧ r.TagFree
  | multiplication neg r _ _ => neg = [] ∧ r.TagFree
  | capture _ _ _ => False

theorem RegexAST.TagFree.negativeCaptures {r : RegexAST} (h : r.TagFree) :
    r.negativeCaptures = [] := by
  cases r with
  | empty | literal | group => exact h
  | or | cat | multiplication => exact h.1
  | capture => exact h.elim

namespace Nfa

/-- No spontaneous transition performs an operation. -/
def NoOps (s : NfaState) : Prop := ∀ t ∈ s.spontaneousTransitions, t.tagOps = []

structure TagFree (nfa : Nfa) : Prop where
  numTags : nfa.numTags = 0
  noOps : ∀ s ∈ nfa.states, NoOps s

variable {nfa : Nfa} {add : Nfa → Nat → Nfa}

theorem TagFree.setRoot (h : nfa.TagFree) (root : Nat) : (nfa.setRoot root).TagFree :=
  ⟨h.numTags, h.noOps⟩

theorem TagFree.modifyState (h : nfa.TagFree) (p : Nat) {f : NfaState → NfaState}
    (hf : ∀ s, NoOps s → NoOps (f s)) : (nfa.modifyState p f).TagFree := by
  refine ⟨h.numTags, fun s hs => ?_⟩
  obtain ⟨i, hi⟩ := List.getElem?_of_mem hs
  have hi : (nfa.states.modify p f)[i]? = some s := hi
  rw [List.getElem?_modify] at hi
  obtain ⟨old, hold, rfl⟩ := Option.map_eq_some_iff.1 hi
  have hnoOps := h.noOps old (List.mem_of_getElem? hold)
  split
  · exact hf old hnoOps
  · exact hnoOps

theorem TagFree.pushState (h : nfa.TagFree) {make : Nat → NfaState}
    (hmake : ∀ id, NoOps (make id)) : (nfa.pushState make).1.TagFree := by
  refine ⟨h.numTags, fun s hs => ?_⟩
  rcases List.mem_append.1 hs with hs | hs
  · exact h.noOps s hs
  · rw [List.mem_singleton.1 hs]
    exact hmake _

theorem TagFree.newState (h : nfa.TagFree) : nfa.newState.1.TagFree :=
  h.pushState fun _ t ht => by cases ht

theorem TagFree.addRootSpontaneousTransition (h : nfa.TagFree) (e : Nat) :
    (nfa.addRootSpontaneousTransition e).TagFree := by
  refine h.modifyState _ fun s hs t ht => ?_
  rcases List.mem_append.1 ht with ht | ht
  · exact hs t ht
  · rw [List.mem_singleton.1 ht]

theorem TagFree.addRootInterval (h : nfa.TagFree) (interval : Range) (e : Nat) :
    (nfa.addRootInterval interval e).TagFree :=
  h.modifyState _ fun _ hs => hs

/-- Adding a part keeps the NFA without tags. -/
def KeepsTagFree (add : Nfa → Nat → Nfa) : Prop := ∀ nfa e, TagFree nfa → (add nfa e).TagFree

theorem KeepsTagFree.addCopies (h : KeepsTagFree add) (count : Nat) (hnfa : nfa.TagFree) :
    (addCopies add count nfa).TagFree := by
  induction count generalizing nfa with
  | zero => exact hnfa
  | succ count ih => exact ih ((h _ _ hnfa.newState).setRoot _)

theorem KeepsTagFree.addOptionalCopies (h : KeepsTagFree add) (e count : Nat)
    (hnfa : nfa.TagFree) : (addOptionalCopies add e count nfa).TagFree := by
  induction count generalizing nfa with
  | zero => exact hnfa
  | succ count ih => exact ih ((h _ _ (h _ e hnfa).newState).setRoot _)

theorem KeepsTagFree.addMultiplication (h : KeepsTagFree add) (min max : Nat) :
    KeepsTagFree (addMultiplication add min max) := by
  intro nfa e hnfa
  have hlower : (if min = 0 then nfa.addRootSpontaneousTransition e
      else add (Nfa.addCopies add (min - 1) nfa) e).TagFree := by
    split
    · exact hnfa.addRootSpontaneousTransition e
    · exact h _ _ (h.addCopies _ hnfa)
  refine TagFree.setRoot ?_ _
  split
  · exact h _ _ (hlower.setRoot e)
  · split
    · refine h _ _ (h.addOptionalCopies _ _ ?_)
      by_cases hmin : min = 0
      · simp only [hmin, if_true] at hlower ⊢
        exact hlower
      · simp only [hmin, if_false] at hlower ⊢
        exact h.addCopies 1 hlower
    · exact hlower

end Nfa

theorem RegexAST.keepsTagFree_addToNfa {r : RegexAST} (h : r.TagFree) :
    Nfa.KeepsTagFree r.addToNfa := by
  have hplain : ∀ {r : RegexAST}, r.TagFree → Nfa.KeepsTagFree r.addToNfa →
      Nfa.KeepsTagFree (Nfa.addWithNegativeCaptures r.negativeCaptures r.addToNfa) := by
    intro r hr hkeeps nfa e hnfa
    unfold Nfa.addWithNegativeCaptures
    rw [if_pos hr.negativeCaptures]
    exact hkeeps nfa e hnfa
  induction r with
  | empty => exact fun nfa e hnfa => hnfa.addRootSpontaneousTransition e
  | literal => exact fun nfa e hnfa => hnfa.addRootInterval _ e
  | group neg g =>
    intro nfa e hnfa
    rw [addToNfa]
    generalize g.transitionRanges = ranges
    induction ranges generalizing nfa with
    | nil => exact hnfa
    | cons range ranges ih => exact ih _ (hnfa.addRootInterval range e)
  | or neg l r ihl ihr =>
    intro nfa e hnfa
    exact hplain h.2.2 (ihr h.2.2) _ e (hplain h.2.1 (ihl h.2.1) nfa e hnfa)
  | cat neg l r ihl ihr =>
    intro nfa e hnfa
    have hleft := hplain h.2.1 (ihl h.2.1) _ nfa.newState.2 hnfa.newState
    exact (hplain h.2.2 (ihr h.2.2) _ e (hleft.setRoot _)).setRoot _
  | multiplication neg r min max ih => exact (hplain h.2 (ih h.2)).addMultiplication min max
  | capture => exact h.elim

namespace Nfa

theorem tagFree_ofRules {rules : List LexicalRule} (h : ∀ rule ∈ rules, rule.regex.TagFree) :
    (ofRules rules).TagFree := by
  induction rules using List.reverseRecOn with
  | nil =>
    refine ⟨rfl, fun s hs t ht => ?_⟩
    rw [List.mem_singleton.1 hs] at ht
    cases ht
  | append_singleton rules rule ih =>
    rw [ofRules_append_singleton]
    have hold := ih fun rule' hrule' => h rule' (List.mem_append_left _ hrule')
    have hrule := h rule (by simp)
    unfold LexicalRule.addToNfa RegexAST.addToNfaWithNegativeCaptures addWithNegativeCaptures
    dsimp only
    rw [if_pos hrule.negativeCaptures]
    exact RegexAST.keepsTagFree_addToNfa hrule _ _ (hold.pushState fun _ t ht => by cases ht)

/-! ## Paths and runs -/

variable {nfa : Nfa}

theorem TagFree.ops_eq_nil (h : nfa.TagFree) {p q : Nat} {ops : List TagOperation}
    (hpath : nfa.SpontaneousPath p ops q) : ops = [] := by
  induction hpath with
  | refl => rfl
  | snoc _ hs ht ih => rw [ih, List.nil_append, h.noOps _ (List.mem_of_getElem? hs) _ ht]

/-- A path ends where it starts, or at the target of a transition. -/
theorem TagFree.finiteClosures (h : nfa.TagFree) : nfa.FiniteClosures := by
  intro p
  refine Set.Finite.subset (List.finite_toSet ((p, []) ::
    nfa.states.flatMap fun s => s.spontaneousTransitions.map fun t => (t.destState, []))) ?_
  rintro ⟨q, ops⟩ hpath
  have hpath : nfa.SpontaneousPath p ops q := hpath
  have hops := h.ops_eq_nil hpath
  cases hpath with
  | refl => exact List.mem_cons_self
  | snoc _ hs ht =>
    refine List.mem_cons_of_mem _ (List.mem_flatMap.2 ⟨_, List.mem_of_getElem? hs, ?_⟩)
    exact List.mem_map.2 ⟨_, ht, Prod.ext rfl hops.symm⟩

theorem TagFree.positions_eq_none (h : nfa.TagFree) {w : List UInt8} {s : TaggedState}
    (hrun : nfa.TaggedRun w s) (t : Nat) : s.positions t = none := by
  induction hrun with
  | start => rfl
  | byte _ _ _ ih =>
    show stamp nfa.numTags _ _ _ t = none
    unfold stamp
    rw [h.numTags, if_neg (by simp)]
    exact ih

/-- Without tags no word is ambiguous. -/
theorem TagFree.settles (h : nfa.TagFree) : nfa.Settles := by
  intro word
  refine Or.inl fun k => ⟨k, le_rfl, fun s s' hs hs' _ _ t _ => ?_⟩
  rw [h.positions_eq_none hs, h.positions_eq_none hs']

end Nfa

/-! ## The DFA -/

namespace Dfa

open Determinization

variable {nfa : Nfa} {regMapOrder : List (Nat × Nat) → List (Nat × Nat)} {fuel : Nat}

/-- The configurations are NFA states. -/
def PlainSet (S : ConfigurationSet) : Prop :=
  ∀ c ∈ S, c = ⟨c.nfaState, OrderedMap.empty, [], []⟩

theorem plainSet_initial (h : nfa.TagFree) {S : ConfigurationSet}
    (hS : (initialConfiguration nfa).spontaneousClosure nfa fuel = some S) : PlainSet S := by
  intro c hc
  obtain ⟨ops, q, hpath, rfl⟩ :=
    (DeterminizationConfiguration.mem_spontaneousClosure hS c).1 hc
  rw [h.ops_eq_nil hpath]
  unfold initialConfiguration
  rw [h.numTags]
  rfl

/-- Exploring a set of NFA states gives sets of NFA states. -/
theorem PlainSet.computed (h : nfa.TagFree) {S D : ConfigurationSet} {byte low : Nat}
    {ops : List RegisterOperation} (hS : PlainSet S) (hD : Computed nfa fuel low S byte ops D) :
    PlainSet D := by
  obtain ⟨-, rh, rh', ts, -, hts, hfind⟩ := hD
  obtain ⟨m, -, -, hbytes⟩ := getTransitions_spec hts
  intro x hx
  obtain ⟨c, hc, next, -, y, ⟨ops', q, hpath, rfl⟩, hyx⟩ := ((hbytes byte).2 ops D hfind x).1 hx
  rw [h.ops_eq_nil hpath, hS c hc] at hyx
  have hregs : x.tagIdToRegIds = OrderedMap.empty := by
    refine OrderedMap.ext fun t => hyx.kept t ?_
    rw [h.numTags]
    omega
  have hhistory := hyx.history
  have hlookahead := hyx.lookahead
  cases x
  simp_all [DeterminizationConfiguration.follow, nextConfiguration]

theorem PlainSet.spans (h : nfa.TagFree) {g : Determinization} {S D : ConfigurationSet}
    {i j : Nat} {w : List UInt8} (hS : PlainSet S) (hD : Spans nfa fuel g S i w D j) :
    PlainSet D := by
  induction hD with
  | refl => exact hS
  | step _ _ _ hcomputed _ ih => exact ih.computed h hcomputed

/-- A mapping between sets of NFA states is between equal sets. -/
theorem PlainSet.eq_of_tryGetMapping {D R : ConfigurationSet} (hD : PlainSet D)
    (hR : PlainSet R) {regMap : List (Nat × Nat)} (h : tryGetMapping D R = some regMap) :
    R = D := by
  obtain ⟨hsize, -, hrenames⟩ := tryGetMapping_sound h
  have hsub : D.toList ⊆ R.toList := by
    intro c hc
    obtain ⟨c', hc', -⟩ := hrenames c hc
    obtain ⟨hmem, hstate, -⟩ := firstComparable_mem hc'
    have heq : c = c' := by
      rw [hD c hc, hR c' hmem, hstate]
    rw [heq]
    exact hmem
  have hperm := (List.Subperm.perm_of_length_le (D.nodup.subperm hsub) hsize.ge)
  exact OrderedSet.ext fun c => hperm.mem_iff.symm

variable {rules : List LexicalRule}

/-- The DFA of rules without captures is right about every word. -/
theorem answers_of_tagFree (htag : ∀ rule ∈ rules, rule.regex.TagFree) {g : Determinization}
    (h : determinize (Nfa.ofRules rules) regMapOrder fuel = some g) (w : List UInt8) :
    Answers rules g.dfa w := by
  have hfree := Nfa.tagFree_ofRules htag
  obtain ⟨S₀, hS₀, hinv, hspanned, -⟩ := determinize_spec h
  have hplain : ∀ S i, g.dfaStates.find? S = some i → PlainSet S := by
    intro S i hS
    obtain ⟨w, hw⟩ := hspanned S i hS
    exact (plainSet_initial hfree hS₀).spans hfree hw
  refine answers_of_sameMatches h ?_ w
  rintro D R ⟨S, i, byte, t, low, ops, hS, ht, hD, hR⟩
  -- the set of the state that the transition leads to is the computed one
  obtain ⟨low', ops', D', hD', ⟨R', hR', hmapped⟩, -⟩ := hinv.transitions S i byte t hS ht
  have hplainD' := (hplain S i hS).computed hfree hD'
  have hR'D' : R' = D' := by
    rcases hmapped with ⟨heq, -⟩ | ⟨regMap, hregMap, -⟩
    · exact heq
    · exact hplainD'.eq_of_tryGetMapping (hplain R' _ hR') hregMap
  obtain rfl : R = D' := (hinv.injective R R' _ hR hR').trans hR'D'
  exact fun v => matchesFrom_step fun k => by
    unfold MatchesFrom
    simp only [hD.statesOf, hD'.statesOf]

/-- The generation for rules without captures ends. -/
theorem exists_determinize_of_tagFree (htag : ∀ rule ∈ rules, rule.regex.TagFree)
    (regMapOrder : List (Nat × Nat) → List (Nat × Nat)) :
    ∃ g steps, ∀ fuel, steps ≤ fuel →
      determinize (Nfa.ofRules rules) regMapOrder fuel = some g :=
  exists_determinize_of_settles (Nfa.tagFree_ofRules htag).finiteClosures
    (Nfa.tagFree_ofRules htag).settles regMapOrder

end Dfa

end LogSurgeon
