import LogSurgeon.FiniteAutomata.Dfa
import LogSurgeon.FiniteAutomata.NfaRoot
import LogSurgeon.FiniteAutomata.NfaTagCycles

/-!
# When the spontaneous closure ends

The worklist of `spontaneous_closure` compares whole configurations, and the
lookahead of a configuration grows with every tag operation.  So it ends exactly
when no cycle of spontaneous transitions with a tag operation can be reached
(`closureExact_iff`).

The NFA of the rules has such a cycle exactly when a rule repeats, without an
upper bound, something that performs a tag operation and can be passed without a
byte (`exists_reachesTaggedCycle_ofRules_iff`).
-/

namespace LogSurgeon

open Lib Lib.LangGraph DeterminizationConfiguration

/-- The worklist ends, and finds exactly the configurations that spontaneous
transitions lead to, each with their operations in its lookahead. -/
def ClosureExact (nfa : Nfa) (config : DeterminizationConfiguration) : Prop :=
  ∃ fuel closure, config.spontaneousClosure nfa fuel = some closure ∧
    ∀ c, c ∈ closure ↔ LeadsTo nfa config c

/-! ## One configuration -/

namespace DeterminizationConfiguration

variable {nfa : Nfa} {config : DeterminizationConfiguration}

theorem follow_injective (config : DeterminizationConfiguration) :
    Function.Injective fun e : Nat × List TagOperation => config.follow e.2 e.1 := by
  intro e e' heq
  have hstate : e.1 = e'.1 := congrArg nfaState heq
  have hlookahead : config.lookahead ++ e.2 = config.lookahead ++ e'.2 := congrArg lookahead heq
  exact Prod.ext hstate (List.append_cancel_left hlookahead)

/-- A closure that is found holds the ends of all paths. -/
theorem finite_of_spontaneousClosure {fuel : Nat} {closure : ConfigurationSet}
    (h : config.spontaneousClosure nfa fuel = some closure) :
    {e : Nat × List TagOperation | nfa.SpontaneousPath config.nfaState e.2 e.1}.Finite := by
  apply Set.Finite.of_finite_image _ config.follow_injective.injOn
  refine (List.finite_toSet closure.toList).subset ?_
  intro c hc
  obtain ⟨e, he, rfl⟩ := hc
  exact (mem_spontaneousClosure h _).2 ⟨e.2, e.1, he, rfl⟩

/-- The worklist ends when the paths have finitely many ends. -/
theorem exists_spontaneousClosure_of_finite
    (h : {e : Nat × List TagOperation | nfa.SpontaneousPath config.nfaState e.2 e.1}.Finite) :
    ∃ fuel closure, config.spontaneousClosure nfa fuel = some closure := by
  have hends : ∀ e, e ∈ h.toFinset ↔ nfa.SpontaneousPath config.nfaState e.2 e.1 :=
    fun e => h.mem_toFinset
  have hstack : ∀ c ∈ [config], LeadsTo nfa config c := by
    intro c hc
    rw [List.mem_singleton.1 hc]
    exact LeadsTo.refl config
  obtain ⟨closure, hclosure⟩ := exists_closureLoop hends hstack (Nat.le_refl
    ([config].length + pending nfa config h.toFinset OrderedSet.empty))
  exact ⟨_, closure, hclosure⟩

end DeterminizationConfiguration

/-- The closure of a configuration ends exactly when no tagged cycle can be
reached from its state. -/
theorem closureExact_iff (nfa : Nfa) (config : DeterminizationConfiguration) :
    ClosureExact nfa config ↔ ¬ nfa.ReachesTaggedCycle config.nfaState := by
  rw [← Nfa.finite_spontaneousPaths_iff]
  constructor
  · intro h
    obtain ⟨fuel, closure, hclosure, -⟩ := h
    exact finite_of_spontaneousClosure hclosure
  · intro h
    obtain ⟨fuel, closure, hclosure⟩ := exists_spontaneousClosure_of_finite h
    exact ⟨fuel, closure, hclosure, mem_spontaneousClosure hclosure⟩

/-! ## The NFA of the rules -/

namespace Nfa

/-- A rule adds its part between the root and its accepting state. -/
theorem hasPass_addToNfa (rule : LexicalRule) {nfa : Nfa} (hroot : nfa.root < nfa.states.length) :
    HasPass (rule.regex.pass.guarded rule.regex.negativeCaptures)
      (nfa.newAcceptingState rule.variableId).1 nfa.root nfa.states.length
      (rule.addToNfa nfa) := by
  have hlength := length_newAcceptingState nfa rule.variableId
  apply (rule.regex.builds_addToNfa.guarded rule.regex.negativeCaptures)
  · rw [root_newAcceptingState]
    omega
  · omega

theorem grows_newAcceptingState (nfa : Nfa) (id : Nat) :
    nfa.Grows (nfa.newAcceptingState id).1 := by
  refine ⟨?_, fun p q ops h => ?_⟩
  · rw [length_newAcceptingState]
    omega
  · rw [tagEdges_newAcceptingState]
    exact h

/-- Without a repetition of tag operations, the states have a rank. -/
theorem exists_rankedBy_ofRules {rules : List LexicalRule}
    (h : ∀ rule ∈ rules, ¬ rule.regex.RepeatsTagged) : ∃ rank, (ofRules rules).RankedBy rank := by
  induction rules using List.reverseRecOn with
  | nil =>
    have hnone : ∀ p q ops, ops ∉ (ofRules []).tagEdges p q := by
      intro p q ops hops
      obtain ⟨s, hs, t, ht, -⟩ := hops
      obtain rfl : s = { id := 0 } := List.mem_singleton.1 (List.mem_of_getElem? hs)
      cases ht
    exact ⟨fun _ => 0, fun p q ops hops => absurd hops (hnone p q ops),
      fun p q ops hops => absurd hops (hnone p q ops)⟩
  | append_singleton rules rule ih =>
    obtain ⟨rank, hrank⟩ := ih fun rule' hrule' => h rule' (by simp [hrule'])
    have hroot := root_lt_length_ofRules rules
    have hcyclic := Bool.eq_false_of_not_eq_true (h rule (by simp))
    -- the accepting state is above the root
    let rank₀ := Function.update rank (ofRules rules).states.length (rank (ofRules rules).root + 1)
    have hold : ∀ p < (ofRules rules).states.length, rank₀ p = rank p :=
      fun p hp => Function.update_of_ne hp.ne _ rank
    have hrank₀ : ((ofRules rules).newAcceptingState rule.variableId).1.RankedBy rank₀ :=
      (hrank.congr hold).of_tagEdges_eq (tagEdges_newAcceptingState _ _)
        (grows_newAcceptingState _ _).1
    obtain ⟨rank₁, -, hrank₁⟩ := (hasPass_addToNfa rule hroot).ranked
      (by rw [RegexAST.cyclic_guarded]; exact hcyclic) rank₀ hrank₀ (by
        apply Pass.fits_of_lt
        rw [hold _ hroot]
        show _ < Function.update rank _ _ _
        rw [Function.update_self]
        exact lt_add_one _)
    rw [ofRules_append_singleton]
    exact ⟨rank₁, hrank₁⟩

/-- A repetition of tag operations is a cycle. -/
theorem exists_reachesTaggedCycle_of_repeatsTagged {rules : List LexicalRule}
    {rule : LexicalRule} (hmem : rule ∈ rules) (h : rule.regex.RepeatsTagged) :
    ∃ p, (ofRules rules).ReachesTaggedCycle p := by
  induction rules using List.reverseRecOn with
  | nil => cases hmem
  | append_singleton rules last ih =>
    have hpass := hasPass_addToNfa last (root_lt_length_ofRules rules)
    rw [ofRules_append_singleton]
    rcases List.mem_append.1 hmem with hmem | hmem
    · obtain ⟨p, hp⟩ := ih hmem
      have hgrows := keptByOperations_grows.trans
        (grows_newAcceptingState (ofRules rules) last.variableId) hpass.grows
      exact ⟨p, hgrows.labelledCycle hp⟩
    · rw [List.mem_singleton.1 hmem] at h
      exact hpass.cyclic (by rw [RegexAST.cyclic_guarded]; exact h)

/-- A state from which a cycle is reached exists. -/
theorem ReachesTaggedCycle.lt_length {nfa : Nfa} {p : Nat} (h : nfa.ReachesTaggedCycle p) :
    p < nfa.states.length := by
  have hwalk : ∀ {p q : Nat} {ops : List TagOperation}, Walk nfa.tagEdges p ops q →
      p < nfa.states.length ∨ p = q ∧ ops = [] := by
    intro p q ops hwalk
    cases hwalk with
    | nil => exact Or.inr ⟨rfl, rfl⟩
    | cons hedge hrest =>
      obtain ⟨s, hs, -⟩ := hedge
      exact Or.inl (List.getElem?_eq_some_iff.1 hs).1
  obtain ⟨q, u, w, hpq, hw, hcycle⟩ := h
  rcases hwalk hpq with hp | ⟨rfl, -⟩
  · exact hp
  · exact (hwalk hcycle).resolve_right fun hnil => hw hnil.2

theorem exists_reachesTaggedCycle_ofRules_iff (rules : List LexicalRule) :
    (∃ p, (ofRules rules).ReachesTaggedCycle p) ↔ ∃ rule ∈ rules, rule.regex.RepeatsTagged := by
  constructor
  · intro h
    by_contra hnone
    obtain ⟨p, hp⟩ := h
    obtain ⟨rank, hrank⟩ := exists_rankedBy_ofRules fun rule hrule hrepeats =>
      hnone ⟨rule, hrule, hrepeats⟩
    exact hrank.2.not_labelledCycle p hp
  · intro h
    obtain ⟨rule, hrule, hrepeats⟩ := h
    exact exists_reachesTaggedCycle_of_repeatsTagged hrule hrepeats

end Nfa

/-- The closure of a configuration ends, with exactly the configurations that
spontaneous transitions lead to, when no tagged cycle can be reached from its
state.  So it does for all configurations of the rules exactly when no rule repeats
a tag operation without a byte. -/
theorem closureExact_ofRules_iff (rules : List LexicalRule) :
    (∀ config, ClosureExact (Nfa.ofRules rules) config ↔
        ¬ (Nfa.ofRules rules).ReachesTaggedCycle config.nfaState) ∧
      ((∀ config, config.nfaState < (Nfa.ofRules rules).states.length →
          ClosureExact (Nfa.ofRules rules) config) ↔
        ∀ rule ∈ rules, ¬ rule.regex.RepeatsTagged) := by
  refine ⟨closureExact_iff _, ?_, ?_⟩
  · intro h rule hrule hrepeats
    obtain ⟨p, hp⟩ := Nfa.exists_reachesTaggedCycle_of_repeatsTagged hrule hrepeats
    exact (closureExact_iff _ ⟨p, OrderedMap.empty, [], []⟩).1 (h _ hp.lt_length) hp
  · intro h config _
    apply (closureExact_iff _ config).2
    intro hcycle
    obtain ⟨rule, hrule, hrepeats⟩ :=
      (Nfa.exists_reachesTaggedCycle_ofRules_iff rules).1 ⟨_, hcycle⟩
    exact h rule hrule hrepeats

/-! ### A repeated capture -/

/-- The rule `(?<x>a*)+`. -/
def repeatedCaptureRule : LexicalRule :=
  ⟨0, .mkMultiplication
    (.mkCapture (.mkOr .mkEmpty (.mkMultiplication (.mkLiteral 97) 1 0)) ⟨0, "x"⟩) 1 0⟩

/-- Whether the transitions lead from `p` to `q`, one after the other. -/
def Nfa.leads (nfa : Nfa) (q : Nat) : Nat → List NfaSpontaneousTransition → Bool
  | p, [] => p = q
  | p, t :: ts =>
    ((nfa.state? p).any fun s => t ∈ s.spontaneousTransitions) && nfa.leads q t.destState ts

theorem Nfa.walk_of_leads {nfa : Nfa} {p q : Nat} {ts : List NfaSpontaneousTransition}
    (h : nfa.leads q p ts = true) : Walk nfa.tagEdges p (ts.flatMap (·.tagOps)) q := by
  induction ts generalizing p with
  | nil =>
    obtain rfl : p = q := of_decide_eq_true h
    exact Walk.nil p
  | cons t ts ih =>
    obtain ⟨hfirst, hrest⟩ := Bool.and_eq_true_iff.1 h
    obtain ⟨s, hs, ht⟩ := (Option.any_eq_true _ _).1 hfirst
    exact Walk.cons ⟨s, hs, t, of_decide_eq_true ht, rfl, rfl⟩ (ih hrest)

/-- The capture matches the empty word again and again, so the closure that the
DFA starts with does not end. -/
theorem not_closureExact_repeatedCapture :
    ¬ ClosureExact (Nfa.ofRules [repeatedCaptureRule])
      (Dfa.initialConfiguration (Nfa.ofRules [repeatedCaptureRule])) := by
  have hfirst : (Nfa.ofRules [repeatedCaptureRule]).leads 1 0
      [⟨[⟨0, .set⟩], 2⟩, ⟨[], 3⟩, ⟨[⟨1, .set⟩], 1⟩] = true := by decide +kernel
  have hagain : (Nfa.ofRules [repeatedCaptureRule]).leads 1 1
      [⟨[⟨0, .set⟩], 4⟩, ⟨[], 5⟩, ⟨[⟨1, .set⟩], 1⟩] = true := by decide +kernel
  have hroot : (Dfa.initialConfiguration (Nfa.ofRules [repeatedCaptureRule])).nfaState = 0 :=
    Nfa.root_ofRules _
  rw [closureExact_iff, hroot, not_not]
  exact ⟨1, _, _, Nfa.walk_of_leads hfirst, by simp, Nfa.walk_of_leads hagain⟩

end LogSurgeon
