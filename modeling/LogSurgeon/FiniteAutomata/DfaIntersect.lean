import LogSurgeon.FiniteAutomata.DfaWorklist
import LogSurgeon.Lib.Exploration
import Mathlib.Data.Finset.Prod
import Mathlib.Logic.Embedding.Basic

/-!
# The intersection of two DFAs

`getIntersect` explores the pairs of states that a common string leads to, and
collects the variables of the first DFA in the pairs where both accept.

The pairs are kept in sets that are ordered by the addresses of the states.
Every state has an address of its own, and nothing else is known about them, so
the addresses are parameters.
-/

namespace LogSurgeon

open Lib
open Std (TransOrd LawfulEqOrd TransCmp)

/-! ## Pairs of states -/

/-- A state of each of the two DFAs.  `address1` and `address2` are where their
states are stored. -/
structure DfaStatePair (address1 address2 : Nat ↪ Nat) where
  state1 : Nat
  state2 : Nat
deriving DecidableEq

namespace DfaStatePair

variable {address1 address2 : Nat ↪ Nat}

/-- `operator<` -/
def lessThan (lhs rhs : DfaStatePair address1 address2) : Prop :=
  if address1 lhs.state1 = address1 rhs.state1 then
    address2 lhs.state2 < address2 rhs.state2
  else address1 lhs.state1 < address1 rhs.state1

instance : Ord (DfaStatePair address1 address2) :=
  ⟨compareLex (compareOn fun pair => address1 pair.state1)
    (compareOn fun pair => address2 pair.state2)⟩

theorem compare_eq_lt_iff (lhs rhs : DfaStatePair address1 address2) :
    compare lhs rhs = .lt ↔ lhs.lessThan rhs := by
  show ((compare (address1 lhs.state1) (address1 rhs.state1)).then
    (compare (address2 lhs.state2) (address2 rhs.state2))) = .lt ↔ _
  rw [Ordering.then_eq_lt, Nat.compare_eq_lt, Nat.compare_eq_eq, Nat.compare_eq_lt]
  unfold lessThan
  split <;> omega

instance : TransOrd (DfaStatePair address1 address2) :=
  inferInstanceAs (TransCmp (compareLex _ _))

instance : LawfulEqOrd (DfaStatePair address1 address2) where
  eq_of_compare {lhs rhs} h := by
    have h : ((compare (address1 lhs.state1) (address1 rhs.state1)).then
      (compare (address2 lhs.state2) (address2 rhs.state2))) = .eq := h
    rw [Ordering.then_eq_eq, Nat.compare_eq_eq, Nat.compare_eq_eq] at h
    cases lhs
    cases rhs
    rw [mk.injEq]
    exact ⟨address1.injective h.1, address2.injective h.2⟩

/-- The pairs that a byte leads to, in the order of the bytes. -/
def getReachablePairs (dfa1 dfa2 : Dfa) (pair : DfaStatePair address1 address2) :
    List (DfaStatePair address1 address2) :=
  (List.range cSizeOfByte).filterMap fun i =>
    match dfa1.transition? pair.state1 i, dfa2.transition? pair.state2 i with
    | some transition1, some transition2 =>
      some ⟨transition1.destState, transition2.destState⟩
    | _, _ => none

def isAccepting (dfa1 dfa2 : Dfa) (pair : DfaStatePair address1 address2) : Bool :=
  (dfa1.state? pair.state1).any (·.isAccepting) && (dfa2.state? pair.state2).any (·.isAccepting)

/-- Only the first state has the variables of the pair. -/
def getMatchingVariableIds (dfa1 : Dfa) (pair : DfaStatePair address1 address2) : List Nat :=
  (dfa1.state? pair.state1).elim [] (·.matchingVariableIds)

theorem mem_getReachablePairs {dfa1 dfa2 : Dfa} {pair next : DfaStatePair address1 address2} :
    next ∈ pair.getReachablePairs dfa1 dfa2 ↔ ∃ byte : UInt8, ∃ t₁ t₂,
      dfa1.transition? pair.state1 byte.toNat = some t₁ ∧
      dfa2.transition? pair.state2 byte.toNat = some t₂ ∧
      next = ⟨t₁.destState, t₂.destState⟩ := by
  unfold getReachablePairs
  rw [List.mem_filterMap]
  constructor
  · rintro ⟨i, hi, hnext⟩
    split at hnext
    · rename_i t₁ t₂ ht₁ ht₂
      have hi : i < 256 := List.mem_range.1 hi
      have hbyte : (UInt8.ofNat i).toNat = i := UInt8.toNat_ofNat_of_lt' hi
      refine ⟨UInt8.ofNat i, t₁, t₂, ?_, ?_, (Option.some.inj hnext).symm⟩
      · rw [hbyte]
        exact ht₁
      · rw [hbyte]
        exact ht₂
    · cases hnext
  · rintro ⟨byte, t₁, t₂, ht₁, ht₂, rfl⟩
    refine ⟨byte.toNat, List.mem_range.2 byte.toNat_lt, ?_⟩
    rw [ht₁, ht₂]

/-- Both states of a reachable pair are reached by one string. -/
theorem reachable_iff {dfa1 dfa2 : Dfa} {p q : DfaStatePair address1 address2} :
    Reachable (getReachablePairs dfa1 dfa2) p q ↔ ∃ w : List UInt8,
      dfa1.run p.state1 w = some q.state1 ∧ dfa2.run p.state2 w = some q.state2 := by
  constructor
  · intro h
    induction h with
    | refl => exact ⟨[], rfl, rfl⟩
    | @tail q r _ hstep ih =>
      obtain ⟨w, hw₁, hw₂⟩ := ih
      obtain ⟨byte, t₁, t₂, ht₁, ht₂, rfl⟩ := mem_getReachablePairs.1 hstep
      refine ⟨w ++ [byte], ?_, ?_⟩
      · rw [Dfa.run_append, hw₁]
        show dfa1.run q.state1 [byte] = some t₁.destState
        rw [Dfa.run_cons, ht₁]
        rfl
      · rw [Dfa.run_append, hw₂]
        show dfa2.run q.state2 [byte] = some t₂.destState
        rw [Dfa.run_cons, ht₂]
        rfl
  · rintro ⟨w, hw₁, hw₂⟩
    induction w generalizing p with
    | nil =>
      cases p
      cases q
      cases hw₁
      cases hw₂
      exact Relation.ReflTransGen.refl
    | cons byte w ih =>
      obtain ⟨t₁, ht₁, hw₁⟩ := Option.bind_eq_some_iff.1 hw₁
      obtain ⟨t₂, ht₂, hw₂⟩ := Option.bind_eq_some_iff.1 hw₂
      exact Relation.ReflTransGen.head (mem_getReachablePairs.2 ⟨byte, t₁, t₂, ht₁, ht₂, rfl⟩)
        (ih hw₁ hw₂)

end DfaStatePair

/-! ## The intersection -/

namespace Dfa

/-- The body of the loop before the reachable pairs are added. -/
def insertSchemaTypes (dfa dfaIn : Dfa) {address1 address2 : Nat ↪ Nat}
    (schemaTypes : OrderedSet Nat) (pair : DfaStatePair address1 address2) : OrderedSet Nat :=
  if pair.isAccepting dfa dfaIn then schemaTypes.insertAll (pair.getMatchingVariableIds dfa)
  else schemaTypes

/-- The variables of `dfa` that match a string which `dfaIn` accepts, if the
loop ends after at most `fuel` pairs. -/
def getIntersect (dfa dfaIn : Dfa) (address1 address2 : Nat ↪ Nat) (fuel : Nat) :
    Option (OrderedSet Nat) :=
  explore (DfaStatePair.getReachablePairs dfa dfaIn) (insertSchemaTypes dfa dfaIn)
    (⟨dfa.getRoot, dfaIn.getRoot⟩ : DfaStatePair address1 address2) OrderedSet.empty fuel

/-- The root is a state, and transitions lead to states. -/
structure WellFormed (dfa : Dfa) : Prop where
  root : dfa.getRoot < dfa.states.length
  dest : ∀ p byte t, dfa.transition? p byte = some t → t.destState < dfa.states.length

theorem wellFormed_of_generate {nfa : Nfa} {regMapOrder : List (Nat × Nat) → List (Nat × Nat)}
    {fuel : Nat} {dfa : Dfa} (h : generate nfa regMapOrder fuel = some dfa) :
    dfa.WellFormed := by
  obtain ⟨g, hg, rfl⟩ := Option.map_eq_some_iff.1 h
  obtain ⟨S₀, -, hinv, -⟩ := determinize_spec hg
  refine ⟨hinv.lt_length hinv.root, fun p byte t ht => ?_⟩
  obtain ⟨S, hS⟩ := hinv.setOfState p (Determinization.transition?_lt ht)
  obtain ⟨-, -, -, -, ⟨R, hR, -⟩, -⟩ := hinv.transitions S p byte t hS ht
  exact hinv.lt_length hR

/-- The variables of the state that the string leads to. -/
def MatchesType (dfa : Dfa) (w : List UInt8) (t : Nat) : Prop :=
  ∃ p s, dfa.run dfa.getRoot w = some p ∧ dfa.state? p = some s ∧ t ∈ s.matchingVariableIds

/-- The string leads to an accepting state. -/
def Accepts (dfa : Dfa) (w : List UInt8) : Prop :=
  ∃ p s, dfa.run dfa.getRoot w = some p ∧ dfa.state? p = some s ∧ s.matchingVariableIds ≠ []

variable {dfa dfaIn : Dfa} {address1 address2 : Nat ↪ Nat}

theorem mem_insertSchemaTypes {schemaTypes : OrderedSet Nat}
    {pair : DfaStatePair address1 address2} {t : Nat} :
    t ∈ insertSchemaTypes dfa dfaIn schemaTypes pair ↔ t ∈ schemaTypes ∨
      ((∃ s, dfa.state? pair.state1 = some s ∧ t ∈ s.matchingVariableIds) ∧
        ∃ s, dfaIn.state? pair.state2 = some s ∧ s.matchingVariableIds ≠ []) := by
  have haccepting : ∀ s : DfaState, s.isAccepting = true ↔ s.matchingVariableIds ≠ [] :=
    fun s => decide_eq_true_iff
  unfold insertSchemaTypes DfaStatePair.isAccepting DfaStatePair.getMatchingVariableIds
  cases h₁ : dfa.state? pair.state1 with
  | none => simp
  | some s₁ =>
    cases h₂ : dfaIn.state? pair.state2 with
    | none => simp
    | some s₂ =>
      simp only [Option.any_some, Bool.and_eq_true, haccepting, Option.elim_some,
        Option.some.injEq, exists_eq_left']
      split
      · rename_i hboth
        rw [OrderedSet.mem_insertAll]
        tauto
      · rename_i hboth
        have hmem : t ∈ s₁.matchingVariableIds → s₁.matchingVariableIds ≠ [] :=
          List.ne_nil_of_mem
        tauto

theorem mem_foldl_insertSchemaTypes {order : List (DfaStatePair address1 address2)}
    {schemaTypes : OrderedSet Nat} {t : Nat} :
    t ∈ order.foldl (insertSchemaTypes dfa dfaIn) schemaTypes ↔ t ∈ schemaTypes ∨
      ∃ pair ∈ order, (∃ s, dfa.state? pair.state1 = some s ∧ t ∈ s.matchingVariableIds) ∧
        ∃ s, dfaIn.state? pair.state2 = some s ∧ s.matchingVariableIds ≠ [] := by
  induction order generalizing schemaTypes with
  | nil => simp
  | cons pair order ih =>
    rw [List.foldl_cons, ih, mem_insertSchemaTypes, List.exists_mem_cons_iff, or_assoc]

/-- The pairs of states of the two DFAs. -/
def statePairs (dfa dfaIn : Dfa) (address1 address2 : Nat ↪ Nat) :
    Finset (DfaStatePair address1 address2) :=
  (Finset.range dfa.states.length ×ˢ Finset.range dfaIn.states.length).image
    fun pair => ⟨pair.1, pair.2⟩

theorem mem_statePairs {pair : DfaStatePair address1 address2} :
    pair ∈ statePairs dfa dfaIn address1 address2 ↔
      pair.state1 < dfa.states.length ∧ pair.state2 < dfaIn.states.length := by
  unfold statePairs
  rw [Finset.mem_image]
  constructor
  · rintro ⟨⟨p, q⟩, hpq, rfl⟩
    simpa using hpq
  · intro h
    exact ⟨(pair.state1, pair.state2), by simpa using h, rfl⟩

theorem card_statePairs_le (dfa dfaIn : Dfa) (address1 address2 : Nat ↪ Nat) :
    (statePairs dfa dfaIn address1 address2).card ≤
      dfa.states.length * dfaIn.states.length := by
  refine Finset.card_image_le.trans ?_
  rw [Finset.card_product, Finset.card_range, Finset.card_range]

theorem exists_getIntersect (hdfa : dfa.WellFormed) (hdfaIn : dfaIn.WellFormed) {fuel : Nat}
    (hfuel : dfa.states.length * dfaIn.states.length ≤ fuel) :
    ∃ schemaTypes, dfa.getIntersect dfaIn address1 address2 fuel = some schemaTypes := by
  have hclosed : ∀ pair ∈ statePairs dfa dfaIn address1 address2,
      ∀ next ∈ pair.getReachablePairs dfa dfaIn,
        next ∈ statePairs dfa dfaIn address1 address2 := by
    intro pair _ next hnext
    obtain ⟨byte, t₁, t₂, ht₁, ht₂, rfl⟩ := DfaStatePair.mem_getReachablePairs.1 hnext
    exact mem_statePairs.2 ⟨hdfa.dest _ _ _ ht₁, hdfaIn.dest _ _ _ ht₂⟩
  exact exists_explore (mem_statePairs.2 ⟨hdfa.root, hdfaIn.root⟩) hclosed
    ((card_statePairs_le dfa dfaIn address1 address2).trans hfuel)

theorem mem_getIntersect_iff {fuel : Nat} {schemaTypes : OrderedSet Nat}
    (h : dfa.getIntersect dfaIn address1 address2 fuel = some schemaTypes) (t : Nat) :
    t ∈ schemaTypes ↔ ∃ w, dfa.MatchesType w t ∧ dfaIn.Accepts w := by
  obtain ⟨order, -, horder, rfl⟩ := explore_spec h
  rw [mem_foldl_insertSchemaTypes]
  constructor
  · rintro (hempty | ⟨pair, hpair, ⟨s₁, hs₁, ht⟩, s₂, hs₂, hne⟩)
    · simp at hempty
    · obtain ⟨w, hw₁, hw₂⟩ := DfaStatePair.reachable_iff.1 ((horder pair).1 hpair)
      exact ⟨w, ⟨_, s₁, hw₁, hs₁, ht⟩, _, s₂, hw₂, hs₂, hne⟩
  · rintro ⟨w, ⟨p, s₁, hw₁, hs₁, ht⟩, q, s₂, hw₂, hs₂, hne⟩
    refine Or.inr ⟨⟨p, q⟩, (horder _).2 ?_, ⟨s₁, hs₁, ht⟩, s₂, hs₂, hne⟩
    exact DfaStatePair.reachable_iff.2 ⟨w, hw₁, hw₂⟩

/-- The loop ends, and finds exactly the variables that match a string which
the other DFA accepts. -/
theorem getIntersect_spec (hdfa : dfa.WellFormed) (hdfaIn : dfaIn.WellFormed)
    (address1 address2 : Nat ↪ Nat) :
    ∃ schemaTypes : OrderedSet Nat,
      (∀ fuel, dfa.states.length * dfaIn.states.length ≤ fuel →
        dfa.getIntersect dfaIn address1 address2 fuel = some schemaTypes) ∧
      ∀ t, t ∈ schemaTypes ↔ ∃ w, dfa.MatchesType w t ∧ dfaIn.Accepts w := by
  obtain ⟨schemaTypes, hsome⟩ :=
    @exists_getIntersect dfa dfaIn address1 address2 hdfa hdfaIn _ le_rfl
  have hmem := mem_getIntersect_iff hsome
  refine ⟨schemaTypes, fun fuel hfuel => ?_, hmem⟩
  obtain ⟨schemaTypes', hsome'⟩ :=
    @exists_getIntersect dfa dfaIn address1 address2 hdfa hdfaIn _ hfuel
  refine hsome'.trans (congrArg some (OrderedSet.ext fun t => ?_))
  rw [mem_getIntersect_iff hsome' t, hmem t]

/-- The DFAs of the rules `a` and `a+`. -/
theorem getIntersect_spec_literal :
    ∃ dfa dfaIn, generate (Nfa.ofRules [⟨3, .literal [] 97⟩]) id 8 = some dfa ∧
      generate (Nfa.ofRules [⟨0, .multiplication [] (.literal [] 97) 1 0⟩]) id 8 = some dfaIn ∧
      ∃ schemaTypes : OrderedSet Nat,
        (∀ fuel, dfa.states.length * dfaIn.states.length ≤ fuel →
          dfa.getIntersect dfaIn (.refl Nat) (.refl Nat) fuel = some schemaTypes) ∧
        ∀ t, t ∈ schemaTypes ↔ ∃ w, dfa.MatchesType w t ∧ dfaIn.Accepts w := by
  have hfirst : (generate (Nfa.ofRules [⟨3, .literal [] 97⟩]) id 8).isSome := by decide +kernel
  have hsecond : (generate (Nfa.ofRules
      [⟨0, .multiplication [] (.literal [] 97) 1 0⟩]) id 8).isSome := by decide +kernel
  obtain ⟨dfa, hdfa⟩ := Option.isSome_iff_exists.1 hfirst
  obtain ⟨dfaIn, hdfaIn⟩ := Option.isSome_iff_exists.1 hsecond
  exact ⟨dfa, dfaIn, hdfa, hdfaIn, getIntersect_spec (wellFormed_of_generate hdfa)
    (wellFormed_of_generate hdfaIn) (.refl Nat) (.refl Nat)⟩

end Dfa

end LogSurgeon
