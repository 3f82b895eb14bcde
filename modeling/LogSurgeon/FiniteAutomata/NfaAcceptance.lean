import LogSurgeon.FiniteAutomata.NfaOperations

/-!
# The accepting states of the NFA

The construction of a tree adds states, none of them accepting, and never
changes whether a state is accepting or which variable it matches.  So the
accepting states are those that `LexicalRule.addToNfa` makes, one for each rule
and in the order of the rules.
-/

namespace LogSurgeon

/-- The variable that the state matches, if it is accepting. -/
def NfaState.label (s : NfaState) : Option Nat :=
  if s.accepting then some s.matchingVariableId else none

namespace Nfa

/-- The labels of the states in their order. -/
def labels (nfa : Nfa) : List (Option Nat) := nfa.states.map NfaState.label

@[simp] theorem length_labels (nfa : Nfa) : nfa.labels.length = nfa.states.length := by
  simp [labels]

/-- `nfa'` has the states of `nfa` with their labels, and other states that are
not accepting. -/
def AddsStates (nfa nfa' : Nfa) : Prop :=
  ∃ k, nfa'.labels = nfa.labels ++ List.replicate k none

theorem AddsStates.refl (nfa : Nfa) : AddsStates nfa nfa := ⟨0, by simp⟩

theorem AddsStates.of_eq {nfa nfa' : Nfa} (h : nfa'.labels = nfa.labels) :
    AddsStates nfa nfa' := ⟨0, by simp [h]⟩

theorem AddsStates.trans {nfa nfa' nfa'' : Nfa} (h : AddsStates nfa nfa')
    (h' : AddsStates nfa' nfa'') : AddsStates nfa nfa'' := by
  obtain ⟨k, hk⟩ := h
  obtain ⟨k', hk'⟩ := h'
  exact ⟨k + k', by rw [hk', hk, List.append_assoc, List.replicate_add]⟩

/-! ## Operations -/

theorem addsStates_pushState (nfa : Nfa) (make : Nat → NfaState)
    (h : ∀ id, (make id).accepting = false) : AddsStates nfa (nfa.pushState make).1 := by
  refine ⟨1, ?_⟩
  simp [labels, pushState, NfaState.label, h]

theorem addsStates_modifyState (nfa : Nfa) (p : Nat) {f : NfaState → NfaState}
    (h : ∀ s, (f s).label = s.label) : AddsStates nfa (nfa.modifyState p f) := by
  refine AddsStates.of_eq (List.ext_getElem? fun i => ?_)
  unfold labels modifyState
  rw [List.getElem?_map, List.getElem?_map, List.getElem?_modify]
  by_cases hp : p = i
  · cases nfa.states[i]? <;> simp [hp, h]
  · cases nfa.states[i]? <;> simp [hp]

/-- No operation adds an accepting state. -/
theorem keptByOperations_addsStates : KeptByOperations AddsStates where
  refl := AddsStates.refl
  trans := AddsStates.trans
  setRoot _ _ := AddsStates.of_eq rfl
  addSpontaneousTransition nfa p _ _ := addsStates_modifyState nfa p fun _ => rfl
  addInterval nfa p _ _ := addsStates_modifyState nfa p fun _ => rfl
  pushState nfa _ := addsStates_pushState nfa _ fun _ => rfl
  getOrCreateCaptureTagPair nfa capture := by
    refine AddsStates.of_eq ?_
    unfold getOrCreateCaptureTagPair
    split <;> rfl

/-! ## Rules -/

theorem ofRules_append_singleton (rules : List LexicalRule) (rule : LexicalRule) :
    ofRules (rules ++ [rule]) = rule.addToNfa (ofRules rules) := by
  unfold ofRules
  rw [List.foldl_append, List.foldl_cons, List.foldl_nil]

/-- A rule appends its accepting state and states that are not accepting. -/
theorem labels_addToNfa (rule : LexicalRule) (nfa : Nfa) :
    ∃ k, (rule.addToNfa nfa).labels =
      nfa.labels ++ some rule.variableId :: List.replicate k none := by
  have hkept := keptByOperations_addsStates
  obtain ⟨k, hk⟩ := hkept.addWithNegativeCaptures rule.regex.negativeCaptures
    (hkept.addToNfa rule.regex) (nfa.newAcceptingState rule.variableId).1 nfa.states.length
  refine ⟨k, hk.trans ?_⟩
  simp [labels, newAcceptingState, pushState, NfaState.label]

theorem acceptingStateOf_append_left (rules : List LexicalRule) (rule : LexicalRule)
    {i : Nat} (hi : i ≤ rules.length) :
    acceptingStateOf (rules ++ [rule]) i = acceptingStateOf rules i := by
  rw [acceptingStateOf, List.take_append_of_le_length hi, acceptingStateOf]

theorem acceptingStateOf_length (rules : List LexicalRule) :
    acceptingStateOf rules rules.length = (ofRules rules).states.length := by
  rw [acceptingStateOf, List.take_length]

theorem length_ofRules_append_singleton (rules : List LexicalRule) (rule : LexicalRule) :
    (ofRules rules).states.length < (ofRules (rules ++ [rule])).states.length := by
  obtain ⟨k, hk⟩ := labels_addToNfa rule (ofRules rules)
  rw [ofRules_append_singleton, ← length_labels (rule.addToNfa _), hk,
    List.length_append, length_labels, List.length_cons]
  omega

theorem acceptingStateOf_le_length (rules : List LexicalRule) {i : Nat}
    (hi : i ≤ rules.length) : acceptingStateOf rules i ≤ (ofRules rules).states.length := by
  induction rules using List.reverseRecOn with
  | nil =>
    rw [acceptingStateOf, List.take_nil]
  | append_singleton rules rule ih =>
    rw [List.length_append, List.length_singleton] at hi
    rcases Nat.lt_or_ge i (rules.length + 1) with hlt | hge
    · have hgrow := length_ofRules_append_singleton rules rule
      have hle := ih (Nat.le_of_lt_succ hlt)
      rw [acceptingStateOf_append_left rules rule (Nat.le_of_lt_succ hlt)]
      omega
    · have hlast : i = (rules ++ [rule]).length := by
        rw [List.length_append, List.length_singleton]
        omega
      rw [hlast, acceptingStateOf_length]

/-- The accepting states come in the order of the rules. -/
theorem acceptingStateOf_lt_of_lt (rules : List LexicalRule) {i j : Nat} (hij : i < j)
    (hj : j ≤ rules.length) : acceptingStateOf rules i < acceptingStateOf rules j := by
  induction rules using List.reverseRecOn with
  | nil =>
    rw [List.length_nil] at hj
    omega
  | append_singleton rules rule ih =>
    rw [List.length_append, List.length_singleton] at hj
    rw [acceptingStateOf_append_left rules rule (by omega)]
    rcases Nat.lt_or_ge j (rules.length + 1) with hlt | hge
    · rw [acceptingStateOf_append_left rules rule (by omega)]
      exact ih (by omega)
    · have hlast : j = (rules ++ [rule]).length := by
        rw [List.length_append, List.length_singleton]
        omega
      rw [hlast, acceptingStateOf_length]
      exact (acceptingStateOf_le_length rules (by omega)).trans_lt
        (length_ofRules_append_singleton rules rule)

/-- The accepting states are those of the rules, each with its variable. -/
theorem label_eq_some_iff {rules : List LexicalRule} {p id : Nat} :
    (ofRules rules).labels[p]? = some (some id) ↔
      ∃ i, ∃ hi : i < rules.length, p = acceptingStateOf rules i ∧
        id = rules[i].variableId := by
  induction rules using List.reverseRecOn with
  | nil =>
    have hinitial : (ofRules []).labels = [none] := rfl
    rw [hinitial]
    constructor
    · intro h
      rcases p with _ | p <;> simp at h
    · rintro ⟨i, hi, _⟩
      exact absurd hi (Nat.not_lt_zero i)
  | append_singleton rules rule ih =>
    obtain ⟨k, hk⟩ := labels_addToNfa rule (ofRules rules)
    rw [ofRules_append_singleton, hk]
    have hlen := length_labels (ofRules rules)
    have hlast : (∃ i, ∃ hi : i < (rules ++ [rule]).length,
        p = acceptingStateOf (rules ++ [rule]) i ∧ id = (rules ++ [rule])[i].variableId) ↔
        (∃ i, ∃ hi : i < rules.length, p = acceptingStateOf rules i ∧
          id = rules[i].variableId) ∨
        p = (ofRules rules).states.length ∧ id = rule.variableId := by
      constructor
      · rintro ⟨i, hi, hp, hid⟩
        rw [List.length_append, List.length_singleton] at hi
        rw [acceptingStateOf_append_left rules rule (by omega)] at hp
        rcases Nat.lt_or_ge i rules.length with hlt | hge
        · left
          refine ⟨i, hlt, hp, ?_⟩
          rw [hid, List.getElem_append_left hlt]
        · right
          obtain rfl : i = rules.length := by omega
          rw [acceptingStateOf_length] at hp
          exact ⟨hp, by rw [hid]; simp⟩
      · rintro (⟨i, hi, hp, hid⟩ | ⟨hp, hid⟩)
        · refine ⟨i, by rw [List.length_append]; omega, ?_, ?_⟩
          · rw [acceptingStateOf_append_left rules rule hi.le, hp]
          · rw [List.getElem_append_left hi, hid]
        · refine ⟨rules.length, by simp, ?_, by simp [hid]⟩
          rw [acceptingStateOf_append_left rules rule (Nat.le_refl _),
            acceptingStateOf_length, hp]
    rw [hlast, ← ih]
    rcases Nat.lt_trichotomy p (ofRules rules).states.length with hlt | rfl | hgt
    · rw [List.getElem?_append_left (by omega)]
      simp [Nat.ne_of_lt hlt]
    · rw [List.getElem?_append_right (by omega), hlen, Nat.sub_self]
      have hnone : (ofRules rules).labels[(ofRules rules).states.length]? = none := by
        rw [List.getElem?_eq_none_iff]
        omega
      rw [hnone]
      simp [eq_comm]
    · have hnone : (ofRules rules).labels[p]? = none := by
        rw [List.getElem?_eq_none_iff]
        omega
      rw [List.getElem?_append_right (by omega), hlen, hnone]
      have hpos : p - (ofRules rules).states.length =
          (p - (ofRules rules).states.length - 1) + 1 := by omega
      rw [hpos, List.getElem?_cons_succ]
      constructor
      · intro h
        have hmem := List.mem_of_getElem? h
        rw [List.mem_replicate] at hmem
        cases hmem.2
      · rintro (h | ⟨h, _⟩)
        · cases h
        · omega

end Nfa

end LogSurgeon
