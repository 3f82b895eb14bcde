import LogSurgeon.FiniteAutomata.Closure
import LogSurgeon.FiniteAutomata.NfaOperations
import LogSurgeon.Lib.LabelledCycles

/-!
# The tag graph of the NFA

`tagEdges` keeps the spontaneous transitions only, and labels each with its tag
operations.  Its walks are the spontaneous paths
(`spontaneousPath_iff_walk`), so the closure of a configuration is finite
exactly when no cycle of spontaneous transitions with an operation can be
reached from its state (`finite_spontaneousPaths_iff`).

The other lemmas say what each operation of the NFA does to this graph.
-/

namespace LogSurgeon

open Lib Lib.LangGraph

/-- The operations of the spontaneous transitions to `q`. -/
def NfaState.tagWords (s : NfaState) (q : Nat) : Language TagOperation :=
  {ops | ∃ t ∈ s.spontaneousTransitions, t.destState = q ∧ t.tagOps = ops}

@[simp] theorem NfaState.mem_tagWords {s : NfaState} {q : Nat} {ops : List TagOperation} :
    ops ∈ s.tagWords q ↔ ∃ t ∈ s.spontaneousTransitions, t.destState = q ∧ t.tagOps = ops :=
  Iff.rfl

namespace Nfa

/-- The spontaneous transitions, labelled with their operations. -/
def tagEdges (nfa : Nfa) : LangGraph Nat TagOperation :=
  fun p q => {ops | ∃ s, nfa.state? p = some s ∧ ops ∈ s.tagWords q}

/-! ## Spontaneous paths -/

theorem SpontaneousPath.walk {nfa : Nfa} {p q : Nat} {ops : List TagOperation}
    (h : nfa.SpontaneousPath p ops q) : Walk nfa.tagEdges p ops q := by
  induction h with
  | refl => exact Walk.nil p
  | snoc hpath hs ht ih => exact ih.snoc ⟨_, hs, _, ht, rfl, rfl⟩

theorem SpontaneousPath.append_walk {nfa : Nfa} {p q r : Nat} {ops ops' : List TagOperation}
    (h : nfa.SpontaneousPath p ops q) (hwalk : Walk nfa.tagEdges q ops' r) :
    nfa.SpontaneousPath p (ops ++ ops') r := by
  induction hwalk generalizing ops with
  | nil => simpa using h
  | cons hedge _ ih =>
    obtain ⟨s, hs, t, ht, rfl, rfl⟩ := hedge
    rw [← List.append_assoc]
    exact ih (h.snoc hs ht)

theorem spontaneousPath_iff_walk {nfa : Nfa} {p q : Nat} {ops : List TagOperation} :
    nfa.SpontaneousPath p ops q ↔ Walk nfa.tagEdges p ops q :=
  ⟨SpontaneousPath.walk, fun h => (SpontaneousPath.refl p).append_walk h⟩

theorem finitelyLabelled_tagEdges (nfa : Nfa) : FinitelyLabelled nfa.tagEdges := by
  let transitions := nfa.states.zipIdx.flatMap fun e =>
    e.1.spontaneousTransitions.map fun t => (e.2, t.tagOps, t.destState)
  refine (List.finite_toSet transitions).subset ?_
  intro e he
  obtain ⟨p, ops, q⟩ := e
  obtain ⟨s, hs, t, ht, rfl, rfl⟩ := he
  refine List.mem_flatMap.2 ⟨(s, p), ?_, List.mem_map.2 ⟨t, ht, rfl⟩⟩
  exact List.mem_zipIdx_iff_getElem?.2 hs

/-- From `p`, spontaneous transitions lead to a cycle of such transitions that
performs an operation. -/
def ReachesTaggedCycle (nfa : Nfa) (p : Nat) : Prop := LabelledCycle nfa.tagEdges p

theorem finite_spontaneousPaths_iff (nfa : Nfa) (p : Nat) :
    {e : Nat × List TagOperation | nfa.SpontaneousPath p e.2 e.1}.Finite ↔
      ¬ nfa.ReachesTaggedCycle p := by
  simp only [spontaneousPath_iff_walk]
  exact finite_walks_iff nfa.finitelyLabelled_tagEdges

/-! ## Operations -/

@[simp] theorem tagEdges_setRoot (nfa : Nfa) (r : Nat) : (nfa.setRoot r).tagEdges = nfa.tagEdges :=
  rfl

theorem tagEdges_congr {nfa nfa' : Nfa} (h : nfa.states = nfa'.states) :
    nfa.tagEdges = nfa'.tagEdges := by
  unfold tagEdges state?
  rw [h]

/-- A new state brings its own transitions. -/
theorem mem_tagEdges_pushState {nfa : Nfa} {transitions : List NfaSpontaneousTransition}
    {p q : Nat} {ops : List TagOperation} :
    ops ∈ (nfa.pushState fun id =>
        { id := id, spontaneousTransitions := transitions }).1.tagEdges p q ↔
      ops ∈ nfa.tagEdges p q ∨
        p = nfa.states.length ∧ ∃ t ∈ transitions, t.destState = q ∧ t.tagOps = ops := by
  show (∃ s, (nfa.pushState _).1.state? p = some s ∧ _) ↔ (∃ s, nfa.state? p = some s ∧ _) ∨ _
  rw [state?_pushState]
  by_cases hp : p = nfa.states.length
  · subst hp
    have hnone : nfa.state? nfa.states.length = none := by simp [state?]
    simp [hnone]
  · simp [hp]

@[simp] theorem tagEdges_newState (nfa : Nfa) : nfa.newState.1.tagEdges = nfa.tagEdges := by
  funext p q
  ext ops
  rw [newState, mem_tagEdges_pushState]
  simp

theorem tagEdges_newAcceptingState (nfa : Nfa) (id : Nat) :
    (nfa.newAcceptingState id).1.tagEdges = nfa.tagEdges := by
  funext p q
  ext ops
  show (∃ s, (nfa.pushState _).1.state? p = some s ∧ _) ↔ ∃ s, nfa.state? p = some s ∧ _
  rw [state?_pushState]
  by_cases hp : p = nfa.states.length
  · subst hp
    have hnone : nfa.state? nfa.states.length = none := by simp [state?]
    simp [hnone]
  · simp [hp]

/-- A new state with one transition brings one edge. -/
theorem tagEdges_pushState_spontaneous (nfa : Nfa) (tagOps : List TagOperation) (dest : Nat) :
    (nfa.pushState fun id =>
        { id := id, spontaneousTransitions := [⟨tagOps, dest⟩] }).1.tagEdges =
      nfa.tagEdges ⊔ edge nfa.states.length dest {tagOps} := by
  funext p q
  ext ops
  rw [mem_tagEdges_pushState, mem_sup, mem_edge]
  simp only [List.mem_singleton, exists_eq_left]
  exact or_congr_right (and_congr_right fun _ => and_congr eq_comm eq_comm)

theorem tagEdges_addSpontaneousTransition {nfa : Nfa} {p : Nat} (hp : p < nfa.states.length)
    (tagOps : List TagOperation) (dest : Nat) :
    (nfa.modifyState p (·.addSpontaneousTransition tagOps dest)).tagEdges =
      nfa.tagEdges ⊔ edge p dest {tagOps} := by
  funext x y
  ext ops
  rw [mem_sup, mem_edge]
  show (∃ s, (nfa.modifyState p _).state? x = some s ∧ _) ↔ (∃ s, _) ∨ _
  rw [state?_modifyState]
  by_cases hx : p = x
  · subst hx
    obtain ⟨s, hs⟩ : ∃ s, nfa.state? p = some s := ⟨_, List.getElem?_eq_getElem hp⟩
    simp only [hs, if_pos, Option.map_some, Option.some.injEq, exists_eq_left', true_and]
    show (∃ t ∈ s.spontaneousTransitions ++ [⟨tagOps, dest⟩], _) ↔ (∃ t ∈ _, _) ∨ _
    simp only [List.mem_append, List.mem_singleton, or_and_right, exists_or, exists_eq_left]
    exact or_congr_right (and_congr eq_comm eq_comm)
  · simp [hx, Ne.symm hx]

theorem tagEdges_addInterval (nfa : Nfa) (p : Nat) (interval : Range) (dest : Nat) :
    (nfa.modifyState p (·.addInterval interval dest)).tagEdges = nfa.tagEdges := by
  funext x y
  ext ops
  show (∃ s, (nfa.modifyState p _).state? x = some s ∧ _) ↔ ∃ s, _
  rw [state?_modifyState]
  by_cases hx : p = x
  · subst hx
    cases nfa.state? p with
    | none => simp
    | some s => simp [NfaState.addInterval]
  · simp [hx]

/-- The state for the negative captures performs an operation on its way out. -/
theorem tagEdges_newStateFromNegativeCaptures (nfa : Nfa) {cs : List Capture} (hcs : cs ≠ [])
    (dest : Nat) :
    ∃ ops ≠ [], (nfa.newStateFromNegativeCaptures cs dest).1.tagEdges =
      nfa.tagEdges ⊔ edge nfa.states.length dest {ops} := by
  have hstates := states_captureTags nfa cs
  refine ⟨(nfa.captureTags cs).2.map (⟨·, .negate⟩), ?_, ?_⟩
  · cases cs with
    | nil => exact absurd rfl hcs
    | cons c cs => exact List.cons_ne_nil _ _
  · show ((nfa.captureTags cs).1.pushState _).1.tagEdges = _
    rw [tagEdges_pushState_spontaneous, hstates, tagEdges_congr hstates]

/-- A capture performs an operation on its way in, and one on its way out. -/
theorem tagEdges_newStartAndEndStates {nfa : Nfa} (hroot : nfa.root < nfa.states.length)
    (c : Capture) (dest : Nat) :
    ∃ ops ≠ [], ∃ ops' ≠ [],
      (nfa.newStartAndEndStatesFromPositiveCapture c dest).1.tagEdges =
        nfa.tagEdges ⊔ edge nfa.root nfa.states.length {ops} ⊔
          edge (nfa.states.length + 1) dest {ops'} := by
  have hstates := states_getOrCreateCaptureTagPair nfa c
  have hrootTag := root_getOrCreateCaptureTagPair nfa c
  unfold newStartAndEndStatesFromPositiveCapture
  generalize nfa.getOrCreateCaptureTagPair c = tagged at hstates hrootTag
  obtain ⟨nfa', pair⟩ := tagged
  simp only at hstates hrootTag
  refine ⟨[⟨pair.1, .set⟩], List.cons_ne_nil _ _, [⟨pair.2, .set⟩], List.cons_ne_nil _ _, ?_⟩
  have hlt : nfa'.root < nfa'.newState.1.states.length := by
    rw [length_newState, hrootTag, hstates]
    omega
  simp only [tagEdges_pushState_spontaneous, length_modifyState, length_newState, root_newState,
    newState_snd, tagEdges_addSpontaneousTransition hlt, tagEdges_newState]
  rw [hrootTag, hstates, tagEdges_congr hstates]

/-! ### Growth -/

/-- `nfa'` has the states and the spontaneous transitions of `nfa`. -/
def Grows (nfa nfa' : Nfa) : Prop :=
  nfa.states.length ≤ nfa'.states.length ∧
    ∀ p q ops, ops ∈ nfa.tagEdges p q → ops ∈ nfa'.tagEdges p q

theorem Grows.walk {nfa nfa' : Nfa} (h : Grows nfa nfa') {p q : Nat} {ops : List TagOperation}
    (hwalk : Walk nfa.tagEdges p ops q) : Walk nfa'.tagEdges p ops q := hwalk.mono h.2

theorem Grows.labelledCycle {nfa nfa' : Nfa} (h : Grows nfa nfa') {p : Nat}
    (hcycle : LabelledCycle nfa.tagEdges p) : LabelledCycle nfa'.tagEdges p := by
  obtain ⟨q, u, w, hpq, hw, hcycle⟩ := hcycle
  exact ⟨q, u, w, h.walk hpq, hw, h.walk hcycle⟩

theorem keptByOperations_grows : KeptByOperations Grows where
  refl _ := ⟨Nat.le_refl _, fun _ _ _ h => h⟩
  trans h h' := ⟨h.1.trans h'.1, fun p q ops hops => h'.2 p q ops (h.2 p q ops hops)⟩
  setRoot _ _ := ⟨Nat.le_refl _, fun _ _ _ h => h⟩
  addSpontaneousTransition nfa p tagOps dest := by
    refine ⟨(length_modifyState nfa p _).ge, fun x y ops h => ?_⟩
    obtain ⟨s, hs, h⟩ := h
    have hp : x < nfa.states.length := (List.getElem?_eq_some_iff.1 hs).1
    by_cases hx : p = x
    · subst hx
      rw [tagEdges_addSpontaneousTransition hp]
      exact Or.inl ⟨s, hs, h⟩
    · refine ⟨s, ?_, h⟩
      rw [state?_modifyState, if_neg hx, hs]
  addInterval nfa p interval dest := by
    refine ⟨(length_modifyState nfa p _).ge, fun x y ops h => ?_⟩
    rw [tagEdges_addInterval]
    exact h
  pushState nfa transitions := by
    refine ⟨?_, fun p q ops h => mem_tagEdges_pushState.2 (Or.inl h)⟩
    rw [length_pushState]
    omega
  getOrCreateCaptureTagPair nfa capture := by
    have hstates := states_getOrCreateCaptureTagPair nfa capture
    refine ⟨by rw [hstates], fun p q ops h => ?_⟩
    rw [tagEdges_congr hstates]
    exact h

end Nfa

end LogSurgeon
