import LogSurgeon.FiniteAutomata.Nfa

/-!
# What every operation on the NFA keeps

`add_to_nfa` of a tree is made of five operations: the root is set, a state gets
a spontaneous transition or an interval, a state that is not accepting is
appended, and a capture gets its tags.  A reflexive and transitive relation
that holds across each of them (`KeptByOperations`) holds across the
construction of every tree (`KeptByOperations.addToNfa`).
-/

namespace LogSurgeon.Nfa

/-- The relation holds across each operation on an NFA. -/
structure KeptByOperations (R : Nfa → Nfa → Prop) : Prop where
  refl : ∀ nfa, R nfa nfa
  trans : ∀ {nfa nfa' nfa''}, R nfa nfa' → R nfa' nfa'' → R nfa nfa''
  setRoot : ∀ nfa root, R nfa (nfa.setRoot root)
  addSpontaneousTransition : ∀ nfa p tagOps destState,
    R nfa (nfa.modifyState p (·.addSpontaneousTransition tagOps destState))
  addInterval : ∀ nfa p interval destState,
    R nfa (nfa.modifyState p (·.addInterval interval destState))
  pushState : ∀ nfa transitions,
    R nfa (nfa.pushState fun id => { id := id, spontaneousTransitions := transitions }).1
  getOrCreateCaptureTagPair : ∀ nfa capture, R nfa (nfa.getOrCreateCaptureTagPair capture).1

namespace KeptByOperations

variable {R : Nfa → Nfa → Prop}

theorem newState (h : KeptByOperations R) (nfa : Nfa) : R nfa nfa.newState.1 :=
  h.pushState nfa []

theorem captureTags (h : KeptByOperations R) (nfa : Nfa) (captures : List Capture) :
    R nfa (nfa.captureTags captures).1 := by
  induction captures generalizing nfa with
  | nil => exact h.refl nfa
  | cons capture captures ih => exact h.trans (h.getOrCreateCaptureTagPair nfa capture) (ih _)

theorem newStateFromNegativeCaptures (h : KeptByOperations R) (nfa : Nfa)
    (captures : List Capture) (destState : Nat) :
    R nfa (nfa.newStateFromNegativeCaptures captures destState).1 :=
  h.trans (h.captureTags nfa captures) (h.pushState _ _)

theorem newStartAndEndStates (h : KeptByOperations R) (nfa : Nfa) (capture : Capture)
    (destState : Nat) :
    R nfa (nfa.newStartAndEndStatesFromPositiveCapture capture destState).1 := by
  have htags := h.getOrCreateCaptureTagPair nfa capture
  unfold newStartAndEndStatesFromPositiveCapture
  generalize nfa.getOrCreateCaptureTagPair capture = tagged at htags
  obtain ⟨nfa', pair⟩ := tagged
  have hstart := h.trans htags (h.newState nfa')
  have hset := h.addSpontaneousTransition nfa'.newState.1 nfa'.newState.1.root
    [⟨pair.1, .set⟩] nfa'.newState.2
  exact h.trans (h.trans hstart hset) (h.pushState _ _)

/-- The relation holds across `add`. -/
def Keeps (R : Nfa → Nfa → Prop) (add : Nfa → Nat → Nfa) : Prop := ∀ nfa e, R nfa (add nfa e)

variable {add : Nfa → Nat → Nfa}

theorem addWithNegativeCaptures (h : KeptByOperations R) (neg : List Capture)
    (hadd : Keeps R add) : Keeps R (addWithNegativeCaptures neg add) := by
  intro nfa e
  unfold Nfa.addWithNegativeCaptures
  split
  · exact hadd nfa e
  · exact h.trans (h.newStateFromNegativeCaptures nfa neg e) (hadd _ _)

theorem addCopies (h : KeptByOperations R) (hadd : Keeps R add) (count : Nat) (nfa : Nfa) :
    R nfa (addCopies add count nfa) := by
  induction count generalizing nfa with
  | zero => exact h.refl nfa
  | succ count ih =>
    have hcopy := h.trans (h.newState nfa) (hadd nfa.newState.1 nfa.newState.2)
    exact h.trans hcopy (h.trans (h.setRoot _ _) (ih _))

theorem addOptionalCopies (h : KeptByOperations R) (hadd : Keeps R add) (e count : Nat)
    (nfa : Nfa) : R nfa (addOptionalCopies add e count nfa) := by
  induction count generalizing nfa with
  | zero => exact h.refl nfa
  | succ count ih =>
    have hcopy := h.trans (h.newState (add nfa e)) (hadd _ (add nfa e).newState.2)
    exact h.trans (h.trans (hadd nfa e) hcopy) (h.trans (h.setRoot _ _) (ih _))

theorem addMultiplication (h : KeptByOperations R) (hadd : Keeps R add) (min max : Nat) :
    Keeps R (addMultiplication add min max) := by
  intro nfa e
  have hmin : R nfa (if min = 0 then nfa.addRootSpontaneousTransition e
      else add (Nfa.addCopies add (min - 1) nfa) e) := by
    split
    · exact h.addSpontaneousTransition nfa _ _ _
    · exact h.trans (h.addCopies hadd _ nfa) (hadd _ e)
  refine h.trans hmin ?_
  unfold Nfa.addMultiplication
  generalize (if min = 0 then nfa.addRootSpontaneousTransition e
    else add (Nfa.addCopies add (min - 1) nfa) e) = nfa'
  refine h.trans ?_ (h.setRoot _ _)
  by_cases hmax : max = 0
  · rw [if_pos hmax]
    exact h.trans (h.setRoot nfa' e) (hadd _ e)
  · rw [if_neg hmax]
    by_cases hlt : min < max
    · rw [if_pos hlt]
      refine h.trans ?_ (h.trans (h.addOptionalCopies hadd e _ _) (hadd _ e))
      split
      · exact h.refl nfa'
      · exact h.addCopies hadd 1 nfa'
    · rw [if_neg hlt]
      exact h.refl nfa'

/-- The relation holds across the construction of a tree. -/
theorem addToNfa (h : KeptByOperations R) (r : RegexAST) : Keeps R r.addToNfa := by
  induction r with
  | empty neg => exact fun nfa e => h.addSpontaneousTransition nfa _ _ _
  | literal neg c => exact fun nfa e => h.addInterval nfa _ _ _
  | group neg g =>
    intro nfa e
    rw [RegexAST.addToNfa]
    generalize g.transitionRanges = ranges
    induction ranges generalizing nfa with
    | nil => exact h.refl nfa
    | cons range ranges ih => exact h.trans (h.addInterval nfa _ _ _) (ih _)
  | or neg l r ihl ihr =>
    intro nfa e
    exact h.trans (h.addWithNegativeCaptures _ ihl nfa e) (h.addWithNegativeCaptures _ ihr _ e)
  | cat neg l r ihl ihr =>
    intro nfa e
    have hleft := h.trans (h.newState nfa)
      (h.addWithNegativeCaptures l.negativeCaptures ihl nfa.newState.1 nfa.newState.2)
    have hright := h.addWithNegativeCaptures r.negativeCaptures ihr
      ((Nfa.addWithNegativeCaptures l.negativeCaptures l.addToNfa nfa.newState.1
        nfa.newState.2).setRoot nfa.newState.2) e
    exact h.trans (h.trans hleft (h.setRoot _ _)) (h.trans hright (h.setRoot _ nfa.root))
  | multiplication neg r min max ih =>
    exact h.addMultiplication (h.addWithNegativeCaptures _ ih) min max
  | capture neg r c ih =>
    intro nfa e
    refine h.trans (h.newStartAndEndStates nfa c e) ?_
    exact h.trans (h.setRoot _ _) (h.trans (h.addWithNegativeCaptures _ ih _ _) (h.setRoot _ _))

end KeptByOperations

/-! ## Tags -/

/-- The tags of the captures are among the tags in use. -/
def TagsInUse (nfa : Nfa) : Prop :=
  ∀ capture pair, nfa.captureToTagIdPair.lookup capture = some pair →
    pair.1 < nfa.numTags ∧ pair.2 < nfa.numTags

theorem lookup_append_singleton_cases {capture capture' : Capture} {pair pair' : Nat × Nat}
    {pairs : List (Capture × (Nat × Nat))}
    (h : (pairs ++ [(capture', pair')]).lookup capture = some pair) :
    pairs.lookup capture = some pair ∨ pair = pair' := by
  rw [List.lookup_append] at h
  cases hold : pairs.lookup capture with
  | some old =>
    rw [hold] at h
    exact Or.inl h
  | none =>
    rw [hold, Option.none_or] at h
    by_cases hsame : capture = capture'
    · simp [hsame] at h
      exact Or.inr h.symm
    · have hdiffers : (capture == capture') = false := beq_eq_false_iff_ne.2 hsame
      simp [List.lookup_cons, hdiffers] at h

theorem keptByOperations_tagsInUse :
    KeptByOperations fun nfa nfa' => nfa.TagsInUse → nfa'.TagsInUse where
  refl _ h := h
  trans h h' := fun hin => h' (h hin)
  setRoot _ _ h := h
  addSpontaneousTransition _ _ _ _ h := h
  addInterval _ _ _ _ h := h
  pushState _ _ h := h
  getOrCreateCaptureTagPair nfa capture h := by
    unfold getOrCreateCaptureTagPair
    split
    · exact h
    · intro capture' pair hpair
      show pair.1 < nfa.numTags + 2 ∧ pair.2 < nfa.numTags + 2
      rcases lookup_append_singleton_cases hpair with hold | hnew
      · have hlt := h capture' pair hold
        omega
      · subst hnew
        simp

/-- The tags of the captures of the rules are tags of the NFA. -/
theorem tagsInUse_ofRules (rules : List LexicalRule) : (ofRules rules).TagsInUse := by
  have hfold : ∀ nfa : Nfa, nfa.TagsInUse →
      (rules.foldl (fun nfa rule => rule.addToNfa nfa) nfa).TagsInUse := by
    induction rules with
    | nil => exact fun nfa h => h
    | cons rule rules ih =>
      intro nfa h
      have hkept := keptByOperations_tagsInUse
      have haccepting : (nfa.newAcceptingState rule.variableId).1.TagsInUse := h
      exact ih _ (hkept.addWithNegativeCaptures rule.regex.negativeCaptures
        (hkept.addToNfa rule.regex) _ _ haccepting)
  apply hfold
  intro capture pair hpair
  cases hpair

end LogSurgeon.Nfa
