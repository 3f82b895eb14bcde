import LogSurgeon.FiniteAutomata.NfaAcceptance
import LogSurgeon.FiniteAutomata.NfaGraph

/-!
# The tags of the captures

`get_or_create_capture_tag_pair` gives every capture two tags that no other
capture has (`distinctTags_ofRules`), and a capture that has its tags keeps them
(`Extends.lookup`).

* `Assigns` says of one capture that its tags are the given ones once it has
  any.
* `captureTags_spec` says which tags a list of captures has.
* `hasTags_ofRules`: every capture of a rule has tags.
-/

namespace LogSurgeon

namespace Nfa

/-- The tag is one of the two. -/
def OfPair (pair : Nat × Nat) (t : Nat) : Prop := t = pair.1 ∨ t = pair.2

/-! ## What an operation keeps -/

/-- `nfa'` has the states of `nfa` and the tags of its captures. -/
structure Extends (nfa nfa' : Nfa) : Prop where
  length_le : nfa.states.length ≤ nfa'.states.length
  tags : nfa.captureToTagIdPair <+: nfa'.captureToTagIdPair

theorem Extends.trans {nfa nfa' nfa'' : Nfa} (h : Extends nfa nfa') (h' : Extends nfa' nfa'') :
    Extends nfa nfa'' :=
  ⟨h.length_le.trans h'.length_le, h.tags.trans h'.tags⟩

theorem keptByOperations_extends : KeptByOperations Extends where
  refl _ := ⟨Nat.le_refl _, List.prefix_refl _⟩
  trans := Extends.trans
  setRoot _ _ := ⟨Nat.le_refl _, List.prefix_refl _⟩
  addSpontaneousTransition nfa p _ _ := ⟨(nfa.length_modifyState p _).ge, List.prefix_refl _⟩
  addInterval nfa p _ _ := ⟨(nfa.length_modifyState p _).ge, List.prefix_refl _⟩
  pushState nfa _ := by
    refine ⟨?_, List.prefix_refl _⟩
    rw [length_pushState]
    exact Nat.le_succ _
  getOrCreateCaptureTagPair nfa capture := by
    unfold getOrCreateCaptureTagPair
    split
    · exact ⟨Nat.le_refl _, List.prefix_refl _⟩
    · exact ⟨Nat.le_refl _, List.prefix_append _ _⟩

theorem Extends.lookup {nfa nfa' : Nfa} (h : Extends nfa nfa') {capture : Capture}
    {pair : Nat × Nat} (hpair : nfa.captureToTagIdPair.lookup capture = some pair) :
    nfa'.captureToTagIdPair.lookup capture = some pair := by
  obtain ⟨rest, hrest⟩ := h.tags
  rw [← hrest, List.lookup_append, hpair, Option.some_or]

/-- What every operation keeps holds of the NFA of the rules. -/
theorem KeptByOperations.ofRules {P : Nfa → Prop}
    (h : KeptByOperations fun nfa nfa' => P nfa → P nfa')
    (haccepting : ∀ nfa id, P nfa → P (nfa.newAcceptingState id).1) (hinitial : P initial)
    (rules : List LexicalRule) : P (Nfa.ofRules rules) := by
  induction rules using List.reverseRecOn with
  | nil => exact hinitial
  | append_singleton rules rule ih =>
    rw [ofRules_append_singleton]
    exact h.addWithNegativeCaptures rule.regex.negativeCaptures (h.addToNfa rule.regex) _ _
      (haccepting _ rule.variableId ih)

/-! ## Distinct tags -/

/-- The two tags of a capture are different, and no other capture has one of
them. -/
structure DistinctTags (nfa : Nfa) : Prop where
  inUse : nfa.TagsInUse
  ne : ∀ capture pair, nfa.captureToTagIdPair.lookup capture = some pair → pair.1 ≠ pair.2
  disjoint : ∀ capture capture' pair pair', capture ≠ capture' →
    nfa.captureToTagIdPair.lookup capture = some pair →
    nfa.captureToTagIdPair.lookup capture' = some pair' → ∀ t, OfPair pair t → ¬ OfPair pair' t

theorem lookup_append_singleton {capture capture' : Capture} {pair' : Nat × Nat}
    {pairs : List (Capture × (Nat × Nat))} (hnone : pairs.lookup capture' = none) :
    (pairs ++ [(capture', pair')]).lookup capture =
      if capture = capture' then some pair' else pairs.lookup capture := by
  rw [List.lookup_append]
  by_cases hsame : capture = capture'
  · rw [if_pos hsame, hsame, hnone]
    simp
  · have hdiffers : (capture == capture') = false := beq_eq_false_iff_ne.2 hsame
    rw [if_neg hsame]
    simp [List.lookup_cons, hdiffers]

theorem distinctTags_getOrCreateCaptureTagPair {nfa : Nfa} (h : nfa.DistinctTags)
    (capture : Capture) : (nfa.getOrCreateCaptureTagPair capture).1.DistinctTags := by
  have hinUse := keptByOperations_tagsInUse.getOrCreateCaptureTagPair nfa capture h.inUse
  unfold getOrCreateCaptureTagPair at hinUse ⊢
  split at hinUse
  · exact h
  · rename_i hnone
    refine ⟨hinUse, fun d pair hpair => ?_, fun d d' pair pair' hne hpair hpair' => ?_⟩
    · dsimp only at hpair
      rw [lookup_append_singleton hnone] at hpair
      split at hpair
      · cases hpair
        exact Nat.ne_of_lt (Nat.lt_succ_self _)
      · exact h.ne d pair hpair
    · dsimp only at hpair hpair'
      rw [lookup_append_singleton hnone] at hpair hpair'
      intro t ht ht'
      split at hpair
      · split at hpair'
        · rename_i hd hd'
          exact hne (hd.trans hd'.symm)
        · cases hpair
          obtain ⟨hlt, hlt'⟩ := h.inUse d' pair' hpair'
          unfold OfPair at ht ht'
          simp only at ht
          omega
      · split at hpair'
        · cases hpair'
          obtain ⟨hlt, hlt'⟩ := h.inUse d pair hpair
          unfold OfPair at ht ht'
          simp only at ht'
          omega
        · exact h.disjoint d d' pair pair' hne hpair hpair' t ht ht'

theorem keptByOperations_distinctTags :
    KeptByOperations fun nfa nfa' => nfa.DistinctTags → nfa'.DistinctTags where
  refl _ h := h
  trans h h' := fun hdistinct => h' (h hdistinct)
  setRoot _ _ h := ⟨h.inUse, h.ne, h.disjoint⟩
  addSpontaneousTransition _ _ _ _ h := ⟨h.inUse, h.ne, h.disjoint⟩
  addInterval _ _ _ _ h := ⟨h.inUse, h.ne, h.disjoint⟩
  pushState _ _ h := ⟨h.inUse, h.ne, h.disjoint⟩
  getOrCreateCaptureTagPair _ capture h := distinctTags_getOrCreateCaptureTagPair h capture

theorem distinctTags_ofRules (rules : List LexicalRule) : (ofRules rules).DistinctTags := by
  apply keptByOperations_distinctTags.ofRules
  · exact fun nfa id h => ⟨h.inUse, h.ne, h.disjoint⟩
  · refine ⟨fun capture pair h => ?_, fun capture pair h => ?_,
      fun capture capture' pair pair' _ h => ?_⟩ <;> cases h

/-! ## The tags of one capture -/

/-- The capture has no tags or the given ones, which are different, and no other
capture has one of these. -/
structure Assigns (nfa : Nfa) (capture : Capture) (pair : Nat × Nat) : Prop where
  ne : pair.1 ≠ pair.2
  own : ∀ pair', nfa.captureToTagIdPair.lookup capture = some pair' → pair' = pair
  others : ∀ capture' ≠ capture, ∀ pair', nfa.captureToTagIdPair.lookup capture' = some pair' →
    ∀ t, OfPair pair' t → ¬ OfPair pair t

theorem DistinctTags.assigns {nfa : Nfa} (h : nfa.DistinctTags) {capture : Capture}
    {pair : Nat × Nat} (hpair : nfa.captureToTagIdPair.lookup capture = some pair) :
    nfa.Assigns capture pair := by
  refine ⟨h.ne capture pair hpair, fun pair' hpair' => ?_, fun capture' hne pair' hpair' => ?_⟩
  · rw [hpair] at hpair'
    exact (Option.some.inj hpair').symm
  · exact h.disjoint capture' capture pair' pair hne hpair' hpair

/-- What a later NFA assigns, an earlier one assigns. -/
theorem Assigns.of_extends {nfa nfa' : Nfa} {capture : Capture} {pair : Nat × Nat}
    (h : nfa'.Assigns capture pair) (hextends : Extends nfa nfa') : nfa.Assigns capture pair :=
  ⟨h.ne, fun pair' hpair' => h.own pair' (hextends.lookup hpair'),
    fun capture' hne pair' hpair' => h.others capture' hne pair' (hextends.lookup hpair')⟩

/-! ## Reading the tags -/

theorem lookup_getOrCreateCaptureTagPair (nfa : Nfa) (capture : Capture) :
    (nfa.getOrCreateCaptureTagPair capture).1.captureToTagIdPair.lookup capture =
      some (nfa.getOrCreateCaptureTagPair capture).2 := by
  unfold getOrCreateCaptureTagPair
  split
  · assumption
  · rename_i hnone
    dsimp only
    rw [lookup_append_singleton hnone, if_pos rfl]

/-- The tags are those of the captures. -/
theorem captureTags_spec (nfa : Nfa) (captures : List Capture) :
    (∀ capture ∈ captures, ∃ pair,
      (nfa.captureTags captures).1.captureToTagIdPair.lookup capture = some pair ∧
        pair.1 ∈ (nfa.captureTags captures).2 ∧ pair.2 ∈ (nfa.captureTags captures).2) ∧
    ∀ t ∈ (nfa.captureTags captures).2, ∃ capture ∈ captures, ∃ pair,
      (nfa.captureTags captures).1.captureToTagIdPair.lookup capture = some pair ∧
        OfPair pair t := by
  induction captures generalizing nfa with
  | nil => exact ⟨fun _ h => (by cases h), fun _ h => (by cases h)⟩
  | cons capture captures ih =>
    obtain ⟨hof, hto⟩ := ih (nfa.getOrCreateCaptureTagPair capture).1
    have hlookup := (keptByOperations_extends.captureTags
      (nfa.getOrCreateCaptureTagPair capture).1 captures).lookup
      (lookup_getOrCreateCaptureTagPair nfa capture)
    have heq : nfa.captureTags (capture :: captures) =
        (((nfa.getOrCreateCaptureTagPair capture).1.captureTags captures).1,
          (nfa.getOrCreateCaptureTagPair capture).2.1 ::
            (nfa.getOrCreateCaptureTagPair capture).2.2 ::
              ((nfa.getOrCreateCaptureTagPair capture).1.captureTags captures).2) := rfl
    rw [heq]
    refine ⟨fun d hd => ?_, fun t ht => ?_⟩
    · rcases List.mem_cons.1 hd with rfl | hd
      · exact ⟨_, hlookup, by simp, by simp⟩
      · obtain ⟨pair, hpair, hfst, hsnd⟩ := hof d hd
        exact ⟨pair, hpair, by simp [hfst], by simp [hsnd]⟩
    · rcases List.mem_cons.1 ht with rfl | ht
      · exact ⟨capture, List.mem_cons_self, _, hlookup, Or.inl rfl⟩
      · rcases List.mem_cons.1 ht with rfl | ht
        · exact ⟨capture, List.mem_cons_self, _, hlookup, Or.inr rfl⟩
        · obtain ⟨d, hd, pair, hpair, hofPair⟩ := hto t ht
          exact ⟨d, List.mem_cons_of_mem _ hd, pair, hpair, hofPair⟩

/-! ## Every capture has tags -/

def HasTags (nfa : Nfa) (capture : Capture) : Prop :=
  ∃ pair, nfa.captureToTagIdPair.lookup capture = some pair

theorem HasTags.of_extends {nfa nfa' : Nfa} {capture : Capture} (h : nfa.HasTags capture)
    (hextends : Extends nfa nfa') : nfa'.HasTags capture := by
  obtain ⟨pair, hpair⟩ := h
  exact ⟨pair, hextends.lookup hpair⟩

/-- The capture has tags behind `add`. -/
def CreatesTags (capture : Capture) (add : Nfa → Nat → Nfa) : Prop :=
  ∀ nfa e, (add nfa e).HasTags capture

variable {capture : Capture} {add : Nfa → Nat → Nfa}

theorem CreatesTags.addWithNegativeCaptures (h : CreatesTags capture add) (neg : List Capture) :
    CreatesTags capture (addWithNegativeCaptures neg add) := by
  intro nfa e
  unfold Nfa.addWithNegativeCaptures
  split
  · exact h nfa e
  · exact h _ _

/-- A repetition adds its operand, whatever the bounds are. -/
theorem CreatesTags.addMultiplication (h : CreatesTags capture add) (min max : Nat) :
    CreatesTags capture (addMultiplication add min max) := by
  intro nfa e
  unfold Nfa.addMultiplication
  dsimp only
  by_cases hmax : max = 0
  · rw [if_pos hmax]
    exact h _ _
  · rw [if_neg hmax]
    by_cases hlt : min < max
    · rw [if_pos hlt]
      exact h _ _
    · rw [if_neg hlt, if_neg (by omega)]
      exact h _ _

theorem createsTags_addToNfa {r : RegexAST} (hcapture : capture ∈ r.subtreePositiveCaptures) :
    CreatesTags capture r.addToNfa := by
  have hkept := keptByOperations_extends
  induction r with
  | empty | literal | group => cases hcapture
  | or neg l r ihl ihr =>
    intro nfa e
    rcases List.mem_append.1 hcapture with hl | hr
    · exact ((ihl hl).addWithNegativeCaptures l.negativeCaptures nfa e).of_extends
        (hkept.addWithNegativeCaptures r.negativeCaptures (hkept.addToNfa r) _ e)
    · exact (ihr hr).addWithNegativeCaptures r.negativeCaptures _ e
  | cat neg l r ihl ihr =>
    intro nfa e
    rcases List.mem_append.1 hcapture with hl | hr
    · have hleft := (ihl hl).addWithNegativeCaptures l.negativeCaptures nfa.newState.1
        nfa.newState.2
      have hright := hkept.trans (hkept.setRoot (Nfa.addWithNegativeCaptures l.negativeCaptures
          l.addToNfa nfa.newState.1 nfa.newState.2) nfa.newState.2)
        (hkept.addWithNegativeCaptures r.negativeCaptures (hkept.addToNfa r) _ e)
      exact hleft.of_extends (hright.trans (hkept.setRoot _ nfa.root))
    · exact (ihr hr).addWithNegativeCaptures r.negativeCaptures _ e
  | multiplication neg r min max ih =>
    exact ((ih hcapture).addWithNegativeCaptures r.negativeCaptures).addMultiplication min max
  | capture neg r d ih =>
    intro nfa e
    rcases List.mem_append.1 hcapture with hr | hd
    · exact (ih hr).addWithNegativeCaptures r.negativeCaptures _ _
    · obtain rfl := List.mem_singleton.1 hd
      have hnew : (nfa.newStartAndEndStatesFromPositiveCapture capture e).1.HasTags capture :=
        ⟨_, lookup_getOrCreateCaptureTagPair nfa capture⟩
      have hbody := hkept.addWithNegativeCaptures r.negativeCaptures (hkept.addToNfa r)
        ((nfa.newStartAndEndStatesFromPositiveCapture capture e).1.setRoot
          (nfa.newStartAndEndStatesFromPositiveCapture capture e).2.1)
        (nfa.newStartAndEndStatesFromPositiveCapture capture e).2.2
      have hends := ((hkept.setRoot _ _).trans hbody).trans (hkept.setRoot _
        (nfa.newStartAndEndStatesFromPositiveCapture capture e).1.root)
      exact hnew.of_extends hends

/-- The NFA of more rules extends that of the first ones. -/
theorem extends_addToNfa (rule : LexicalRule) (nfa : Nfa) : Extends nfa (rule.addToNfa nfa) := by
  have haccepting : Extends nfa (nfa.newAcceptingState rule.variableId).1 := by
    refine ⟨?_, List.prefix_refl _⟩
    rw [length_newAcceptingState]
    exact Nat.le_succ _
  exact haccepting.trans (keptByOperations_extends.addWithNegativeCaptures
    rule.regex.negativeCaptures (keptByOperations_extends.addToNfa rule.regex) _ _)

/-- Every capture of a rule has tags. -/
theorem hasTags_ofRules {rules : List LexicalRule} {rule : LexicalRule} (hrule : rule ∈ rules)
    (hcapture : capture ∈ rule.getCaptures) : (ofRules rules).HasTags capture := by
  induction rules using List.reverseRecOn with
  | nil => cases hrule
  | append_singleton rules rule' ih =>
    rw [ofRules_append_singleton]
    rcases List.mem_append.1 hrule with hold | hnew
    · exact (ih hold).of_extends (extends_addToNfa rule' _)
    · obtain rfl := List.mem_singleton.1 hnew
      exact (createsTags_addToNfa hcapture).addWithNegativeCaptures _ _ _

end Nfa

end LogSurgeon
