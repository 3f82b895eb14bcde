import LogSurgeon.FiniteAutomata.NfaLanguage

/-!
# The root of the NFA

The construction of a tree changes the root and the end state that it is given
and leaves every other state as it is.  A tree that has to read a byte first
adds only byte transitions to the root, so the root of such rules is never
accepting and has no spontaneous transition.

* `Leaves p` is the frame of a step of the construction.
* `ReadsFirst` says which bytes a tree reads first.
-/

namespace LogSurgeon

namespace Nfa

/-! ## The frame -/

/-- The state `p` exists and is not the root. -/
structure Apart (p : Nat) (nfa : Nfa) : Prop where
  lt : p < nfa.states.length
  ne : p ≠ nfa.root

/-- `nfa'` has the state `p` of `nfa`, still apart from the root. -/
structure Stays (p : Nat) (nfa nfa' : Nfa) : Prop where
  apart : Apart p nfa'
  state : nfa'.state? p = nfa.state? p

theorem Stays.refl {p : Nat} {nfa : Nfa} (h : Apart p nfa) : Stays p nfa nfa := ⟨h, rfl⟩

theorem Stays.trans {p : Nat} {nfa nfa' nfa'' : Nfa} (h : Stays p nfa nfa')
    (h' : Stays p nfa' nfa'') : Stays p nfa nfa'' :=
  ⟨h'.apart, h'.state.trans h.state⟩

theorem stays_setRoot {p : Nat} {nfa : Nfa} (h : Apart p nfa) {root : Nat} (hroot : p ≠ root) :
    Stays p nfa (nfa.setRoot root) :=
  ⟨⟨h.lt, hroot⟩, rfl⟩

theorem stays_pushState {p : Nat} {nfa : Nfa} (h : Apart p nfa) (make : Nat → NfaState) :
    Stays p nfa (nfa.pushState make).1 := by
  refine ⟨⟨?_, h.ne⟩, ?_⟩
  · rw [length_pushState]
    exact Nat.lt_succ_of_lt h.lt
  · rw [state?_pushState, if_neg h.lt.ne]

theorem stays_modifyState {p : Nat} {nfa : Nfa} (h : Apart p nfa) (f : NfaState → NfaState) :
    Stays p nfa (nfa.modifyState nfa.root f) := by
  refine ⟨⟨?_, h.ne⟩, ?_⟩
  · unfold modifyState
    rw [List.length_modify]
    exact h.lt
  · show (nfa.states.modify nfa.root f)[p]? = nfa.states[p]?
    rw [List.getElem?_modify]
    simp [h.ne.symm]

theorem stays_of_states {p : Nat} {nfa nfa' : Nfa} (h : Apart p nfa)
    (hstates : nfa'.states = nfa.states) (hroot : nfa'.root = nfa.root) : Stays p nfa nfa' := by
  refine ⟨⟨?_, ?_⟩, ?_⟩
  · rw [hstates]
    exact h.lt
  · rw [hroot]
    exact h.ne
  · unfold state?
    rw [hstates]

/-- The step leaves the state `p` as it is, unless it is told about it. -/
def Leaves (p : Nat) (add : Nfa → Nat → Nfa) : Prop :=
  ∀ nfa e, Apart p nfa → p ≠ e → Stays p nfa (add nfa e)

variable {p : Nat} {add : Nfa → Nat → Nfa}

theorem leaves_addWithNegativeCaptures (h : Leaves p add) (neg : List Capture) :
    Leaves p (addWithNegativeCaptures neg add) := by
  intro nfa e hp he
  unfold addWithNegativeCaptures
  split
  · exact h nfa e hp he
  · have htags : Stays p nfa (nfa.captureTags neg).1 :=
      stays_of_states hp (states_captureTags nfa neg) (root_captureTags nfa neg)
    have hnew : Stays p nfa (nfa.newStateFromNegativeCaptures neg e).1 :=
      htags.trans (stays_pushState htags.apart _)
    have hend : p ≠ (nfa.newStateFromNegativeCaptures neg e).2 := by
      rw [(newStateFromNegativeCaptures_spec nfa neg e).1]
      exact hp.lt.ne
    exact hnew.trans (h _ _ hnew.apart hend)

/-- A copy ends in a new state, which becomes the root. -/
theorem stays_copy (h : Leaves p add) {nfa : Nfa} (hp : Apart p nfa) :
    Stays p nfa ((add nfa.newState.1 nfa.newState.2).setRoot nfa.newState.2) := by
  have hnew : Stays p nfa nfa.newState.1 := stays_pushState hp _
  have hadd := hnew.trans (h nfa.newState.1 nfa.newState.2 hnew.apart hp.lt.ne)
  exact hadd.trans (stays_setRoot hadd.apart hp.lt.ne)

theorem stays_addCopies (h : Leaves p add) (count : Nat) {nfa : Nfa} (hp : Apart p nfa) :
    Stays p nfa (addCopies add count nfa) := by
  induction count generalizing nfa with
  | zero => exact Stays.refl hp
  | succ count ih =>
    have hcopy := stays_copy h hp
    exact hcopy.trans (ih hcopy.apart)

theorem stays_addOptionalCopies (h : Leaves p add) {e : Nat} (he : p ≠ e) (count : Nat)
    {nfa : Nfa} (hp : Apart p nfa) : Stays p nfa (addOptionalCopies add e count nfa) := by
  induction count generalizing nfa with
  | zero => exact Stays.refl hp
  | succ count ih =>
    have hadd := h nfa e hp he
    have hcopy := hadd.trans (stays_copy h hadd.apart)
    exact hcopy.trans (ih hcopy.apart)

theorem leaves_addMultiplication (h : Leaves p add) (min max : Nat) :
    Leaves p (addMultiplication add min max) := by
  intro nfa e hp he
  have hmin : Stays p nfa (if min = 0 then nfa.addRootSpontaneousTransition e
      else add (addCopies add (min - 1) nfa) e) := by
    split
    · exact stays_modifyState hp _
    · have hcopies := stays_addCopies h (min - 1) hp
      exact hcopies.trans (h _ e hcopies.apart he)
  unfold addMultiplication
  generalize (if min = 0 then nfa.addRootSpontaneousTransition e
    else add (addCopies add (min - 1) nfa) e) = nfa' at hmin
  suffices hmax : Stays p nfa' (if max = 0 then add (nfa'.setRoot e) e
      else if min < max then
        add (addOptionalCopies add e (max - (min + 1))
          (if min = 0 then nfa' else addCopies add 1 nfa')) e
      else nfa') by
    have hall := hmin.trans hmax
    exact hall.trans (stays_setRoot hall.apart hp.ne)
  by_cases hzero : max = 0
  · rw [if_pos hzero]
    have hroot := stays_setRoot hmin.apart he
    exact hroot.trans (h _ e hroot.apart he)
  · rw [if_neg hzero]
    by_cases hlt : min < max
    · rw [if_pos hlt]
      have hcopy : Stays p nfa' (if min = 0 then nfa' else addCopies add 1 nfa') := by
        split
        · exact Stays.refl hmin.apart
        · exact stays_addCopies h 1 hmin.apart
      have hoptional := hcopy.trans
        (stays_addOptionalCopies h he (max - (min + 1)) hcopy.apart)
      exact hoptional.trans (h _ e hoptional.apart he)
    · rw [if_neg hlt]
      exact Stays.refl hmin.apart

theorem stays_newStartAndEndStates {nfa : Nfa} (c : Capture) {e : Nat} (hp : Apart p nfa) :
    Stays p nfa (nfa.newStartAndEndStatesFromPositiveCapture c e).1 ∧
      p ≠ (nfa.newStartAndEndStatesFromPositiveCapture c e).2.1 ∧
      p ≠ (nfa.newStartAndEndStatesFromPositiveCapture c e).2.2 := by
  have htags : Stays p nfa (nfa.getOrCreateCaptureTagPair c).1 :=
    stays_of_states hp (states_getOrCreateCaptureTagPair nfa c)
      (root_getOrCreateCaptureTagPair nfa c)
  unfold newStartAndEndStatesFromPositiveCapture
  generalize nfa.getOrCreateCaptureTagPair c = tagged at htags
  obtain ⟨nfa', pair⟩ := tagged
  have hstart : Stays p nfa nfa'.newState.1 :=
    htags.trans (stays_pushState htags.apart fun id => { id := id })
  have hedge := hstart.trans (stays_modifyState hstart.apart
    (·.addSpontaneousTransition [⟨pair.1, .set⟩] nfa'.newState.2))
  refine ⟨hedge.trans (stays_pushState hedge.apart fun id =>
    { id := id, spontaneousTransitions := [⟨[⟨pair.2, .set⟩], e⟩] }), ?_, ?_⟩
  · exact htags.apart.lt.ne
  · exact hedge.apart.lt.ne

end Nfa

/-- The construction of a tree leaves the other states as they are. -/
theorem RegexAST.leaves_addToNfa {p : Nat} (r : RegexAST) : Nfa.Leaves p r.addToNfa := by
  induction r with
  | empty => exact fun nfa e hp _ => Nfa.stays_modifyState hp _
  | literal => exact fun nfa e hp _ => Nfa.stays_modifyState hp _
  | group neg g =>
    intro nfa e hp he
    rw [addToNfa]
    generalize g.transitionRanges = ranges
    induction ranges generalizing nfa with
    | nil => exact Nfa.Stays.refl hp
    | cons range ranges ih =>
      have hrange : Nfa.Stays p nfa (nfa.addRootInterval range e) := Nfa.stays_modifyState hp _
      exact hrange.trans (ih _ hrange.apart)
  | or neg l r ihl ihr =>
    intro nfa e hp he
    have hleft := Nfa.leaves_addWithNegativeCaptures ihl l.negativeCaptures nfa e hp he
    exact hleft.trans
      (Nfa.leaves_addWithNegativeCaptures ihr r.negativeCaptures _ e hleft.apart he)
  | cat neg l r ihl ihr =>
    intro nfa e hp he
    have hleft := Nfa.stays_copy
      (Nfa.leaves_addWithNegativeCaptures ihl l.negativeCaptures) hp
    have hright := hleft.trans
      (Nfa.leaves_addWithNegativeCaptures ihr r.negativeCaptures _ e hleft.apart he)
    exact hright.trans (Nfa.stays_setRoot hright.apart hp.ne)
  | multiplication neg r min max ih =>
    exact Nfa.leaves_addMultiplication
      (Nfa.leaves_addWithNegativeCaptures ih r.negativeCaptures) min max
  | capture neg r c ih =>
    intro nfa e hp he
    obtain ⟨hnew, hstart, hend⟩ := Nfa.stays_newStartAndEndStates c hp
    have hroot := hnew.trans (Nfa.stays_setRoot hnew.apart hstart)
    have hadd := hroot.trans
      (Nfa.leaves_addWithNegativeCaptures ih r.negativeCaptures _ _ hroot.apart hend)
    exact hadd.trans (Nfa.stays_setRoot hadd.apart hnew.apart.ne)

/-! ## The bytes that are read first -/

namespace NfaState

/-- `s'` is `s` with byte transitions for the bytes of `P`. -/
structure Reads (P : Nat → Prop) (s s' : NfaState) : Prop where
  label : s'.label = s.label
  spontaneous : s'.spontaneousTransitions = s.spontaneousTransitions
  grows : s.byteTransitions <+: s'.byteTransitions
  bytes : ∀ b < cSizeOfByte,
    s'.getByteTransitions b ≠ [] ↔ s.getByteTransitions b ≠ [] ∨ P b

theorem Reads.refl (s : NfaState) : Reads (fun _ => False) s s where
  label := rfl
  spontaneous := rfl
  grows := List.prefix_refl _
  bytes b _ := by simp

theorem Reads.trans {P Q : Nat → Prop} {s s' s'' : NfaState} (h : Reads P s s')
    (h' : Reads Q s' s'') : Reads (fun b => P b ∨ Q b) s s'' where
  label := h'.label.trans h.label
  spontaneous := h'.spontaneous.trans h.spontaneous
  grows := h.grows.trans h'.grows
  bytes b hb := by rw [h'.bytes b hb, h.bytes b hb, or_assoc]

theorem Reads.congr {P Q : Nat → Prop} {s s' : NfaState} (h : Reads P s s')
    (hPQ : ∀ b < cSizeOfByte, P b ↔ Q b) : Reads Q s s' where
  label := h.label
  spontaneous := h.spontaneous
  grows := h.grows
  bytes b hb := by rw [h.bytes b hb, hPQ b hb]

theorem reads_addInterval (s : NfaState) (range : Range) (e : Nat) :
    Reads (fun b => range.1 ≤ b ∧ b ≤ range.2) s (s.addInterval range e) where
  label := rfl
  spontaneous := rfl
  grows := List.prefix_append _ _
  bytes b hb := by
    unfold getByteTransitions addInterval
    unfold cSizeOfByte at hb ⊢
    simp only [List.filter_append, List.map_append, ne_eq, List.append_eq_nil_iff,
      not_and_or, List.map_eq_nil_iff, List.filter_eq_nil_iff, List.mem_map, List.mem_range',
      not_forall]
    apply or_congr Iff.rfl
    constructor
    · intro h
      obtain ⟨⟨c, e'⟩, ⟨i, ⟨j, hj, rfl⟩, heq⟩, hc⟩ := h
      cases heq
      have hc : range.1 + 1 * j = b := by simpa using hc
      omega
    · intro h
      refine ⟨(b, e), ⟨b, ⟨b - range.1, by omega, by omega⟩, rfl⟩, by simp⟩

end NfaState

namespace Nfa

/-- `nfa'` is `nfa` with more states, and with byte transitions for the bytes of
`P` at the root. -/
structure RootReads (P : Nat → Prop) (nfa nfa' : Nfa) : Prop where
  root : nfa'.root = nfa.root
  state : ∀ s, nfa.state? nfa.root = some s →
    ∃ s', nfa'.state? nfa.root = some s' ∧ s.Reads P s'

theorem RootReads.refl (nfa : Nfa) : RootReads (fun _ => False) nfa nfa :=
  ⟨rfl, fun s hs => ⟨s, hs, NfaState.Reads.refl s⟩⟩

theorem RootReads.trans {P Q : Nat → Prop} {nfa nfa' nfa'' : Nfa} (h : RootReads P nfa nfa')
    (h' : RootReads Q nfa' nfa'') : RootReads (fun b => P b ∨ Q b) nfa nfa'' := by
  refine ⟨h'.root.trans h.root, fun s hs => ?_⟩
  obtain ⟨s', hs', hreads⟩ := h.state s hs
  rw [← h.root] at hs'
  obtain ⟨s'', hs'', hreads'⟩ := h'.state s' hs'
  rw [h.root] at hs''
  exact ⟨s'', hs'', hreads.trans hreads'⟩

theorem RootReads.congr {P Q : Nat → Prop} {nfa nfa' : Nfa} (h : RootReads P nfa nfa')
    (hPQ : ∀ b < cSizeOfByte, P b ↔ Q b) : RootReads Q nfa nfa' := by
  refine ⟨h.root, fun s hs => ?_⟩
  obtain ⟨s', hs', hreads⟩ := h.state s hs
  exact ⟨s', hs', hreads.congr hPQ⟩

theorem rootReads_addRootInterval (nfa : Nfa) (range : Range) (e : Nat) :
    RootReads (fun b => range.1 ≤ b ∧ b ≤ range.2) nfa (nfa.addRootInterval range e) := by
  refine ⟨rfl, fun s hs => ⟨s.addInterval range e, ?_, NfaState.reads_addInterval s range e⟩⟩
  show (nfa.modifyState nfa.root _).state? nfa.root = _
  rw [state?_modifyState, if_pos rfl, hs]
  rfl

theorem rootReads_pushState (nfa : Nfa) (make : Nat → NfaState) :
    RootReads (fun _ => False) nfa (nfa.pushState make).1 := by
  refine ⟨rfl, fun s hs => ⟨s, ?_, NfaState.Reads.refl s⟩⟩
  have hlt : nfa.root < nfa.states.length := (List.getElem?_eq_some_iff.1 hs).1
  rw [state?_pushState, if_neg hlt.ne, hs]

end Nfa

namespace RegexAST

/-- The tree reads one of the bytes of `P` first. -/
structure ReadsFirst (P : Nat → Prop) (r : RegexAST) : Prop where
  negative : r.negativeCaptures = []
  reads : ∀ nfa e, nfa.root ≠ e → Nfa.RootReads P nfa (r.addToNfa nfa e)

theorem ReadsFirst.congr {P Q : Nat → Prop} {r : RegexAST} (h : ReadsFirst P r)
    (hPQ : ∀ b < cSizeOfByte, P b ↔ Q b) : ReadsFirst Q r :=
  ⟨h.negative, fun nfa e he => (h.reads nfa e he).congr hPQ⟩

theorem readsFirst_mkLiteral (c : Nat) : ReadsFirst (· = c) (mkLiteral c) := by
  refine ⟨rfl, fun nfa e _ => ?_⟩
  refine (Nfa.rootReads_addRootInterval nfa (c, c) e).congr fun b _ => ?_
  constructor
  · intro hb
    exact Nat.le_antisymm hb.2 hb.1
  · intro hb
    exact ⟨hb.ge, hb.le⟩

theorem readsFirst_mkGroup (g : RegexASTGroup) :
    ReadsFirst (RegexASTGroup.Covers g.transitionRanges) (mkGroup g) := by
  refine ⟨rfl, fun nfa e he => ?_⟩
  show Nfa.RootReads _ nfa (g.transitionRanges.foldl _ nfa)
  generalize g.transitionRanges = ranges
  induction ranges generalizing nfa with
  | nil => exact (Nfa.RootReads.refl nfa).congr fun b _ => by simp
  | cons range ranges ih =>
    have hrange := Nfa.rootReads_addRootInterval nfa range e
    exact (hrange.trans (ih _ he)).congr fun b _ => by rw [RegexASTGroup.covers_cons]

theorem readsFirst_mkOr_literal (c d : Nat) :
    ReadsFirst (fun b => b = c ∨ b = d) (mkOr (mkLiteral c) (mkLiteral d)) :=
  ⟨rfl, fun nfa e he =>
    ((readsFirst_mkLiteral c).reads nfa e he).trans ((readsFirst_mkLiteral d).reads _ e he)⟩

/-- The rest of the tree starts at a new state. -/
theorem ReadsFirst.mkCat {P : Nat → Prop} {l : RegexAST} (h : ReadsFirst P l) (r : RegexAST) :
    ReadsFirst P (mkCat l r) := by
  refine ⟨rfl, fun nfa e he => ⟨rfl, fun s hs => ?_⟩⟩
  have hlt : nfa.root < nfa.states.length := (List.getElem?_eq_some_iff.1 hs).1
  have hnew := Nfa.rootReads_pushState nfa fun id => { id := id }
  have hleft := (hnew.trans (h.reads nfa.newState.1 nfa.newState.2 hlt.ne)).congr
    fun b _ => by rw [false_or]
  obtain ⟨s', hs', hreads⟩ := hleft.state s hs
  refine ⟨s', ?_, hreads⟩
  have hapart : Nfa.Apart nfa.root
      ((l.addToNfa nfa.newState.1 nfa.newState.2).setRoot nfa.newState.2) :=
    ⟨(List.getElem?_eq_some_iff.1 hs').1, hlt.ne⟩
  have hright := Nfa.leaves_addWithNegativeCaptures (leaves_addToNfa r) r.negativeCaptures _ e
    hapart he
  refine Eq.trans ?_ (hright.state.trans hs')
  show (Nfa.addWithNegativeCaptures r.negativeCaptures r.addToNfa
    ((Nfa.addWithNegativeCaptures l.negativeCaptures l.addToNfa nfa.newState.1
      nfa.newState.2).setRoot nfa.newState.2) e).state? nfa.root = _
  rw [h.negative]
  rfl

end RegexAST

/-! ## The rules -/

namespace Nfa

theorem rootReads_addToNfa {P : Nat → Prop} {rule : LexicalRule}
    (h : rule.regex.ReadsFirst P) {nfa : Nfa} (hroot : nfa.root < nfa.states.length) :
    RootReads P nfa (rule.addToNfa nfa) := by
  have hnew := rootReads_pushState nfa fun id =>
    { id := id, accepting := true, matchingVariableId := rule.variableId }
  have hadd := h.reads (nfa.newAcceptingState rule.variableId).1 nfa.states.length hroot.ne
  have hboth := (hnew.trans hadd).congr fun b _ => by rw [false_or]
  show RootReads P nfa (addWithNegativeCaptures rule.regex.negativeCaptures rule.regex.addToNfa
    (nfa.newAcceptingState rule.variableId).1 nfa.states.length)
  rw [h.negative]
  exact hboth

/-- The rules read their first bytes at the root. -/
theorem rootReads_foldl {P : LexicalRule → Nat → Prop} {rules : List LexicalRule}
    (h : ∀ rule ∈ rules, rule.regex.ReadsFirst (P rule)) {nfa : Nfa}
    (hroot : nfa.root < nfa.states.length) :
    RootReads (fun b => ∃ rule ∈ rules, P rule b) nfa
      (rules.foldl (fun nfa rule => rule.addToNfa nfa) nfa) := by
  induction rules generalizing nfa with
  | nil => exact (RootReads.refl nfa).congr fun b _ => by simp
  | cons rule rules ih =>
    have hrule := rootReads_addToNfa (h rule List.mem_cons_self) hroot
    have hroot' : (rule.addToNfa nfa).root < (rule.addToNfa nfa).states.length := by
      obtain ⟨k, hk⟩ := labels_addToNfa rule nfa
      have hlength := congrArg List.length hk
      rw [length_labels, List.length_append, length_labels] at hlength
      rw [hrule.root]
      omega
    have hrest := ih (fun rule' hrule' => h rule' (List.mem_cons_of_mem rule hrule')) hroot'
    exact (hrule.trans hrest).congr fun b _ => by simp

theorem root_ofRules (rules : List LexicalRule) : (ofRules rules).root = 0 := by
  induction rules using List.reverseRecOn with
  | nil => rfl
  | append_singleton rules rule ih =>
    rw [ofRules_append_singleton]
    exact (RegexAST.keepsRoot_addWithNegativeCaptures
      (RegexAST.keepsRoot_addToNfa rule.regex) _ _).trans ih

theorem root_lt_length_ofRules (rules : List LexicalRule) :
    (ofRules rules).root < (ofRules rules).states.length := by
  rw [root_ofRules]
  induction rules using List.reverseRecOn with
  | nil => exact Nat.zero_lt_one
  | append_singleton rules rule ih =>
    exact ih.trans (length_ofRules_append_singleton rules rule)

/-- The root of the rules is not accepting, has no spontaneous transition, and
reads the first bytes of the rules.  The first rule is the literal `c`, which
leads to the first accepting state. -/
theorem ofRules_root {P : LexicalRule → Nat → Prop} {rules : List LexicalRule} {c id : Nat}
    (hc : c < cSizeOfByte) (h : ∀ rule ∈ rules, rule.regex.ReadsFirst (P rule)) :
    ∃ s, (ofRules (⟨id, RegexAST.mkLiteral c⟩ :: rules)).state? 0 = some s ∧
      s.spontaneousTransitions = [] ∧ s.label = none ∧ 1 ∈ s.getByteTransitions c ∧
      ∀ b < cSizeOfByte, s.getByteTransitions b ≠ [] ↔ b = c ∨ ∃ rule ∈ rules, P rule b := by
  have hfirst := @rootReads_addToNfa (· = c) ⟨id, RegexAST.mkLiteral c⟩
    (RegexAST.readsFirst_mkLiteral c) initial Nat.one_pos
  obtain ⟨s, hs, hreads⟩ := hfirst.state { id := 0 } rfl
  have hone : 1 ∈ s.getByteTransitions c := by
    have hstate : some s = some (({ id := 0 } : NfaState).addInterval (c, c) 1) :=
      hs.symm.trans rfl
    obtain rfl := Option.some.inj hstate
    rw [mem_getByteTransitions]
    show (c, 1) ∈ [] ++ _
    have hbound : min c (cSizeOfByte - 1) + 1 - c = 1 := by
      unfold cSizeOfByte at *
      omega
    show (c, 1) ∈ (List.range' c (min c (cSizeOfByte - 1) + 1 - c)).map (·, 1)
    rw [hbound]
    exact List.mem_cons_self
  have hroot : ((⟨id, RegexAST.mkLiteral c⟩ : LexicalRule).addToNfa initial).root <
      ((⟨id, RegexAST.mkLiteral c⟩ : LexicalRule).addToNfa initial).states.length := by
    rw [hfirst.root]
    exact (List.getElem?_eq_some_iff.1 hs).1
  have hrest := rootReads_foldl h hroot
  obtain ⟨s', hs', hreads'⟩ := hrest.state s (by rw [hfirst.root]; exact hs)
  rw [hfirst.root] at hs'
  have hall := hreads.trans hreads'
  refine ⟨s', hs', hall.spontaneous, hall.label, ?_, fun b hb => ?_⟩
  · rw [mem_getByteTransitions] at hone ⊢
    exact hreads'.grows.subset hone
  · rw [hall.bytes b hb]
    simp [NfaState.getByteTransitions]

end Nfa

end LogSurgeon
