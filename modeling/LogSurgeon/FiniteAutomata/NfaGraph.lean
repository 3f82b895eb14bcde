import LogSurgeon.FiniteAutomata.Nfa
import LogSurgeon.Lib.LangGraph

/-!
# The NFA as a labelled graph

`Reaches` is the run of the NFA: byte transitions spell the word, spontaneous
transitions are free.  `edges` reads the NFA as a `LangGraph`, and
`reaches_iff_walk` connects the two.

The other lemmas say what each operation of the NFA does to the graph, to the
number of states and to the root.  `Closed` says that every edge joins states
that exist.
-/

namespace LogSurgeon

open Lib Lib.LangGraph

namespace Nfa

/-! ## Runs -/

/-- `nfa.Reaches p w q`: a path from `p` to `q` whose byte transitions spell
`w`. -/
inductive Reaches (nfa : Nfa) : Nat → List UInt8 → Nat → Prop where
  | refl (p : Nat) : Reaches nfa p [] p
  | spontaneous {p q : Nat} {w : List UInt8} {s : NfaState} {t : NfaSpontaneousTransition}
      (hs : nfa.state? p = some s) (ht : t ∈ s.spontaneousTransitions)
      (hrest : Reaches nfa t.destState w q) : Reaches nfa p w q
  | byte {p q r : Nat} {b : UInt8} {w : List UInt8} {s : NfaState}
      (hs : nfa.state? p = some s) (hr : r ∈ s.getByteTransitions b.toNat)
      (hrest : Reaches nfa r w q) : Reaches nfa p (b :: w) q

end Nfa

/-- The words on the edge from a state to `q`: the empty word for a
spontaneous transition, and the byte of a byte transition. -/
def NfaState.edgeWords (s : NfaState) (q : Nat) : Language UInt8 :=
  {w | (w = [] ∧ ∃ t ∈ s.spontaneousTransitions, t.destState = q) ∨
    ∃ b : UInt8, w = [b] ∧ q ∈ s.getByteTransitions b.toNat}

/-- The graph of the edges from state `p`, when it is `s`. -/
def NfaState.edgesFrom (s : NfaState) (p : Nat) : LangGraph Nat UInt8 :=
  fun x y => {w | x = p ∧ w ∈ s.edgeWords y}

namespace Nfa

/-- The graph of the NFA. -/
def edges (nfa : Nfa) : LangGraph Nat UInt8 :=
  fun p q => {w | ∃ s, nfa.state? p = some s ∧ w ∈ s.edgeWords q}

theorem reaches_iff_walk {nfa : Nfa} {p q : Nat} {w : List UInt8} :
    nfa.Reaches p w q ↔ Walk nfa.edges p w q := by
  constructor
  · intro h
    induction h with
    | refl p => exact Walk.nil p
    | @spontaneous p q w s t hs ht _ ih =>
      have hedge : [] ∈ nfa.edges p t.destState := ⟨s, hs, Or.inl ⟨rfl, t, ht, rfl⟩⟩
      exact Walk.cons hedge ih
    | @byte p q r b w s hs hr _ ih =>
      have hedge : [b] ∈ nfa.edges p r := ⟨s, hs, Or.inr ⟨b, rfl, hr⟩⟩
      exact Walk.cons hedge ih
  · intro h
    induction h with
    | nil p => exact Reaches.refl p
    | cons hedge _ ih =>
      obtain ⟨s, hs, ⟨rfl, t, ht, rfl⟩ | ⟨b, rfl, hr⟩⟩ := hedge
      · exact Reaches.spontaneous hs ht ih
      · exact Reaches.byte hs hr ih

/-- Every edge joins two existing states. -/
def Closed (nfa : Nfa) : Prop := SupportedOn (Set.Iio nfa.states.length) nfa.edges

theorem Closed.isolated {nfa : Nfa} (h : nfa.Closed) {s : Nat} (hs : nfa.states.length ≤ s) :
    Isolated nfa.edges s :=
  SupportedOn.isolated h (by simpa using hs)

/-! ## The root -/

@[simp] theorem edges_setRoot (nfa : Nfa) (r : Nat) : (nfa.setRoot r).edges = nfa.edges := rfl

@[simp] theorem states_setRoot (nfa : Nfa) (r : Nat) :
    (nfa.setRoot r).states = nfa.states := rfl

@[simp] theorem root_setRoot (nfa : Nfa) (r : Nat) : (nfa.setRoot r).root = r := rfl

theorem setRoot_eq_self {nfa : Nfa} {r : Nat} (h : nfa.root = r) : nfa.setRoot r = nfa := by
  subst h
  rfl

@[simp] theorem closed_setRoot (nfa : Nfa) (r : Nat) : (nfa.setRoot r).Closed ↔ nfa.Closed :=
  Iff.rfl

/-! ## New states -/

@[simp] theorem pushState_snd (nfa : Nfa) (make : Nat → NfaState) :
    (nfa.pushState make).2 = nfa.states.length := rfl

@[simp] theorem length_pushState (nfa : Nfa) (make : Nat → NfaState) :
    (nfa.pushState make).1.states.length = nfa.states.length + 1 := by
  simp [pushState]

@[simp] theorem root_pushState (nfa : Nfa) (make : Nat → NfaState) :
    (nfa.pushState make).1.root = nfa.root := rfl

theorem state?_pushState (nfa : Nfa) (make : Nat → NfaState) (p : Nat) :
    (nfa.pushState make).1.state? p =
      if p = nfa.states.length then some (make p) else nfa.state? p := by
  unfold pushState state?
  by_cases hp : p = nfa.states.length
  · subst hp
    simp
  · rw [if_neg hp]
    rcases Nat.lt_or_gt_of_ne hp with hlt | hgt
    · rw [List.getElem?_append_left hlt]
    · rw [List.getElem?_eq_none_iff.2 (by simp; omega),
        List.getElem?_eq_none_iff.2 (by omega)]

/-- A new state brings its own edges and no others. -/
theorem edges_pushState (nfa : Nfa) (make : Nat → NfaState) :
    (nfa.pushState make).1.edges =
      nfa.edges ⊔ (make nfa.states.length).edgesFrom nfa.states.length := by
  funext p q
  ext w
  show (∃ s, (nfa.pushState make).1.state? p = some s ∧ _) ↔ (∃ s, _) ∨ (_ ∧ _)
  rw [state?_pushState]
  by_cases hp : p = nfa.states.length
  · subst hp
    have hnone : nfa.state? nfa.states.length = none := by simp [state?]
    simp [hnone]
  · simp [hp]

theorem newState_edges (nfa : Nfa) : nfa.newState.1.edges = nfa.edges := by
  rw [newState, edges_pushState]
  have hbot : ({ id := nfa.states.length } : NfaState).edgesFrom nfa.states.length = ⊥ := by
    funext p q
    ext w
    constructor
    · rintro ⟨_, ⟨_, t, ht, _⟩ | ⟨b, _, hb⟩⟩
      · cases ht
      · simp [NfaState.getByteTransitions] at hb
    · exact False.elim
  rw [hbot, sup_bot_eq]

@[simp] theorem newState_snd (nfa : Nfa) : nfa.newState.2 = nfa.states.length := rfl

@[simp] theorem length_newState (nfa : Nfa) :
    nfa.newState.1.states.length = nfa.states.length + 1 := length_pushState _ _

@[simp] theorem root_newState (nfa : Nfa) : nfa.newState.1.root = nfa.root := rfl

theorem closed_newState {nfa : Nfa} (h : nfa.Closed) : nfa.newState.1.Closed := by
  unfold Closed
  rw [newState_edges, length_newState]
  exact SupportedOn.mono (Set.Iio_subset_Iio (Nat.le_succ _)) h

theorem edges_newAcceptingState (nfa : Nfa) (id : Nat) :
    (nfa.newAcceptingState id).1.edges = nfa.edges := by
  rw [← newState_edges nfa, newState, newAcceptingState, edges_pushState, edges_pushState]
  rfl

@[simp] theorem newAcceptingState_snd (nfa : Nfa) (id : Nat) :
    (nfa.newAcceptingState id).2 = nfa.states.length := rfl

@[simp] theorem length_newAcceptingState (nfa : Nfa) (id : Nat) :
    (nfa.newAcceptingState id).1.states.length = nfa.states.length + 1 := length_pushState _ _

@[simp] theorem root_newAcceptingState (nfa : Nfa) (id : Nat) :
    (nfa.newAcceptingState id).1.root = nfa.root := rfl

/-- A new state whose only transition is spontaneous. -/
theorem edges_pushState_spontaneous (nfa : Nfa) (tagOps : List TagOperation) (dest : Nat) :
    (nfa.pushState fun id =>
        { id := id, spontaneousTransitions := [⟨tagOps, dest⟩] }).1.edges =
      nfa.edges ⊔ edge nfa.states.length dest 1 := by
  rw [edges_pushState]
  congr 1
  funext p q
  ext w
  constructor
  · rintro ⟨hp, ⟨rfl, t, ht, rfl⟩ | ⟨b, _, hb⟩⟩
    · rw [List.mem_singleton.1 ht]
      exact ⟨hp, rfl, rfl⟩
    · simp [NfaState.getByteTransitions] at hb
  · rintro ⟨hp, rfl, hw⟩
    exact ⟨hp, Or.inl ⟨hw, _, List.mem_singleton.2 rfl, rfl⟩⟩

/-! ## Tags -/

@[simp] theorem states_getOrCreateCaptureTagPair (nfa : Nfa) (c : Capture) :
    (nfa.getOrCreateCaptureTagPair c).1.states = nfa.states := by
  unfold getOrCreateCaptureTagPair
  split <;> rfl

@[simp] theorem root_getOrCreateCaptureTagPair (nfa : Nfa) (c : Capture) :
    (nfa.getOrCreateCaptureTagPair c).1.root = nfa.root := by
  unfold getOrCreateCaptureTagPair
  split <;> rfl

@[simp] theorem states_captureTags (nfa : Nfa) (cs : List Capture) :
    (nfa.captureTags cs).1.states = nfa.states := by
  induction cs generalizing nfa with
  | nil => rfl
  | cons c cs ih =>
    show ((nfa.getOrCreateCaptureTagPair c).1.captureTags cs).1.states = nfa.states
    rw [ih, states_getOrCreateCaptureTagPair]

@[simp] theorem root_captureTags (nfa : Nfa) (cs : List Capture) :
    (nfa.captureTags cs).1.root = nfa.root := by
  induction cs generalizing nfa with
  | nil => rfl
  | cons c cs ih =>
    show ((nfa.getOrCreateCaptureTagPair c).1.captureTags cs).1.root = nfa.root
    rw [ih, root_getOrCreateCaptureTagPair]

theorem edges_congr {nfa nfa' : Nfa} (h : nfa.states = nfa'.states) :
    nfa.edges = nfa'.edges := by
  unfold edges state?
  rw [h]

/-- The state for the negative captures is new, and its only way out leads to
the end state. -/
theorem newStateFromNegativeCaptures_spec (nfa : Nfa) (cs : List Capture) (dest : Nat) :
    (nfa.newStateFromNegativeCaptures cs dest).2 = nfa.states.length ∧
      (nfa.newStateFromNegativeCaptures cs dest).1.states.length = nfa.states.length + 1 ∧
      (nfa.newStateFromNegativeCaptures cs dest).1.root = nfa.root ∧
      (nfa.newStateFromNegativeCaptures cs dest).1.edges =
        nfa.edges ⊔ edge nfa.states.length dest 1 := by
  have hstates := states_captureTags nfa cs
  refine ⟨?_, ?_, ?_, ?_⟩
  · show (nfa.captureTags cs).1.states.length = _
    rw [hstates]
  · show ((nfa.captureTags cs).1.pushState _).1.states.length = _
    rw [length_pushState, hstates]
  · show ((nfa.captureTags cs).1.pushState _).1.root = _
    rw [root_pushState, root_captureTags]
  · show ((nfa.captureTags cs).1.pushState _).1.edges = _
    rw [edges_pushState_spontaneous, hstates, edges_congr hstates]

/-! ## New transitions of the root -/

@[simp] theorem length_modifyState (nfa : Nfa) (p : Nat) (f : NfaState → NfaState) :
    (nfa.modifyState p f).states.length = nfa.states.length := by
  simp [modifyState]

@[simp] theorem root_modifyState (nfa : Nfa) (p : Nat) (f : NfaState → NfaState) :
    (nfa.modifyState p f).root = nfa.root := rfl

theorem state?_modifyState (nfa : Nfa) (p x : Nat) (f : NfaState → NfaState) :
    (nfa.modifyState p f).state? x =
      if p = x then (nfa.state? x).map f else nfa.state? x := by
  unfold modifyState state?
  rw [List.getElem?_modify]
  split <;> simp

/-- A change that adds the edge `q` with the words `L` to a state adds that
edge to the graph. -/
theorem edges_modifyState {nfa : Nfa} {p q : Nat} {f : NfaState → NfaState}
    {L : Language UInt8} (hp : p < nfa.states.length)
    (hf : ∀ (s : NfaState) (y : Nat) (w : List UInt8),
      w ∈ (f s).edgeWords y ↔ w ∈ s.edgeWords y ∨ y = q ∧ w ∈ L) :
    (nfa.modifyState p f).edges = nfa.edges ⊔ edge p q L := by
  funext x y
  ext w
  show (∃ s, (nfa.modifyState p f).state? x = some s ∧ _) ↔ (∃ s, _) ∨ (x = p ∧ _)
  rw [state?_modifyState]
  by_cases hx : p = x
  · subst hx
    obtain ⟨s, hs⟩ : ∃ s, nfa.state? p = some s := ⟨_, List.getElem?_eq_getElem hp⟩
    simp [hs, hf]
  · simp [hx, Ne.symm hx]

theorem edgeWords_addSpontaneousTransition (s : NfaState) (tagOps : List TagOperation)
    (q y : Nat) (w : List UInt8) :
    w ∈ (s.addSpontaneousTransition tagOps q).edgeWords y ↔
      w ∈ s.edgeWords y ∨ y = q ∧ w ∈ (1 : Language UInt8) := by
  show (w = [] ∧ ∃ t ∈ s.spontaneousTransitions ++ [⟨tagOps, q⟩], t.destState = y) ∨ _ ↔
    ((w = [] ∧ _) ∨ _) ∨ (y = q ∧ w = [])
  simp only [List.mem_append, List.mem_singleton, or_and_right, exists_or, exists_eq_left]
  constructor
  · rintro (⟨rfl, h | rfl⟩ | h)
    · exact Or.inl (Or.inl ⟨rfl, h⟩)
    · exact Or.inr ⟨rfl, rfl⟩
    · exact Or.inl (Or.inr h)
  · rintro ((⟨rfl, h⟩ | h) | ⟨rfl, rfl⟩)
    · exact Or.inl ⟨rfl, Or.inl h⟩
    · exact Or.inr h
    · exact Or.inl ⟨rfl, Or.inr rfl⟩

theorem mem_getByteTransitions {s : NfaState} {b q : Nat} :
    q ∈ s.getByteTransitions b ↔ (b, q) ∈ s.byteTransitions := by
  simp [NfaState.getByteTransitions]

theorem edgeWords_addInterval (s : NfaState) (interval : Range) (q y : Nat) (w : List UInt8) :
    w ∈ (s.addInterval interval q).edgeWords y ↔
      w ∈ s.edgeWords y ∨
        y = q ∧ w ∈ RegexAST.byteLanguage fun c => interval.1 ≤ c ∧ c ≤ interval.2 := by
  have hmem : ∀ b : UInt8, y ∈ (s.addInterval interval q).getByteTransitions b.toNat ↔
      y ∈ s.getByteTransitions b.toNat ∨
        y = q ∧ interval.1 ≤ b.toNat ∧ b.toNat ≤ interval.2 := by
    intro b
    have hb : b.toNat < 256 := b.toNat_lt
    simp only [mem_getByteTransitions, NfaState.addInterval, cSizeOfByte, List.mem_append,
      List.mem_map, List.mem_range'_1, Prod.mk.injEq]
    constructor
    · rintro (h | ⟨c, hc, rfl, rfl⟩)
      · exact Or.inl h
      · exact Or.inr ⟨rfl, by omega, by omega⟩
    · rintro (h | ⟨rfl, h1, h2⟩)
      · exact Or.inl h
      · exact Or.inr ⟨b.toNat, by omega, rfl, rfl⟩
  show (_ ∨ ∃ b : UInt8, w = [b] ∧ _) ↔ (_ ∨ ∃ b : UInt8, w = [b] ∧ _) ∨
    y = q ∧ ∃ b : UInt8, w = [b] ∧ _
  simp only [hmem, and_or_left, exists_or]
  constructor
  · rintro (h | h | ⟨b, rfl, rfl, h⟩)
    · exact Or.inl (Or.inl h)
    · exact Or.inl (Or.inr h)
    · exact Or.inr ⟨rfl, b, rfl, h⟩
  · rintro ((h | h) | ⟨rfl, b, rfl, h⟩)
    · exact Or.inl h
    · exact Or.inr (Or.inl h)
    · exact Or.inr (Or.inr ⟨b, rfl, rfl, h⟩)

theorem edges_addRootSpontaneousTransition {nfa : Nfa} (hroot : nfa.root < nfa.states.length)
    (q : Nat) :
    (nfa.addRootSpontaneousTransition q).edges = nfa.edges ⊔ edge nfa.root q 1 :=
  edges_modifyState hroot fun s y w => edgeWords_addSpontaneousTransition s [] q y w

theorem edges_addRootInterval {nfa : Nfa} (hroot : nfa.root < nfa.states.length)
    (interval : Range) (q : Nat) :
    (nfa.addRootInterval interval q).edges =
      nfa.edges ⊔ edge nfa.root q
        (RegexAST.byteLanguage fun c => interval.1 ≤ c ∧ c ≤ interval.2) :=
  edges_modifyState hroot fun s y w => edgeWords_addInterval s interval q y w

theorem root_newStartAndEndStatesFromPositiveCapture (nfa : Nfa) (c : Capture) (dest : Nat) :
    (nfa.newStartAndEndStatesFromPositiveCapture c dest).1.root = nfa.root :=
  root_getOrCreateCaptureTagPair nfa c

/-- A capture brings a start state behind the root, and an end state in front
of the destination. -/
theorem newStartAndEndStatesFromPositiveCapture_spec {nfa : Nfa}
    (hroot : nfa.root < nfa.states.length) (c : Capture) (dest : Nat) :
    (nfa.newStartAndEndStatesFromPositiveCapture c dest).2 =
        (nfa.states.length, nfa.states.length + 1) ∧
      (nfa.newStartAndEndStatesFromPositiveCapture c dest).1.states.length =
        nfa.states.length + 2 ∧
      (nfa.newStartAndEndStatesFromPositiveCapture c dest).1.edges =
        nfa.edges ⊔ edge nfa.root nfa.states.length 1 ⊔
          edge (nfa.states.length + 1) dest 1 := by
  have hstates := states_getOrCreateCaptureTagPair nfa c
  have hrootTag := root_getOrCreateCaptureTagPair nfa c
  unfold newStartAndEndStatesFromPositiveCapture
  generalize nfa.getOrCreateCaptureTagPair c = tagged at hstates hrootTag
  obtain ⟨nfa', pair⟩ := tagged
  simp only at hstates hrootTag
  have hlen : ∀ f, (nfa'.newState.1.modifyState nfa'.root f).states.length =
      nfa.states.length + 1 := by
    intro f
    rw [length_modifyState, length_newState, hstates]
  have hedges : ∀ tagOps,
      (nfa'.newState.1.modifyState nfa'.root
        (·.addSpontaneousTransition tagOps nfa'.states.length)).edges =
      nfa.edges ⊔ edge nfa.root nfa.states.length 1 := by
    intro tagOps
    rw [edges_modifyState (L := 1) (by rw [length_newState, hrootTag, hstates]; omega)
      fun s y w => edgeWords_addSpontaneousTransition s tagOps nfa'.states.length y w]
    rw [newState_edges, hrootTag, hstates, edges_congr hstates]
  refine ⟨?_, ?_, ?_⟩
  · simp only [newState_snd, pushState_snd, root_newState, hlen, hstates]
  · simp only [newState_snd, root_newState, length_pushState, hlen]
  · simp only [newState_snd, root_newState, edges_pushState_spontaneous, hlen, hedges]

/-! ## Repetitions with an upper bound -/

/-- Any number of copies up to a bound. -/
theorem addMultiplication_zero_bounded (add : Nfa → Nat → Nfa) (max : Nat) :
    addMultiplication add 0 (max + 1) = fun nfa e =>
      (add (addOptionalCopies add e max ((nfa.addRootSpontaneousTransition e).setRoot nfa.root))
        e).setRoot nfa.root := by
  funext nfa e
  have hkeep : (nfa.addRootSpontaneousTransition e).setRoot nfa.root =
      nfa.addRootSpontaneousTransition e := setRoot_eq_self rfl
  simp only [hkeep, addMultiplication, if_true, Nat.succ_ne_zero, if_false, Nat.zero_add,
    Nat.succ_sub_one, if_pos (Nat.succ_pos max)]

/-- The last required copy is the first one that may end the repetition. -/
theorem addMultiplication_bounded (add : Nfa → Nat → Nfa) {min max : Nat}
    (hlt : min + 1 < max) :
    addMultiplication add (min + 1) max = fun nfa e =>
      (add (addOptionalCopies add e (max - (min + 1 + 1) + 1) (addCopies add min nfa))
        e).setRoot nfa.root := by
  funext nfa e
  simp only [addMultiplication, Nat.succ_ne_zero, if_false, (Nat.zero_lt_of_lt hlt).ne',
    if_pos hlt]
  rfl

/-- Only required copies. -/
theorem addMultiplication_exact (add : Nfa → Nat → Nfa) {min max : Nat} (hmax : max ≠ 0)
    (hle : ¬ min + 1 < max) :
    addMultiplication add (min + 1) max = fun nfa e =>
      (add (addCopies add min nfa) e).setRoot nfa.root := by
  funext nfa e
  simp only [addMultiplication, Nat.succ_ne_zero, if_false, hmax, if_neg hle]
  rfl

end Nfa

end LogSurgeon
