import LogSurgeon.FiniteAutomata.CaptureTags
import LogSurgeon.FiniteAutomata.NfaRoot
import LogSurgeon.FiniteAutomata.NfaTagGraph
import LogSurgeon.Lib.Histories

/-!
# What the operations on a path do to the tags of a capture

A capture is `Settled` by the operations of a path if the last ones on its two
tags have the same type.

* A `Phase` says what the operations up to a state can have done to the tags of
  one capture.  `Typed` says that every transition respects the phases of the
  states, so a path does (`Typed.path`).
* `Fills` says that a step of the construction extends the phases to its new
  states, if those of the root and of the end state fit.
* The end state of an unbounded repetition is also the start of its loop, so its
  phase has to fit at both ends.
-/

namespace LogSurgeon

open Lib Lib.LangGraph

/-! ## Paths -/

namespace Nfa

/-- A path from `p` to `q`, with the operations of its transitions. -/
inductive Path (nfa : Nfa) : Nat → List TagOperation → Nat → Prop where
  | refl (p : Nat) : Path nfa p [] p
  | spontaneous {p q : Nat} {ops : List TagOperation} {s : NfaState}
      {t : NfaSpontaneousTransition} (hs : nfa.state? p = some s)
      (ht : t ∈ s.spontaneousTransitions) (hrest : Path nfa t.destState ops q) :
      Path nfa p (t.tagOps ++ ops) q
  | byte {p q r b : Nat} {ops : List TagOperation} {s : NfaState} (hs : nfa.state? p = some s)
      (hr : r ∈ s.getByteTransitions b) (hrest : Path nfa r ops q) : Path nfa p ops q

/-- The last operations on the two tags have the same type, and a capture that
is set starts no later than it ends. -/
def Settled (pair : Nat × Nat) (ops : List TagOperation) : Prop :=
  ∃ i j type, LastAt TagOperation.tagId ops i ⟨pair.1, type⟩ ∧
    LastAt TagOperation.tagId ops j ⟨pair.2, type⟩ ∧ (type = .set → i ≤ j)

/-- No operation is on one of the tags. -/
def Untouched (pair : Nat × Nat) (ops : List TagOperation) : Prop :=
  ∀ op ∈ ops, ¬ OfPair pair op.tagId

/-! ## Phases -/

/-- What the operations up to a state have done to the tags of a capture.  In
`before`, the capture may be settled from a previous round of a loop. -/
inductive Phase where
  | before
  | inside
  | settled
  | any

namespace Phase

def Allows (pair : Nat × Nat) : Phase → List TagOperation → Prop
  | before, ops => Untouched pair ops ∨ Settled pair ops
  | inside, ops => ∃ i, LastAt TagOperation.tagId ops i ⟨pair.1, .set⟩
  | settled, ops => Settled pair ops
  | any, _ => True

/-- What the first phase allows, the second one does. -/
def Below (x y : Phase) : Prop := x = y ∨ y = any ∨ x = settled ∧ y = before

/-- A part with the capture may start and end in the phase. -/
def Opens (x : Phase) : Prop := x = before ∨ x = settled

theorem Below.refl (x : Phase) : Below x x := Or.inl rfl

theorem Below.trans {x y z : Phase} (h : Below x y) (h' : Below y z) : Below x z := by
  rcases h with rfl | rfl | ⟨rfl, rfl⟩
  · exact h'
  · rcases h' with rfl | rfl | ⟨h', -⟩
    · exact Or.inr (Or.inl rfl)
    · exact Or.inr (Or.inl rfl)
    · cases h'
  · rcases h' with rfl | rfl | ⟨h', -⟩
    · exact Or.inr (Or.inr ⟨rfl, rfl⟩)
    · exact Or.inr (Or.inl rfl)
    · cases h'

theorem Opens.settled_below {x : Phase} (h : Opens x) : Below settled x := by
  rcases h with rfl | rfl
  · exact Or.inr (Or.inr ⟨rfl, rfl⟩)
  · exact Below.refl _

variable {pair : Nat × Nat} {w ops : List TagOperation} {x y : Phase}

theorem settled_append (h : Settled pair w) (hops : Untouched pair ops) :
    Settled pair (w ++ ops) := by
  obtain ⟨i, j, type, hi, hj, hle⟩ := h
  refine ⟨i, j, type, hi.append fun op hop heq => ?_, hj.append fun op hop heq => ?_, hle⟩
  · exact hops op hop (Or.inl heq)
  · exact hops op hop (Or.inr heq)

/-- Operations on other tags keep what a phase allows. -/
theorem Allows.append (h : x.Allows pair w) (hxy : Below x y) (hops : Untouched pair ops) :
    y.Allows pair (w ++ ops) := by
  have hsame : x.Allows pair (w ++ ops) := by
    cases x with
    | before =>
      refine h.imp (fun hw op hop => ?_) fun hw => settled_append hw hops
      exact (List.mem_append.1 hop).elim (hw op) (hops op)
    | inside =>
      obtain ⟨i, hi⟩ := h
      exact ⟨i, hi.append fun op hop heq => hops op hop (Or.inl heq)⟩
    | settled => exact settled_append h hops
    | any => trivial
  rcases hxy with rfl | rfl | ⟨rfl, rfl⟩
  · exact hsame
  · trivial
  · exact Or.inr hsame

/-- The start tag is set. -/
theorem allows_inside (w : List TagOperation) : inside.Allows pair (w ++ [⟨pair.1, .set⟩]) :=
  ⟨w.length, lastAt_append_singleton w _⟩

/-- The end tag is set behind the start tag. -/
theorem Allows.settled_of_inside (h : inside.Allows pair w) (hne : pair.1 ≠ pair.2) :
    Settled pair (w ++ [⟨pair.2, .set⟩]) := by
  obtain ⟨i, hi⟩ := h
  refine ⟨i, w.length, .set, hi.append fun op hop heq => ?_, lastAt_append_singleton w _,
    fun _ => hi.lt_length.le⟩
  rw [List.mem_singleton.1 hop] at heq
  exact hne heq.symm

/-- Negating both tags settles the capture. -/
theorem settled_of_negate {tags : List Nat} (hfst : pair.1 ∈ tags) (hsnd : pair.2 ∈ tags)
    (w : List TagOperation) : Settled pair (w ++ tags.map (⟨·, .negate⟩)) := by
  have hlast : ∀ t ∈ tags, ∃ i, LastAt TagOperation.tagId
      (tags.map fun t => (⟨t, .negate⟩ : TagOperation)) i ⟨t, .negate⟩ := by
    intro t ht
    have hmem : ∃ op ∈ tags.map fun t => (⟨t, .negate⟩ : TagOperation), op.tagId = t :=
      ⟨⟨t, .negate⟩, List.mem_map_of_mem ht, rfl⟩
    obtain ⟨i, op, hi, hop⟩ := exists_lastAt hmem
    obtain ⟨t', -, rfl⟩ := List.mem_map.1 (List.mem_of_getElem? hi.getElem?)
    obtain rfl : t' = t := hop
    exact ⟨i, hi⟩
  obtain ⟨i, hi⟩ := hlast pair.1 hfst
  obtain ⟨j, hj⟩ := hlast pair.2 hsnd
  exact ⟨_, _, .negate, lastAt_append_right hi, lastAt_append_right hj, fun h => by cases h⟩

end Phase

/-- The operations take what the first phase allows to what the second one
allows. -/
def Carries (pair : Nat × Nat) (ops : List TagOperation) (x y : Phase) : Prop :=
  ∀ w, x.Allows pair w → y.Allows pair (w ++ ops)

section Carries

variable {capture : Capture} {pair : Nat × Nat} {ops : List TagOperation} {x y : Phase}
  {nfa nfa' : Nfa}

theorem carries_of_untouched (hxy : x.Below y) (hops : Untouched pair ops) :
    Carries pair ops x y := fun _ hw => hw.append hxy hops

theorem carries_nil (hxy : x.Below y) : Carries pair [] x y :=
  carries_of_untouched hxy fun _ hop => by cases hop

theorem carries_any : Carries pair ops x .any := fun _ _ => trivial

theorem carries_of_settled (h : ∀ w, x.Allows pair w → Settled pair (w ++ ops))
    (hy : y.Opens) : Carries pair ops x y := by
  intro w hw
  have hsettled : Phase.settled.Allows pair (w ++ ops) := h w hw
  rcases hy with rfl | rfl
  · exact Or.inr hsettled
  · exact hsettled

/-- Negating the captures settles them and leaves the others as they are. -/
theorem carries_negate (neg : List Capture)
    (h : (nfa.captureTags neg).1.Assigns capture pair) (hxy : capture ∉ neg → x.Below y)
    (hy : capture ∈ neg → y.Opens) :
    Carries pair ((nfa.captureTags neg).2.map (⟨·, .negate⟩)) x y := by
  obtain ⟨hof, hto⟩ := captureTags_spec nfa neg
  by_cases hmem : capture ∈ neg
  · obtain ⟨pair', hpair', hfst, hsnd⟩ := hof capture hmem
    obtain rfl := h.own pair' hpair'
    exact carries_of_settled (fun w _ => Phase.settled_of_negate hfst hsnd w) (hy hmem)
  · refine carries_of_untouched (hxy hmem) fun op hop => ?_
    obtain ⟨t, ht, rfl⟩ := List.mem_map.1 hop
    obtain ⟨capture', hmem', pair', hpair', hofPair⟩ := hto t ht
    refine h.others capture' (fun heq => hmem ?_) pair' hpair' t hofPair
    rwa [← heq]

/-- The operations of another capture. -/
theorem untouched_of_ne {capture' : Capture} (hne : capture' ≠ capture)
    (h : (nfa.getOrCreateCaptureTagPair capture').1.Assigns capture pair) {t : Nat}
    (ht : OfPair (nfa.getOrCreateCaptureTagPair capture').2 t) (type : TagOperationType) :
    Untouched pair [⟨t, type⟩] := by
  intro op hop
  rw [List.mem_singleton.1 hop]
  exact h.others capture' hne _ (lookup_getOrCreateCaptureTagPair nfa capture') t ht

end Carries

/-! ## The transitions -/

/-- The byte transitions, which have no operations. -/
def byteEdges (nfa : Nfa) : LangGraph Nat TagOperation :=
  fun p q => {ops | ops = [] ∧ ∃ s, nfa.state? p = some s ∧ ∃ b, (b, q) ∈ s.byteTransitions}

/-- All transitions, with their operations. -/
def opEdges (nfa : Nfa) : LangGraph Nat TagOperation := nfa.tagEdges ⊔ nfa.byteEdges

theorem Path.walk {nfa : Nfa} {p q : Nat} {ops : List TagOperation} (h : nfa.Path p ops q) :
    Walk nfa.opEdges p ops q := by
  induction h with
  | refl p => exact Walk.nil p
  | spontaneous hs ht _ ih => exact Walk.cons (Or.inl ⟨_, hs, _, ht, rfl, rfl⟩) ih
  | byte hs hr _ ih =>
    have hedge : [] ∈ byteEdges _ _ _ := ⟨rfl, _, hs, _, mem_getByteTransitions.1 hr⟩
    exact Walk.cons (Or.inr hedge) ih

theorem opEdges_congr {nfa nfa' : Nfa} (h : nfa.states = nfa'.states) :
    nfa.opEdges = nfa'.opEdges := by
  unfold opEdges tagEdges byteEdges state?
  rw [h]

/-- A new state brings no byte transitions. -/
theorem byteEdges_pushState (nfa : Nfa) (make : Nat → NfaState)
    (hmake : (make nfa.states.length).byteTransitions = []) :
    (nfa.pushState make).1.byteEdges = nfa.byteEdges := by
  funext p q
  ext ops
  refine and_congr_right fun _ => ?_
  rw [state?_pushState]
  by_cases hp : p = nfa.states.length
  · subst hp
    have hnone : nfa.state? nfa.states.length = none := by simp [state?]
    simp [hnone, hmake]
  · rw [if_neg hp]

@[simp] theorem opEdges_newState (nfa : Nfa) : nfa.newState.1.opEdges = nfa.opEdges := by
  unfold opEdges
  rw [tagEdges_newState, newState, byteEdges_pushState nfa _ rfl]

theorem opEdges_newAcceptingState (nfa : Nfa) (id : Nat) :
    (nfa.newAcceptingState id).1.opEdges = nfa.opEdges := by
  unfold opEdges
  rw [tagEdges_newAcceptingState, newAcceptingState, byteEdges_pushState nfa _ rfl]

theorem opEdges_pushState_spontaneous (nfa : Nfa) (tagOps : List TagOperation) (dest : Nat) :
    (nfa.pushState fun id =>
        { id := id, spontaneousTransitions := [⟨tagOps, dest⟩] }).1.opEdges =
      nfa.opEdges ⊔ edge nfa.states.length dest {tagOps} := by
  unfold opEdges
  rw [tagEdges_pushState_spontaneous, byteEdges_pushState nfa _ rfl, sup_right_comm]

theorem opEdges_addSpontaneousTransition {nfa : Nfa} {p : Nat} (hp : p < nfa.states.length)
    (tagOps : List TagOperation) (dest : Nat) :
    (nfa.modifyState p (·.addSpontaneousTransition tagOps dest)).opEdges =
      nfa.opEdges ⊔ edge p dest {tagOps} := by
  have hbytes : (nfa.modifyState p (·.addSpontaneousTransition tagOps dest)).byteEdges =
      nfa.byteEdges := by
    funext x y
    ext ops
    refine and_congr_right fun _ => ?_
    rw [state?_modifyState]
    split
    · cases nfa.state? x with
      | none => simp
      | some s => simp [NfaState.addSpontaneousTransition]
    · rfl
  unfold opEdges
  rw [tagEdges_addSpontaneousTransition hp, hbytes, sup_right_comm]

/-- A capture sets its start tag on its way in, and its end tag on its way out. -/
theorem opEdges_newStartAndEndStates {nfa : Nfa} (hroot : nfa.root < nfa.states.length)
    (capture : Capture) (dest : Nat) :
    (nfa.newStartAndEndStatesFromPositiveCapture capture dest).1.opEdges =
      nfa.opEdges ⊔
          edge nfa.root nfa.states.length
            {[⟨(nfa.getOrCreateCaptureTagPair capture).2.1, .set⟩]} ⊔
        edge (nfa.states.length + 1) dest
          {[⟨(nfa.getOrCreateCaptureTagPair capture).2.2, .set⟩]} := by
  have hstates := states_getOrCreateCaptureTagPair nfa capture
  have hrootTag := root_getOrCreateCaptureTagPair nfa capture
  unfold newStartAndEndStatesFromPositiveCapture
  generalize nfa.getOrCreateCaptureTagPair capture = tagged at hstates hrootTag
  obtain ⟨nfa', pair⟩ := tagged
  simp only at hstates hrootTag
  have hlt : nfa'.root < nfa'.newState.1.states.length := by
    rw [length_newState, hrootTag, hstates]
    omega
  simp only [opEdges_pushState_spontaneous, length_modifyState, length_newState, root_newState,
    newState_snd, opEdges_addSpontaneousTransition hlt, opEdges_newState]
  rw [hrootTag, hstates, opEdges_congr hstates]

/-- The transitions of an interval have no operations. -/
theorem mem_opEdges_addInterval {nfa : Nfa} {p dest x y : Nat} {interval : Range}
    {ops : List TagOperation}
    (h : ops ∈ (nfa.modifyState p (·.addInterval interval dest)).opEdges x y) :
    ops ∈ (nfa.opEdges ⊔ edge p dest {[]}) x y := by
  rcases h with htag | ⟨rfl, s, hs, b, hb⟩
  · rw [tagEdges_addInterval] at htag
    exact Or.inl (Or.inl htag)
  · rw [state?_modifyState] at hs
    split at hs
    · rename_i hp
      cases hx : nfa.state? x with
      | none =>
        rw [hx] at hs
        cases hs
      | some s' =>
        rw [hx] at hs
        cases hs
        rcases List.mem_append.1 hb with hold | hnew
        · exact Or.inl (Or.inr ⟨rfl, s', hx, b, hold⟩)
        · obtain ⟨c, -, hc⟩ := List.mem_map.1 hnew
          cases hc
          exact Or.inr ⟨hp.symm, rfl, rfl⟩
    · exact Or.inl (Or.inr ⟨rfl, s, hs, b, hb⟩)

/-- Every transition respects the phases of its states. -/
structure Typed (pair : Nat × Nat) (phase : Nat → Phase) (nfa : Nfa) : Prop where
  supported : SupportedOn (Set.Iio nfa.states.length) nfa.opEdges
  carried : Carried nfa.opEdges fun p => (phase p).Allows pair

section Typed

variable {pair : Nat × Nat} {phase phase' : Nat → Phase} {nfa nfa' : Nfa}

theorem Typed.path (h : Typed pair phase nfa) {p q : Nat} {ops : List TagOperation}
    (hpath : nfa.Path p ops q) (hp : (phase p).Allows pair []) : (phase q).Allows pair ops := by
  simpa using hpath.walk.carried h.carried hp

/-- Only the phases of the states that exist matter. -/
theorem Typed.congr (h : Typed pair phase nfa)
    (hagree : ∀ p < nfa.states.length, phase' p = phase p) : Typed pair phase' nfa := by
  refine ⟨h.supported, h.carried.congr h.supported fun p hp => ?_⟩
  rw [hagree p hp]

/-- The transitions that are added respect the phases. -/
theorem Typed.sup (h : Typed pair phase nfa) {X : LangGraph Nat TagOperation}
    (hle : ∀ x y u, u ∈ nfa'.opEdges x y → u ∈ (nfa.opEdges ⊔ X) x y)
    (hlength : nfa.states.length ≤ nfa'.states.length)
    (hX : SupportedOn (Set.Iio nfa'.states.length) X)
    (hcarried : Carried X fun p => (phase p).Allows pair) : Typed pair phase nfa' :=
  ⟨fun x y u hu => (SupportedOn.mono (Set.Iio_subset_Iio hlength) h.supported).sup hX x y u
      (hle x y u hu),
    (h.carried.sup hcarried).mono hle⟩

theorem carried_singleton {p q : Nat} {ops : List TagOperation}
    (h : Carries pair ops (phase p) (phase q)) :
    Carried (edge p q {ops}) fun p => (phase p).Allows pair := by
  apply carried_edge
  intro u hu
  rw [Set.mem_singleton_iff.1 hu]
  exact h

/-- Only the transitions matter. -/
theorem Typed.of_opEdges_eq (h : Typed pair phase nfa) (hedges : nfa'.opEdges = nfa.opEdges)
    (hlength : nfa.states.length ≤ nfa'.states.length) : Typed pair phase nfa' := by
  refine ⟨?_, ?_⟩
  · rw [hedges]
    exact SupportedOn.mono (Set.Iio_subset_Iio hlength) h.supported
  · rw [hedges]
    exact h.carried

/-- A state that does not exist yet gets any phase. -/
theorem Typed.update (h : Typed pair phase nfa) (z : Phase) :
    Typed pair (Function.update phase nfa.states.length z) nfa :=
  h.congr fun _ hp => Function.update_of_ne (Nat.ne_of_lt hp) z phase

end Typed

end Nfa

/-! ## Parts of the construction -/

section Filled

variable {capture : Capture} {pair : Nat × Nat} {F G : Nfa.Phase → Nfa.Phase → Prop}
  {nfa nfa' nfa'' : Nfa} {p e : Nat}

open Nfa

variable (capture pair) in
/-- `nfa'` is `nfa` with a part between `p` and `e`.  The phases of the old states
extend to the new ones if those of `p` and `e` are related by `F`. -/
structure Filled (F : Phase → Phase → Prop) (nfa : Nfa) (p e : Nat) (nfa' : Nfa) : Prop where
  grows : Extends nfa nfa'
  typed : nfa'.Assigns capture pair → ∀ phase, Typed pair phase nfa → F (phase p) (phase e) →
    ∃ phase', (∀ q < nfa.states.length, phase' q = phase q) ∧ Typed pair phase' nfa'

namespace Filled

theorem mono (h : Filled capture pair F nfa p e nfa')
    (hle : nfa'.Assigns capture pair → ∀ x y, G x y → F x y) :
    Filled capture pair G nfa p e nfa' :=
  ⟨h.grows, fun hassigns phase htyped hG => h.typed hassigns phase htyped (hle hassigns _ _ hG)⟩

theorem setRoot (h : Filled capture pair F nfa p e nfa') (root : Nat) :
    Filled capture pair F nfa p e (nfa'.setRoot root) := by
  refine ⟨h.grows.trans (keptByOperations_extends.setRoot nfa' root), ?_⟩
  intro hassigns phase htyped hF
  obtain ⟨phase', hagree, htyped'⟩ :=
    h.typed ⟨hassigns.ne, hassigns.own, hassigns.others⟩ phase htyped hF
  exact ⟨phase', hagree, htyped'.supported, htyped'.carried⟩

theorem of_setRoot {root : Nat} (h : Filled capture pair F (nfa.setRoot root) p e nfa') :
    Filled capture pair F nfa p e nfa' :=
  ⟨⟨h.grows.length_le, h.grows.tags⟩, fun hassigns phase htyped hF =>
    h.typed hassigns phase ⟨htyped.supported, htyped.carried⟩ hF⟩

/-- Transitions without operations. -/
theorem plain (hp : p < nfa.states.length) (he : e < nfa.states.length)
    (hgrows : Extends nfa nfa')
    (hle : ∀ x y u, u ∈ nfa'.opEdges x y → u ∈ (nfa.opEdges ⊔ edge p e {[]}) x y) :
    Filled capture pair (Carries pair []) nfa p e nfa' where
  grows := hgrows
  typed _ phase htyped hF := by
    have hends := supportedOn_edge (Set.mem_Iio.2 (hp.trans_le hgrows.length_le))
      (Set.mem_Iio.2 (he.trans_le hgrows.length_le)) ({[]} : Language TagOperation)
    exact ⟨phase, fun _ _ => rfl,
      htyped.sup hle hgrows.length_le hends (carried_singleton hF)⟩

/-- Two parts between the same states. -/
theorem par (h : Filled capture pair F nfa p e nfa') (h' : Filled capture pair G nfa' p e nfa'')
    (hp : p < nfa.states.length) (he : e < nfa.states.length) :
    Filled capture pair (fun x y => F x y ∧ G x y) nfa p e nfa'' where
  grows := h.grows.trans h'.grows
  typed hassigns phase htyped hFG := by
    obtain ⟨hF, hG⟩ := hFG
    obtain ⟨phase₁, hagree₁, htyped₁⟩ :=
      h.typed (hassigns.of_extends h'.grows) phase htyped hF
    rw [← hagree₁ p hp, ← hagree₁ e he] at hG
    obtain ⟨phase₂, hagree₂, htyped₂⟩ := h'.typed hassigns phase₁ htyped₁ hG
    refine ⟨phase₂, fun q hq => ?_, htyped₂⟩
    rw [hagree₂ q (hq.trans_le h.grows.length_le), hagree₁ q hq]

/-- A part up to a new state, and one from there. -/
theorem seq (h : Filled capture pair F nfa.newState.1 p nfa.states.length nfa')
    (h' : Filled capture pair G nfa' nfa.states.length e nfa'') (hp : p < nfa.states.length)
    (he : e < nfa.states.length) :
    Filled capture pair (fun x y => ∃ z, F x z ∧ G z y) nfa p e nfa'' where
  grows := ((keptByOperations_extends.newState nfa).trans h.grows).trans h'.grows
  typed hassigns phase htyped hFG := by
    obtain ⟨z, hF, hG⟩ := hFG
    have hlength := length_newState nfa
    have hold : ∀ q < nfa.states.length,
        Function.update phase nfa.states.length z q = phase q :=
      fun q hq => Function.update_of_ne (Nat.ne_of_lt hq) z phase
    have hnew : Function.update phase nfa.states.length z nfa.states.length = z :=
      Function.update_self _ _ _
    have htyped₀ : Typed pair (Function.update phase nfa.states.length z) nfa.newState.1 :=
      (htyped.update z).of_opEdges_eq (opEdges_newState nfa) (by omega)
    obtain ⟨phase₁, hagree₁, htyped₁⟩ := h.typed (hassigns.of_extends h'.grows) _ htyped₀ (by
      rw [hold p hp, hnew]
      exact hF)
    obtain ⟨phase₂, hagree₂, htyped₂⟩ := h'.typed hassigns phase₁ htyped₁ (by
      rw [hagree₁ _ (by omega), hnew, hagree₁ e (by omega), hold e he]
      exact hG)
    have hle := h.grows.length_le
    refine ⟨phase₂, fun q hq => ?_, htyped₂⟩
    rw [hagree₂ q (by omega), hagree₁ q (by omega), hold q hq]

/-- A part from the end state to itself. -/
theorem loopBack (h : Filled capture pair F nfa e e nfa') :
    Filled capture pair (fun _ y => F y y) nfa p e nfa' :=
  ⟨h.grows, h.typed⟩

/-- A part behind which the negative captures are handled. -/
theorem negated {neg : List Capture}
    (h : Filled capture pair F (nfa.newStateFromNegativeCaptures neg e).1 p nfa.states.length nfa')
    (hp : p < nfa.states.length) (he : e < nfa.states.length) :
    Filled capture pair (fun x y => ∃ z, F x z ∧
      Carries pair ((nfa.captureTags neg).2.map (⟨·, .negate⟩)) z y) nfa p e nfa' where
  grows := (keptByOperations_extends.newStateFromNegativeCaptures nfa neg e).trans h.grows
  typed hassigns phase htyped hFG := by
    obtain ⟨z, hF, hnegate⟩ := hFG
    obtain ⟨-, hlength, -⟩ := newStateFromNegativeCaptures_spec nfa neg e
    have hstates := states_captureTags nfa neg
    have hedges : (nfa.newStateFromNegativeCaptures neg e).1.opEdges = nfa.opEdges ⊔
        edge nfa.states.length e {(nfa.captureTags neg).2.map (⟨·, .negate⟩)} := by
      show ((nfa.captureTags neg).1.pushState _).1.opEdges = _
      rw [opEdges_pushState_spontaneous, hstates, opEdges_congr hstates]
    have hold : ∀ q < nfa.states.length,
        Function.update phase nfa.states.length z q = phase q :=
      fun q hq => Function.update_of_ne (Nat.ne_of_lt hq) z phase
    have hnew : Function.update phase nfa.states.length z nfa.states.length = z :=
      Function.update_self _ _ _
    have htyped₀ : Typed pair (Function.update phase nfa.states.length z)
        (nfa.newStateFromNegativeCaptures neg e).1 := by
      refine (htyped.update z).sup (fun x y u hu => by rwa [hedges] at hu) (by omega)
        (supportedOn_edge (Set.mem_Iio.2 (by omega)) (Set.mem_Iio.2 (by omega)) _)
        (carried_singleton ?_)
      rw [hnew, hold e he]
      exact hnegate
    obtain ⟨phase', hagree, htyped'⟩ := h.typed hassigns _ htyped₀ (by
      rw [hold p hp, hnew]
      exact hF)
    refine ⟨phase', fun q hq => ?_, htyped'⟩
    rw [hagree q (by omega), hold q hq]

/-- A part between the two states of a capture. -/
theorem captured {capture' : Capture} (hroot : nfa.root < nfa.states.length)
    (h : Filled capture pair F (nfa.newStartAndEndStatesFromPositiveCapture capture' e).1
      nfa.states.length (nfa.states.length + 1) nfa') (he : e < nfa.states.length) :
    Filled capture pair (fun x y => ∃ z z',
      Carries pair [⟨(nfa.getOrCreateCaptureTagPair capture').2.1, .set⟩] x z ∧ F z z' ∧
        Carries pair [⟨(nfa.getOrCreateCaptureTagPair capture').2.2, .set⟩] z' y)
      nfa nfa.root e nfa' where
  grows := (keptByOperations_extends.newStartAndEndStates nfa capture' e).trans h.grows
  typed hassigns phase htyped hFG := by
    obtain ⟨z, z', hstart, hF, hend⟩ := hFG
    obtain ⟨-, hlength, -⟩ := newStartAndEndStatesFromPositiveCapture_spec hroot capture' e
    have hedges := opEdges_newStartAndEndStates hroot capture' e
    let phase₀ := Function.update (Function.update phase nfa.states.length z)
      (nfa.states.length + 1) z'
    have hold : ∀ q < nfa.states.length, phase₀ q = phase q := by
      intro q hq
      show Function.update _ _ _ q = _
      rw [Function.update_of_ne (by omega), Function.update_of_ne (by omega)]
    have hstart₀ : phase₀ nfa.states.length = z := by
      show Function.update _ _ _ nfa.states.length = _
      rw [Function.update_of_ne (by omega), Function.update_self]
    have hend₀ : phase₀ (nfa.states.length + 1) = z' := Function.update_self _ _ _
    have htyped₀ : Typed pair phase₀
        (nfa.newStartAndEndStatesFromPositiveCapture capture' e).1 := by
      rw [sup_assoc] at hedges
      refine (htyped.congr hold).sup (fun x y u hu => by rwa [hedges] at hu) (by omega)
        (SupportedOn.sup ?_ ?_) (Carried.sup (carried_singleton ?_) (carried_singleton ?_))
      · exact supportedOn_edge (Set.mem_Iio.2 (by omega)) (Set.mem_Iio.2 (by omega)) _
      · exact supportedOn_edge (Set.mem_Iio.2 (by omega)) (Set.mem_Iio.2 (by omega)) _
      · rw [hold _ hroot, hstart₀]
        exact hstart
      · rw [hend₀, hold e he]
        exact hend
    obtain ⟨phase', hagree, htyped'⟩ := h.typed hassigns phase₀ htyped₀ (by
      rw [hstart₀, hend₀]
      exact hF)
    refine ⟨phase', fun q hq => ?_, htyped'⟩
    rw [hagree q (by omega), hold q hq]

end Filled

variable (capture pair) in
/-- `add` adds a part between the root and the end state. -/
def Fills (F : Phase → Phase → Prop) (add : Nfa → Nat → Nfa) : Prop :=
  ∀ nfa e, nfa.root < nfa.states.length → e < nfa.states.length →
    Filled capture pair F nfa nfa.root e (add nfa e)

variable {add add' : Nfa → Nat → Nfa}

theorem Fills.congr (h : Fills capture pair F add) (heq : add = add') :
    Fills capture pair F add' := heq ▸ h

theorem Fills.mono (h : Fills capture pair F add) (hle : ∀ x y, G x y → F x y) :
    Fills capture pair G add :=
  fun nfa e hroot he => (h nfa e hroot he).mono fun _ => hle

/-- Resetting the root at the end does not matter. -/
theorem Fills.setRoot (h : Fills capture pair F add) (root : Nfa → Nat → Nat) :
    Fills capture pair F fun nfa e => (add nfa e).setRoot (root nfa e) :=
  fun nfa e hroot he => (h nfa e hroot he).setRoot _

theorem Fills.par (h : Fills capture pair F add) (h' : Fills capture pair G add') :
    Fills capture pair (fun x y => F x y ∧ G x y)
      fun nfa e => add' ((add nfa e).setRoot nfa.root) e := by
  intro nfa e hroot he
  have hfirst := h nfa e hroot he
  have hle := hfirst.grows.length_le
  exact (hfirst.setRoot nfa.root).par
    (h' ((add nfa e).setRoot nfa.root) e (hroot.trans_le hle) (he.trans_le hle)) hroot he

theorem Fills.seq (h : Fills capture pair F add) (h' : Fills capture pair G add') :
    Fills capture pair (fun x y => ∃ z, F x z ∧ G z y) fun nfa e =>
      add' ((add nfa.newState.1 nfa.newState.2).setRoot nfa.newState.2) e := by
  intro nfa e hroot he
  have hlength := length_newState nfa
  have hfirst := h nfa.newState.1 nfa.states.length (by rw [hlength, root_newState]; omega)
    (by omega)
  have hle := hfirst.grows.length_le
  exact (hfirst.setRoot nfa.states.length).seq
    (h' ((add nfa.newState.1 nfa.states.length).setRoot nfa.states.length) e
      (by rw [root_setRoot, states_setRoot]; omega) (by rw [states_setRoot]; omega)) hroot he

theorem Fills.loopBack (h : Fills capture pair F add) :
    Fills capture pair (fun _ y => F y y) fun nfa e => add (nfa.setRoot e) e :=
  fun nfa e _ he => ((h (nfa.setRoot e) e he he).of_setRoot).loopBack

theorem fills_addRootSpontaneousTransition :
    Fills capture pair (Carries pair []) fun nfa e => nfa.addRootSpontaneousTransition e := by
  intro nfa e hroot he
  refine Filled.plain hroot he (keptByOperations_extends.addSpontaneousTransition nfa _ _ _) ?_
  intro x y u hu
  unfold addRootSpontaneousTransition at hu
  rwa [opEdges_addSpontaneousTransition hroot] at hu

/-- The ranges of a group. -/
theorem fills_ranges (ranges : List Range) :
    Fills capture pair (Carries pair [])
      fun nfa e => ranges.foldl (fun nfa range => nfa.addRootInterval range e) nfa := by
  induction ranges with
  | nil =>
    exact fun nfa e _ _ => ⟨keptByOperations_extends.refl nfa,
      fun _ phase htyped _ => ⟨phase, fun _ _ => rfl, htyped⟩⟩
  | cons range ranges ih =>
    have hfirst : Fills capture pair (Carries pair []) fun nfa e => nfa.addRootInterval range e :=
      fun nfa e hroot he => Filled.plain hroot he
        (keptByOperations_extends.addInterval nfa _ _ _) fun _ _ _ => mem_opEdges_addInterval
    exact (hfirst.par ih).mono fun x y h => ⟨h, h⟩

theorem Fills.negated (h : Fills capture pair F add) (neg : List Capture)
    (hle : neg ≠ [] → ∀ nfa : Nfa, (nfa.captureTags neg).1.Assigns capture pair → ∀ x y, G x y →
      ∃ z, F x z ∧ Carries pair ((nfa.captureTags neg).2.map (⟨·, .negate⟩)) z y)
    (hnil : neg = [] → ∀ x y, G x y → F x y) :
    Fills capture pair G (Nfa.addWithNegativeCaptures neg add) := by
  intro nfa e hroot he
  unfold Nfa.addWithNegativeCaptures
  by_cases hneg : neg = []
  · rw [if_pos hneg]
    exact (h nfa e hroot he).mono fun _ => hnil hneg
  · rw [if_neg hneg]
    obtain ⟨hsnd, hlength, hkeep, -⟩ := newStateFromNegativeCaptures_spec nfa neg e
    have hadd := h (nfa.newStateFromNegativeCaptures neg e).1
      (nfa.newStateFromNegativeCaptures neg e).2 (by omega) (by omega)
    have hgrows := hadd.grows
    rw [hsnd, hkeep] at hadd
    dsimp only
    rw [hsnd] at hgrows ⊢
    refine (hadd.negated hroot he).mono fun hassigns => hle hneg nfa ?_
    have htags := hassigns.of_extends hgrows
    exact ⟨htags.ne, htags.own, htags.others⟩

theorem Fills.captured (h : Fills capture pair F add) (capture' : Capture)
    (hle : ∀ nfa : Nfa, (nfa.getOrCreateCaptureTagPair capture').1.Assigns capture pair →
      ∀ x y, G x y → ∃ z z',
        Carries pair [⟨(nfa.getOrCreateCaptureTagPair capture').2.1, .set⟩] x z ∧ F z z' ∧
          Carries pair [⟨(nfa.getOrCreateCaptureTagPair capture').2.2, .set⟩] z' y) :
    Fills capture pair G fun nfa e =>
      add ((nfa.newStartAndEndStatesFromPositiveCapture capture' e).1.setRoot
        (nfa.newStartAndEndStatesFromPositiveCapture capture' e).2.1)
        (nfa.newStartAndEndStatesFromPositiveCapture capture' e).2.2 := by
  intro nfa e hroot he
  beta_reduce
  obtain ⟨hsnd, hlength, -⟩ := newStartAndEndStatesFromPositiveCapture_spec hroot capture' e
  have hadd := h ((nfa.newStartAndEndStatesFromPositiveCapture capture' e).1.setRoot
    (nfa.newStartAndEndStatesFromPositiveCapture capture' e).2.1)
    (nfa.newStartAndEndStatesFromPositiveCapture capture' e).2.2
    (by rw [root_setRoot, states_setRoot, hsnd]; omega) (by rw [states_setRoot, hsnd]; omega)
  rw [hsnd] at hadd ⊢
  have hfilled := hadd.of_setRoot
  refine (hfilled.captured hroot he).mono fun hassigns => hle nfa ?_
  have htags := hassigns.of_extends hfilled.grows
  exact ⟨htags.ne, htags.own, htags.others⟩

section Repetition

variable (hsplit : ∀ x y, F x y → ∃ z, F x z ∧ F z y)

include hsplit

/-- Copies in sequence, followed by a step from the last intermediate state. -/
theorem Fills.copies (h : Fills capture pair F add) (h' : Fills capture pair F add') (k : Nat) :
    Fills capture pair F fun nfa e => add' (Nfa.addCopies add k nfa) e := by
  induction k with
  | zero => exact h'
  | succ k ih => exact (h.seq ih).mono hsplit

/-- Copies in sequence, each of which may end the repetition. -/
theorem Fills.optional (h : Fills capture pair F add) (hroot : KeepsRoot add) (k : Nat) :
    Fills capture pair F fun nfa e => add (Nfa.addOptionalCopies add e k nfa) e := by
  induction k with
  | zero => exact h
  | succ k ih =>
    refine ((h.par (h.seq ih)).mono fun x y hF => ⟨hF, hsplit x y hF⟩).congr ?_
    funext nfa e
    rw [Nfa.setRoot_eq_self (hroot nfa e)]
    rfl

/-- The phases of a repetition may be those of its operand. -/
theorem Fills.multiplication (h : Fills capture pair F add) (hroot : KeepsRoot add)
    (hloop : ∀ x y, F x y → F y y) (min max : Nat)
    (hskip : min = 0 → ∀ x y, F x y → Carries pair [] x y) :
    Fills capture pair F (Nfa.addMultiplication add min max) := by
  have hback : Fills capture pair F fun nfa e => add (nfa.setRoot e) e := h.loopBack.mono hloop
  -- the required copies, the loop, and the optional copies are the cases of the source
  rcases Nat.eq_zero_or_pos max with rfl | hmax
  · cases min with
    | zero =>
      have hskip' : Fills capture pair F fun nfa e => nfa.addRootSpontaneousTransition e :=
        fills_addRootSpontaneousTransition.mono (hskip rfl)
      exact ((hskip'.par hback).mono fun x y hF => ⟨hF, hF⟩).setRoot fun nfa _ => nfa.root
    | succ min =>
      have hall := h.copies hsplit h min
      exact ((hall.par hback).mono fun x y hF => ⟨hF, hF⟩).setRoot fun nfa _ => nfa.root
  · cases min with
    | zero =>
      obtain ⟨max, rfl⟩ := Nat.exists_eq_succ_of_ne_zero hmax.ne'
      have hskip' : Fills capture pair F fun nfa e => nfa.addRootSpontaneousTransition e :=
        fills_addRootSpontaneousTransition.mono (hskip rfl)
      have hboth := (hskip'.par (h.optional hsplit hroot max)).mono fun x y hF => ⟨hF, hF⟩
      exact (hboth.setRoot fun nfa _ => nfa.root).congr
        (Nfa.addMultiplication_zero_bounded add max).symm
    | succ min =>
      by_cases hlt : min + 1 < max
      · have hall := h.copies hsplit (h.optional hsplit hroot (max - (min + 1 + 1) + 1)) min
        exact (hall.setRoot fun nfa _ => nfa.root).congr
          (Nfa.addMultiplication_bounded add hlt).symm
      · exact ((h.copies hsplit h min).setRoot fun nfa _ => nfa.root).congr
          (Nfa.addMultiplication_exact add hmax.ne' hlt).symm

end Repetition

end Filled

end LogSurgeon
