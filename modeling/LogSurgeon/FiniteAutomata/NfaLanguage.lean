import LogSurgeon.FiniteAutomata.NfaAcceptance
import LogSurgeon.FiniteAutomata.NfaGraph

/-!
# The language of the constructed NFA

Every node builds its sub-automaton from the current root straight onto the
end state that the caller supplies, and an unbounded repetition is a loop at
that end state.  The end state may be shared with other parts, which can then
be followed by the loop as well.

A `Wiring` is what a sub-automaton adds between its root and its end state: the
words that lead through it, and the words of the loops that it leaves at the
end state.  `Wires` says that a construction step adds a given wiring, and
`wires_addToNfa` proves it for every tree by induction, one node class at a
time.  The accepting state of a rule is therefore reached by
`RegexAST.wiredWords`, and this is the denotation of the rule exactly when the
shared loops add no word.
-/

namespace LogSurgeon

open Lib Lib.LangGraph

/-! ## Wirings -/

/-- The words from the root to the end state, and the words of the loops at the
end state. -/
structure Wiring where
  through : Language UInt8
  loop : Language UInt8

namespace Wiring

/-- The words that reach an end state that nothing else uses. -/
def words (t : Wiring) : Language UInt8 := t.through * KStar.kstar t.loop

/-- The edges that the wiring adds from `p` to `q`. -/
def edges (t : Wiring) (p q : Nat) : LangGraph Nat UInt8 :=
  edge p q t.through ⊔ edge q q t.loop

/-- Both wirings between the same two states. -/
def par (t u : Wiring) : Wiring := ⟨t.through + u.through, t.loop + u.loop⟩

/-- One wiring after the other, joined in a state of their own. -/
def seq (t u : Wiring) : Wiring := ⟨t.words * u.through, u.loop⟩

/-- A node with negative captures ends in a state of its own. -/
def guarded (neg : List Capture) (t : Wiring) : Wiring :=
  if neg = [] then t else ⟨t.words, 0⟩

/-- `k` copies in sequence, up to the first arrival in the end state. -/
def chain (t : Wiring) : Nat → Language UInt8
  | 0 => 1
  | k + 1 => t.words ^ k * t.through

/-- A repetition.  Without an upper bound, the copies beyond `min` are loops at
the end state. -/
def multiply (t : Wiring) (min max : Nat) : Wiring where
  through := {w | ∃ k, min ≤ k ∧ k ≤ Max.max min max ∧ w ∈ t.chain k}
  loop := if max = 0 then t.through + t.loop else t.loop

/-- One to `k + 1` copies in sequence. -/
def optional (t : Wiring) : Nat → Wiring
  | 0 => t
  | k + 1 => t.par (t.seq (t.optional k))

theorem loop_optional (t : Wiring) (k : Nat) : (t.optional k).loop = t.loop := by
  induction k with
  | zero => rfl
  | succ k ih =>
    show t.loop + (t.optional k).loop = t.loop
    rw [ih, add_idem]

theorem mem_through_optional {t : Wiring} {k : Nat} {w : List UInt8} :
    w ∈ (t.optional k).through ↔ ∃ j ≤ k, w ∈ t.chain (j + 1) := by
  induction k generalizing w with
  | zero => simp [optional, chain]
  | succ k ih =>
    have hstep : ∀ j, t.words * t.chain (j + 1) = t.chain (j + 2) := by
      intro j
      rw [chain, chain, pow_succ', mul_assoc]
    show w ∈ t.through ∨ w ∈ t.words * (t.optional k).through ↔ _
    constructor
    · rintro (hw | hw)
      · exact ⟨0, Nat.zero_le _, by rwa [chain, pow_zero, one_mul]⟩
      · obtain ⟨u, hu, v, hv, rfl⟩ := Language.mem_mul.1 hw
        obtain ⟨j, hj, hv⟩ := ih.1 hv
        exact ⟨j + 1, Nat.succ_le_succ hj, hstep j ▸ Language.append_mem_mul hu hv⟩
    · rintro ⟨_ | j, hj, hw⟩
      · left
        rwa [chain, pow_zero, one_mul] at hw
      · right
        rw [← hstep] at hw
        obtain ⟨u, hu, v, hv, rfl⟩ := Language.mem_mul.1 hw
        exact Language.append_mem_mul hu (ih.2 ⟨j, Nat.le_of_succ_le_succ hj, hv⟩)

theorem iterate_seq (t u : Wiring) (k : Nat) :
    (t.seq)^[k] u = ⟨t.words ^ k * u.through, u.loop⟩ := by
  induction k with
  | zero => rw [pow_zero, one_mul]; rfl
  | succ k ih => rw [Function.iterate_succ_apply', ih, seq, pow_succ', mul_assoc]

theorem ext {t u : Wiring} (hthrough : ∀ w, w ∈ t.through ↔ w ∈ u.through)
    (hloop : t.loop = u.loop) : t = u := by
  cases t
  cases u
  have hthrough := Language.ext hthrough
  subst hthrough hloop
  rfl

/-- The wiring of a repetition with an upper bound. -/
theorem multiply_bounded (t : Wiring) (min : Nat) {max : Nat} (hmax : max ≠ 0) :
    t.multiply (min + 1) max = (t.seq)^[min] (t.optional (max - (min + 1))) := by
  rw [iterate_seq]
  refine Wiring.ext (fun w => ?_) ?_
  · constructor
    · rintro ⟨k, hmin, hk, hw⟩
      obtain ⟨j, rfl⟩ := Nat.exists_eq_add_of_le hmin
      have hchain : t.chain (min + 1 + j) = t.words ^ min * t.chain (j + 1) := by
        rw [chain, show min + 1 + j = min + j + 1 by omega, chain, pow_add, mul_assoc]
      rw [hchain] at hw
      obtain ⟨u, hu, v, hv, rfl⟩ := Language.mem_mul.1 hw
      exact Language.append_mem_mul hu (mem_through_optional.2 ⟨j, by omega, hv⟩)
    · intro hw
      obtain ⟨u, hu, v, hv, rfl⟩ := Language.mem_mul.1 hw
      obtain ⟨j, hj, hv⟩ := mem_through_optional.1 hv
      refine ⟨min + 1 + j, by omega, by omega, ?_⟩
      rw [show min + 1 + j = min + j + 1 by omega, chain, pow_add, mul_assoc]
      exact Language.append_mem_mul hu hv
  · rw [loop_optional, multiply, if_neg hmax]

/-- The wiring of an optional repetition with an upper bound. -/
theorem multiply_zero_bounded (t : Wiring) (max : Nat) :
    t.multiply 0 (max + 1) = Wiring.par ⟨1, 0⟩ (t.optional max) := by
  refine Wiring.ext (fun w => ?_) ?_
  · constructor
    · rintro ⟨_ | k, _, hk, hw⟩
      · exact Or.inl hw
      · exact Or.inr (mem_through_optional.2 ⟨k, by omega, hw⟩)
    · rintro (hw | hw)
      · exact ⟨0, Nat.le_refl _, by omega, hw⟩
      · obtain ⟨j, hj, hw⟩ := mem_through_optional.1 hw
        exact ⟨j + 1, Nat.zero_le _, by omega, hw⟩
  · show t.loop = 0 + (t.optional max).loop
    rw [loop_optional, zero_add]

/-- The wiring of a repetition without an upper bound. -/
theorem multiply_unbounded (t : Wiring) (min : Nat) :
    t.multiply min 0 = Wiring.par ⟨t.chain min, if min = 0 then 0 else t.loop⟩
      ⟨0, t.through + t.loop⟩ := by
  refine Wiring.ext (fun w => ?_) ?_
  · constructor
    · rintro ⟨k, hmin, hk, hw⟩
      have hkm : k = min := by omega
      exact Or.inl (hkm ▸ hw)
    · rintro (hw | hw)
      · exact ⟨min, Nat.le_refl _, by omega, hw⟩
      · exact hw.elim
  · show t.through + t.loop = (if min = 0 then 0 else t.loop) + (t.through + t.loop)
    split
    · rw [zero_add]
    · rw [add_left_comm, add_idem]

theorem edges_par (t u : Wiring) (p q : Nat) :
    (t.par u).edges p q = t.edges p q ⊔ u.edges p q := by
  unfold edges par
  rw [edge_add, edge_add]
  ac_rfl

theorem supportedOn_edges (t : Wiring) {p q n : Nat} (hp : p < n) (hq : q < n) :
    SupportedOn (Set.Iio n) (t.edges p q) :=
  (supportedOn_edge (S := Set.Iio n) hp hq _).sup (supportedOn_edge (S := Set.Iio n) hq hq _)

/-- A wiring without loops is one edge. -/
@[simp] theorem edges_noLoop (L : Language UInt8) (p q : Nat) :
    Wiring.edges ⟨L, 0⟩ p q = edge p q L := by
  rw [edges, edge_zero, sup_bot_eq]

theorem seq_one (t : Wiring) : t.seq ⟨1, 0⟩ = ⟨t.words, 0⟩ := by
  rw [seq, mul_one]

theorem one_seq (t : Wiring) : Wiring.seq ⟨1, 0⟩ t = t := by
  unfold seq words
  rw [kstar_zero, one_mul, one_mul]

/-- A fresh state between two wirings may be left out. -/
theorem agreeOn_seq (t u : Wiring) {E : LangGraph Nat UInt8} {p n e : Nat}
    (hn : Isolated E n) (hp : p ≠ n) (he : e ≠ n) :
    AgreeOn {x | x ≠ n} (E ⊔ t.edges p n ⊔ u.edges n e) (E ⊔ (t.seq u).edges p e) := by
  have hsplit : E ⊔ t.edges p n ⊔ u.edges n e =
      E ⊔ edge e e u.loop ⊔ detour p n e t.through t.loop u.through := by
    unfold edges detour
    ac_rfl
  have hjoin : E ⊔ (t.seq u).edges p e =
      E ⊔ edge e e u.loop ⊔ edge p e (t.through * KStar.kstar t.loop * u.through) := by
    unfold edges seq words
    ac_rfl
  have hisolated : Isolated (E ⊔ edge e e u.loop) n := by
    intro x w
    refine ⟨?_, ?_⟩
    · rintro (hw | ⟨rfl, _⟩)
      · exact (hn x w).1 hw
      · exact he rfl
    · rintro (hw | ⟨_, rfl, _⟩)
      · exact (hn x w).2 hw
      · exact he rfl
  rw [hsplit, hjoin]
  exact agreeOn_eliminate hisolated hp he

/-- The start state and the end state of a capture may be left out. -/
theorem agreeOn_capture (t : Wiring) {E : LangGraph Nat UInt8} {p e n : Nat}
    (hE : SupportedOn (Set.Iio n) E) (hp : p < n) (he : e < n) :
    AgreeOn (Set.Iio n) (E ⊔ edge p n 1 ⊔ edge (n + 1) e 1 ⊔ t.edges n (n + 1))
      (E ⊔ edge p e t.words) := by
  have hstart : Isolated (E ⊔ edge (n + 1) e 1) n := by
    intro x w
    refine ⟨?_, ?_⟩
    · rintro (hw | ⟨hx, _⟩)
      · exact (hE.isolated (by simp) x w).1 hw
      · omega
    · rintro (hw | ⟨_, hx, _⟩)
      · exact (hE.isolated (by simp) x w).2 hw
      · omega
  have hfirst := agreeOn_seq ⟨1, 0⟩ t hstart (p := p) (e := n + 1) (by omega) (by omega)
  have hend : Isolated E (n + 1) := hE.isolated (by simp)
  have hsecond := agreeOn_seq t ⟨1, 0⟩ hend (p := p) (e := e) (by omega) (by omega)
  rw [one_seq, edges_noLoop, sup_right_comm E] at hfirst
  rw [seq_one, edges_noLoop, edges_noLoop, sup_right_comm] at hsecond
  refine (hfirst.mono ?_).trans (hsecond.mono ?_)
  · intro x hx
    exact Nat.ne_of_lt hx
  · intro x hx
    exact Nat.ne_of_lt (Nat.lt_succ_of_lt hx)

end Wiring

namespace RegexAST

/-- The wiring of the sub-automaton of a tree.  A negated group without ranges
has no transition. -/
def wiring : RegexAST → Wiring
  | empty _ => ⟨1, 0⟩
  | literal _ c => ⟨byteLanguage (· = c), 0⟩
  | group _ g => ⟨byteLanguage fun c => g.Contains c ∧ ¬ (g.negate = true ∧ g.ranges = []), 0⟩
  | or _ l r =>
    (l.wiring.guarded l.negativeCaptures).par (r.wiring.guarded r.negativeCaptures)
  | cat _ l r =>
    (l.wiring.guarded l.negativeCaptures).seq (r.wiring.guarded r.negativeCaptures)
  | multiplication _ r min max => (r.wiring.guarded r.negativeCaptures).multiply min max
  | capture _ r _ => ⟨(r.wiring.guarded r.negativeCaptures).words, 0⟩

/-- The words that the construction reads for the tree.  A repetition without
upper bound may be continued after everything that ends in the same state. -/
def wiredWords (r : RegexAST) : Language UInt8 :=
  (r.wiring.guarded r.negativeCaptures).words

end RegexAST

/-! ## Construction steps -/

/-- `add` adds the wiring `t` between the root and the end state, and new
states of its own. -/
def Wires (add : Nfa → Nat → Nfa) (t : Wiring) : Prop :=
  ∀ nfa e, nfa.Closed → nfa.root < nfa.states.length → e < nfa.states.length →
    (add nfa e).Closed ∧ nfa.states.length ≤ (add nfa e).states.length ∧
      AgreeOn (Set.Iio nfa.states.length) (add nfa e).edges
        (nfa.edges ⊔ t.edges nfa.root e)

/-- `add` leaves the root where it was. -/
def KeepsRoot (add : Nfa → Nat → Nfa) : Prop := ∀ nfa e, (add nfa e).root = nfa.root

section Steps

variable {add add' : Nfa → Nat → Nfa} {t u : Wiring}

theorem Wires.congr (h : Wires add t) (heq : add = add') : Wires add' t := heq ▸ h

theorem Wires.congr_wiring (h : Wires add t) (heq : t = u) : Wires add u := heq ▸ h

/-- Resetting the root at the end does not matter. -/
theorem Wires.setRoot (h : Wires add t) (root : Nfa → Nat → Nat) :
    Wires (fun nfa e => (add nfa e).setRoot (root nfa e)) t := h

/-- A step that adds the words `L` on one edge. -/
theorem wires_edge {L : Language UInt8}
    (hedges : ∀ nfa e, nfa.root < nfa.states.length →
      (add nfa e).edges = nfa.edges ⊔ edge nfa.root e L)
    (hlen : ∀ nfa e, (add nfa e).states.length = nfa.states.length) :
    Wires add ⟨L, 0⟩ := by
  intro nfa e hclosed hroot he
  have hwired : nfa.edges ⊔ Wiring.edges ⟨L, 0⟩ nfa.root e = (add nfa e).edges := by
    rw [hedges nfa e hroot, Wiring.edges_noLoop]
  refine ⟨?_, (hlen nfa e).ge, ?_⟩
  · unfold Nfa.Closed
    rw [hlen, ← hwired]
    exact SupportedOn.sup hclosed (Wiring.supportedOn_edges _ hroot he)
  · rw [hwired]
    exact AgreeOn.refl _ _

/-- Two steps from the same root to the same end state. -/
theorem Wires.par (h : Wires add t) (h' : Wires add' u) :
    Wires (fun nfa e => add' ((add nfa e).setRoot nfa.root) e) (t.par u) := by
  intro nfa e hclosed hroot he
  obtain ⟨hclosed₁, hlen₁, hagree₁⟩ := h nfa e hclosed hroot he
  obtain ⟨hclosed₂, hlen₂, hagree₂⟩ :=
    h' ((add nfa e).setRoot nfa.root) e hclosed₁ (hroot.trans_le hlen₁) (he.trans_le hlen₁)
  refine ⟨hclosed₂, hlen₁.trans hlen₂, ?_⟩
  have hsub : Set.Iio nfa.states.length ⊆ Set.Iio (add nfa e).states.length :=
    Set.Iio_subset_Iio hlen₁
  have hsecond := hagree₁.sup (Wiring.supportedOn_edges u hroot he)
  rw [sup_assoc, ← Wiring.edges_par] at hsecond
  exact (hagree₂.mono hsub).trans hsecond

/-- A step to a new state, followed by a step from there. -/
theorem Wires.seq (h : Wires add t) (h' : Wires add' u) :
    Wires (fun nfa e =>
      add' ((add nfa.newState.1 nfa.newState.2).setRoot nfa.newState.2) e) (t.seq u) := by
  intro nfa e hclosed hroot he
  have hlen₀ := Nfa.length_newState nfa
  obtain ⟨hclosed₁, hlen₁, hagree₁⟩ :=
    h nfa.newState.1 nfa.states.length (Nfa.closed_newState hclosed)
      (by rw [hlen₀, Nfa.root_newState]; omega) (by omega)
  rw [hlen₀] at hlen₁ hagree₁
  rw [Nfa.newState_edges, Nfa.root_newState] at hagree₁
  obtain ⟨hclosed₂, hlen₂, hagree₂⟩ :=
    h' ((add nfa.newState.1 nfa.states.length).setRoot nfa.states.length) e hclosed₁
      (by rw [Nfa.root_setRoot, Nfa.states_setRoot]; omega)
      (by rw [Nfa.states_setRoot]; omega)
  rw [Nfa.states_setRoot] at hlen₂ hagree₂
  rw [Nfa.root_setRoot, Nfa.edges_setRoot] at hagree₂
  refine ⟨hclosed₂, (Nat.le_succ _).trans (hlen₁.trans hlen₂), ?_⟩
  have htwo : AgreeOn (Set.Iio (nfa.states.length + 1)) _ _ :=
    (hagree₂.mono (Set.Iio_subset_Iio hlen₁)).trans
      (hagree₁.sup (Wiring.supportedOn_edges u (by omega) (by omega)))
  -- the new state is a detour between the root and the end state
  have helim := Wiring.agreeOn_seq t u (hclosed.isolated (Nat.le_refl _))
    (Nat.ne_of_lt hroot) (Nat.ne_of_lt he)
  refine (htwo.mono ?_).trans (helim.mono ?_)
  · exact Set.Iio_subset_Iio (Nat.le_succ _)
  · intro p hp
    exact Nat.ne_of_lt hp

/-- A step from the end state back to itself. -/
theorem Wires.loopBack (h : Wires add t) :
    Wires (fun nfa e => add (nfa.setRoot e) e) ⟨0, t.through + t.loop⟩ := by
  intro nfa e hclosed hroot he
  obtain ⟨hclosed', hlen, hagree⟩ := h (nfa.setRoot e) e hclosed he he
  refine ⟨hclosed', hlen, ?_⟩
  have hwired : Wiring.edges ⟨0, t.through + t.loop⟩ nfa.root e = t.edges e e := by
    rw [Wiring.edges, edge_zero, bot_sup_eq, edge_add, Wiring.edges]
  rw [hwired]
  exact hagree

/-- Nothing is added. -/
theorem wires_none : Wires (fun nfa _ => nfa) ⟨0, 0⟩ := by
  intro nfa e hclosed _ _
  have hbot : Wiring.edges ⟨0, 0⟩ nfa.root e = ⊥ := by
    rw [Wiring.edges_noLoop, edge_zero]
  refine ⟨hclosed, Nat.le_refl _, ?_⟩
  rw [hbot, sup_bot_eq]
  exact AgreeOn.refl _ _

/-- A node whose negative captures are handled in front of the end state. -/
theorem Wires.guarded (neg : List Capture) (h : Wires add t) :
    Wires (Nfa.addWithNegativeCaptures neg add) (t.guarded neg) := by
  by_cases hneg : neg = []
  · refine (h.congr ?_).congr_wiring ?_
    · funext nfa e
      rw [Nfa.addWithNegativeCaptures, if_pos hneg]
    · rw [Wiring.guarded, if_pos hneg]
  intro nfa e hclosed hroot he
  rw [Wiring.guarded, if_neg hneg, Nfa.addWithNegativeCaptures, if_neg hneg]
  obtain ⟨hsnd, hlen₀, hroot₀, hedges₀⟩ :=
    Nfa.newStateFromNegativeCaptures_spec nfa neg e
  have hclosed₀ : (nfa.newStateFromNegativeCaptures neg e).1.Closed := by
    unfold Nfa.Closed
    rw [hedges₀, hlen₀]
    refine (SupportedOn.mono (Set.Iio_subset_Iio (Nat.le_succ _)) hclosed).sup ?_
    exact supportedOn_edge (S := Set.Iio (nfa.states.length + 1))
      (Nat.lt_succ_self _) (Nat.lt_succ_of_lt he) 1
  obtain ⟨hclosed₁, hlen₁, hagree₁⟩ :=
    h _ (nfa.newStateFromNegativeCaptures neg e).2 hclosed₀ (by omega) (by omega)
  rw [hlen₀] at hlen₁
  refine ⟨hclosed₁, (Nat.le_succ _).trans hlen₁, ?_⟩
  have helim := Wiring.agreeOn_seq t ⟨1, 0⟩ (hclosed.isolated (Nat.le_refl _))
    (Nat.ne_of_lt hroot) (Nat.ne_of_lt he)
  rw [hlen₀, hedges₀, hroot₀, hsnd, sup_right_comm] at hagree₁
  rw [Wiring.edges_noLoop, Wiring.seq_one] at helim
  show AgreeOn _ (add (nfa.newStateFromNegativeCaptures neg e).1
    (nfa.newStateFromNegativeCaptures neg e).2).edges _
  rw [hsnd]
  refine (hagree₁.mono ?_).trans (helim.mono ?_)
  · exact Set.Iio_subset_Iio (Nat.le_succ _)
  · intro p hp
    exact Nat.ne_of_lt hp

/-- Copies in sequence, followed by a step from the last intermediate state. -/
theorem Wires.copies (h : Wires add t) (h' : Wires add' u) (k : Nat) :
    Wires (fun nfa e => add' (Nfa.addCopies add k nfa) e) ((t.seq)^[k] u) := by
  induction k with
  | zero => exact h'
  | succ k ih =>
    rw [Function.iterate_succ_apply']
    exact h.seq ih

/-- Copies in sequence, each of which may end the repetition. -/
theorem Wires.optional (h : Wires add t) (hroot : KeepsRoot add) (k : Nat) :
    Wires (fun nfa e => add (Nfa.addOptionalCopies add e k nfa) e) (t.optional k) := by
  induction k with
  | zero => exact h
  | succ k ih =>
    refine (h.par (h.seq ih)).congr ?_
    funext nfa e
    rw [Nfa.setRoot_eq_self (hroot nfa e)]
    rfl

theorem wires_addRootSpontaneousTransition :
    Wires (fun nfa e => nfa.addRootSpontaneousTransition e) ⟨1, 0⟩ :=
  wires_edge (fun _ e hroot => Nfa.edges_addRootSpontaneousTransition hroot e)
    fun nfa _ => Nfa.length_modifyState nfa _ _

/-- The repetition of a step. -/
theorem Wires.multiplication (h : Wires add t) (hroot : KeepsRoot add) (min max : Nat) :
    Wires (Nfa.addMultiplication add min max) (t.multiply min max) := by
  have hopt : Wires (fun nfa e => nfa.addRootSpontaneousTransition e) ⟨1, 0⟩ :=
    wires_addRootSpontaneousTransition
  -- the required copies, the loop, and the optional copies are the cases of the source
  rcases Nat.eq_zero_or_pos max with rfl | hmax
  · rw [Wiring.multiply_unbounded]
    rcases min with _ | min
    · exact hopt.par h.loopBack
    · refine ((h.copies h min).par h.loopBack).congr_wiring ?_
      rw [Wiring.iterate_seq]
      rfl
  rcases min with _ | min
  · obtain ⟨max, rfl⟩ := Nat.exists_eq_succ_of_ne_zero hmax.ne'
    rw [Wiring.multiply_zero_bounded]
    have hall := (hopt.par (h.optional hroot max)).setRoot fun nfa _ => nfa.root
    exact hall.congr (Nfa.addMultiplication_zero_bounded add max).symm
  · rw [Wiring.multiply_bounded t min hmax.ne']
    by_cases hlt : min + 1 < max
    · have hcount : max - (min + 1) = max - (min + 1 + 1) + 1 := by omega
      rw [hcount]
      have hall := (h.copies (h.optional hroot (max - (min + 1 + 1) + 1)) min).setRoot
        fun nfa _ => nfa.root
      exact hall.congr (Nfa.addMultiplication_bounded add hlt).symm
    · have hcount : max - (min + 1) = 0 := by omega
      rw [hcount]
      have hall := (h.copies h min).setRoot fun nfa _ => nfa.root
      exact hall.congr (Nfa.addMultiplication_exact add hmax.ne' hlt).symm

/-- A step between the start state and the end state of a capture. -/
theorem Wires.capture (c : Capture) (h : Wires add t) :
    Wires (fun nfa e =>
      add ((nfa.newStartAndEndStatesFromPositiveCapture c e).1.setRoot
        (nfa.newStartAndEndStatesFromPositiveCapture c e).2.1)
        (nfa.newStartAndEndStatesFromPositiveCapture c e).2.2) ⟨t.words, 0⟩ := by
  intro nfa e hclosed hroot he
  beta_reduce
  obtain ⟨hsnd, hlen₀, hedges₀⟩ :=
    Nfa.newStartAndEndStatesFromPositiveCapture_spec hroot c e
  rw [hsnd]
  generalize (nfa.newStartAndEndStatesFromPositiveCapture c e).1 = opened at hlen₀ hedges₀ ⊢
  show (add (opened.setRoot nfa.states.length) (nfa.states.length + 1)).Closed ∧ _ ≤
    (add (opened.setRoot nfa.states.length) (nfa.states.length + 1)).states.length ∧ _
  have hclosed₀ : opened.Closed := by
    unfold Nfa.Closed
    rw [hedges₀, hlen₀]
    refine SupportedOn.sup (SupportedOn.sup ?_ ?_) ?_
    · exact SupportedOn.mono (Set.Iio_subset_Iio (by omega)) hclosed
    · exact supportedOn_edge (Set.mem_Iio.2 (by omega)) (Set.mem_Iio.2 (by omega)) 1
    · exact supportedOn_edge (Set.mem_Iio.2 (by omega)) (Set.mem_Iio.2 (by omega)) 1
  obtain ⟨hclosed₁, hlen₁, hagree₁⟩ :=
    h (opened.setRoot nfa.states.length) (nfa.states.length + 1) hclosed₀
      (by rw [Nfa.root_setRoot, Nfa.states_setRoot]; omega)
      (by rw [Nfa.states_setRoot]; omega)
  rw [Nfa.states_setRoot, hlen₀] at hlen₁ hagree₁
  rw [Nfa.edges_setRoot, Nfa.root_setRoot, hedges₀] at hagree₁
  refine ⟨hclosed₁, by omega, ?_⟩
  rw [Wiring.edges_noLoop]
  refine (hagree₁.mono ?_).trans (Wiring.agreeOn_capture t hclosed hroot he)
  exact Set.Iio_subset_Iio (by omega)

theorem wires_addRootInterval (range : Range) :
    Wires (fun nfa e => nfa.addRootInterval range e)
      ⟨RegexAST.byteLanguage fun c => range.1 ≤ c ∧ c ≤ range.2, 0⟩ :=
  wires_edge (fun _ e hroot => Nfa.edges_addRootInterval hroot range e)
    fun nfa _ => Nfa.length_modifyState nfa _ _

/-- The ranges of a group. -/
theorem wires_ranges (ranges : List Range) :
    Wires (fun nfa e => ranges.foldl (fun nfa range => nfa.addRootInterval range e) nfa)
      ⟨RegexAST.byteLanguage (RegexASTGroup.Covers ranges), 0⟩ := by
  induction ranges with
  | nil =>
    refine wires_none.congr_wiring (Wiring.ext (fun w => ?_) rfl)
    constructor
    · exact False.elim
    · rintro ⟨b, _, hb⟩
      exact absurd hb (RegexASTGroup.covers_nil _)
  | cons range ranges ih =>
    refine (((wires_addRootInterval range).par ih).congr rfl).congr_wiring ?_
    refine Wiring.ext (fun w => ?_) (zero_add 0)
    constructor
    · rintro (⟨b, rfl, hb⟩ | ⟨b, rfl, hb⟩)
      · exact ⟨b, rfl, (RegexASTGroup.covers_cons _ _ _).2 (Or.inl hb)⟩
      · exact ⟨b, rfl, (RegexASTGroup.covers_cons _ _ _).2 (Or.inr hb)⟩
    · rintro ⟨b, rfl, hb⟩
      rcases (RegexASTGroup.covers_cons _ _ _).1 hb with hb | hb
      · exact Or.inl ⟨b, rfl, hb⟩
      · exact Or.inr ⟨b, rfl, hb⟩

end Steps

/-! ## Every tree -/

namespace RegexAST

theorem keepsRoot_addWithNegativeCaptures {neg : List Capture} {add : Nfa → Nat → Nfa}
    (h : KeepsRoot add) : KeepsRoot (Nfa.addWithNegativeCaptures neg add) := by
  intro nfa e
  unfold Nfa.addWithNegativeCaptures
  split
  · exact h nfa e
  · exact (h _ _).trans (Nfa.newStateFromNegativeCaptures_spec nfa neg e).2.2.1

/-- Every node restores the root. -/
theorem keepsRoot_addToNfa (r : RegexAST) : KeepsRoot r.addToNfa := by
  induction r with
  | empty | literal => exact fun _ _ => rfl
  | group neg g =>
    intro nfa e
    rw [addToNfa]
    generalize g.transitionRanges = ranges
    induction ranges generalizing nfa with
    | nil => rfl
    | cons range ranges ih => exact ih _
  | or neg l r ihl ihr =>
    intro nfa e
    exact (keepsRoot_addWithNegativeCaptures ihr _ e).trans
      (keepsRoot_addWithNegativeCaptures ihl nfa e)
  | cat | multiplication => exact fun _ _ => rfl
  | capture neg r c ih =>
    intro nfa e
    exact Nfa.root_newStartAndEndStatesFromPositiveCapture nfa c e

/-- The construction of a tree adds its wiring. -/
theorem wires_addToNfa {r : RegexAST} (hwf : r.WellFormed) : Wires r.addToNfa r.wiring := by
  induction r with
  | empty neg => exact wires_addRootSpontaneousTransition
  | literal neg c =>
    refine (wires_addRootInterval (c, c)).congr_wiring (Wiring.ext (fun w => ?_) rfl)
    refine exists_congr fun b => and_congr_right fun _ => ?_
    exact ⟨fun h => Nat.le_antisymm h.2 h.1, fun h => ⟨h.ge, h.le⟩⟩
  | group neg g =>
    refine (wires_ranges g.transitionRanges).congr_wiring (Wiring.ext (fun w => ?_) rfl)
    have hbyte : ∀ b : UInt8, b.toNat ≤ cUnicodeMax := fun b => by
      have hb := b.toNat_lt
      unfold cUnicodeMax
      omega
    exact exists_congr fun b => and_congr_right fun _ =>
      g.covers_transitionRanges hwf (hbyte b)
  | or neg l r ihl ihr =>
    refine (((ihl hwf.1).guarded l.negativeCaptures).par
      ((ihr hwf.2).guarded r.negativeCaptures)).congr ?_
    funext nfa e
    rw [Nfa.setRoot_eq_self
      (keepsRoot_addWithNegativeCaptures (keepsRoot_addToNfa l) nfa e)]
    rfl
  | cat neg l r ihl ihr =>
    exact (((ihl hwf.1).guarded l.negativeCaptures).seq
      ((ihr hwf.2).guarded r.negativeCaptures)).setRoot fun nfa _ => nfa.root
  | multiplication neg r min max ih =>
    exact ((ih hwf.1).guarded r.negativeCaptures).multiplication
      (keepsRoot_addWithNegativeCaptures (keepsRoot_addToNfa r)) min max
  | capture neg r c ih =>
    exact (((ih hwf).guarded r.negativeCaptures).capture c).setRoot
      fun nfa e => (nfa.newStartAndEndStatesFromPositiveCapture c e).1.root

end RegexAST

/-! ## Trees without a shared loop -/

namespace RegexAST

/-- The construction of the tree leaves a loop at the end state it is given. -/
def leavesLoop : RegexAST → Bool
  | empty _ | literal _ _ | group _ _ | capture _ _ _ => false
  | or _ l r =>
    l.negativeCaptures = [] && l.leavesLoop || r.negativeCaptures = [] && r.leavesLoop
  | cat _ _ r => r.negativeCaptures = [] && r.leavesLoop
  | multiplication _ r _ max => max = 0 || r.negativeCaptures = [] && r.leavesLoop

/-- No loop is left at a state where another path ends too: not by a side of an
alternation, and not by the operand of a repetition that may be skipped.  No
group is a negated group without ranges. -/
def SeparateLoops : RegexAST → Prop
  | empty _ | literal _ _ => True
  | group _ g => ¬ (g.negate = true ∧ g.ranges = [])
  | or neg l r =>
    l.SeparateLoops ∧ r.SeparateLoops ∧ ((or neg l r).leavesLoop = false)
  | cat _ l r => l.SeparateLoops ∧ r.SeparateLoops
  | multiplication _ r min _ =>
    r.SeparateLoops ∧ (0 < min ∨ (r.negativeCaptures = [] && r.leavesLoop) = false)
  | capture _ r _ => r.SeparateLoops

instance decidableSeparateLoops : (r : RegexAST) → Decidable r.SeparateLoops
  | empty _ | literal _ _ => isTrue trivial
  | group _ g => inferInstanceAs (Decidable (¬ (g.negate = true ∧ g.ranges = [])))
  | or neg l r =>
    have := decidableSeparateLoops l
    have := decidableSeparateLoops r
    inferInstanceAs (Decidable
      (l.SeparateLoops ∧ r.SeparateLoops ∧ ((or neg l r).leavesLoop = false)))
  | cat _ l r =>
    have := decidableSeparateLoops l
    have := decidableSeparateLoops r
    inferInstanceAs (Decidable (l.SeparateLoops ∧ r.SeparateLoops))
  | multiplication _ r min _ =>
    have := decidableSeparateLoops r
    inferInstanceAs (Decidable (r.SeparateLoops ∧
      (0 < min ∨ (r.negativeCaptures = [] && r.leavesLoop) = false)))
  | capture _ r _ => decidableSeparateLoops r

theorem loop_guarded {r : RegexAST} (hloop : r.leavesLoop = false → r.wiring.loop = 0)
    (h : (r.negativeCaptures = [] && r.leavesLoop) = false) :
    (r.wiring.guarded r.negativeCaptures).loop = 0 := by
  unfold Wiring.guarded
  split
  · rename_i hneg
    exact hloop (by simpa [hneg] using h)
  · rfl

theorem loop_eq_zero {r : RegexAST} (h : r.leavesLoop = false) : r.wiring.loop = 0 := by
  induction r with
  | empty | literal | group | capture => rfl
  | or neg l r ihl ihr =>
    obtain ⟨hl, hr⟩ := Bool.or_eq_false_iff.1 h
    show (l.wiring.guarded _).loop + (r.wiring.guarded _).loop = 0
    rw [loop_guarded ihl hl, loop_guarded ihr hr, add_zero]
  | cat neg l r _ ihr => exact loop_guarded ihr h
  | multiplication neg r min max ih =>
    obtain ⟨hmax, hr⟩ := Bool.or_eq_false_iff.1 h
    show (if max = 0 then _ else _) = _
    rw [if_neg (of_decide_eq_false hmax)]
    exact loop_guarded ih hr

/-- Negative captures do not change the words. -/
theorem words_guarded (neg : List Capture) (t : Wiring) : (t.guarded neg).words = t.words := by
  unfold Wiring.guarded
  split
  · rfl
  · rw [Wiring.words, kstar_zero, mul_one]

end RegexAST

/-- The star of a sum, as runs of one summand between the other. -/
theorem kstar_add {L M : Language UInt8} :
    KStar.kstar (L + M) = KStar.kstar M * KStar.kstar (L * KStar.kstar M) := by
  refine le_antisymm (kstar_le_of_mul_le_right ?_ ?_) ?_
  · exact one_le_mul one_le_kstar one_le_kstar
  · rw [add_mul]
    refine add_le ?_ ?_
    · rw [← mul_assoc]
      exact mul_kstar_le_kstar.trans (le_mul_of_one_le_left' one_le_kstar)
    · rw [← mul_assoc]
      exact mul_le_mul_left mul_kstar_le_kstar _
  · have hM : KStar.kstar M ≤ KStar.kstar (L + M) := kstar_mono le_add_self
    have hL : L * KStar.kstar M ≤ KStar.kstar (L + M) :=
      (mul_le_mul' (le_self_add.trans le_kstar) hM).trans (kstar_mul_kstar _).le
    calc KStar.kstar M * KStar.kstar (L * KStar.kstar M)
        ≤ KStar.kstar (L + M) * KStar.kstar (KStar.kstar (L + M)) :=
          mul_le_mul' hM (kstar_mono hL)
      _ = KStar.kstar (L + M) := by rw [kstar_idem, kstar_mul_kstar]

namespace Wiring

theorem words_of_loop_eq_zero {t : Wiring} (h : t.loop = 0) : t.words = t.through := by
  rw [words, h, kstar_zero, mul_one]

/-- A word of `k` copies, followed by the loops. -/
theorem chain_mul_kstar {t : Wiring} {k : Nat} (h : 0 < k ∨ t.loop = 0) :
    t.chain k * KStar.kstar t.loop = t.words ^ k := by
  rcases k with _ | k
  · have hloop : t.loop = 0 := by simpa using h
    rw [hloop, kstar_zero, mul_one, pow_zero]
    rfl
  · rw [chain, mul_assoc, pow_succ]
    rfl

theorem mem_words_bounded {t : Wiring} {min max : Nat} (hmax : max ≠ 0) {w : List UInt8} :
    w ∈ (t.multiply min max).words ↔
      ∃ k, min ≤ k ∧ k ≤ Max.max min max ∧ w ∈ t.chain k * KStar.kstar t.loop := by
  have hloop : (t.multiply min max).loop = t.loop := if_neg hmax
  rw [words, hloop]
  constructor
  · intro hw
    obtain ⟨u, ⟨k, hmin, hk, hu⟩, v, hv, rfl⟩ := Language.mem_mul.1 hw
    exact ⟨k, hmin, hk, Language.append_mem_mul hu hv⟩
  · rintro ⟨k, hmin, hk, hw⟩
    obtain ⟨u, hu, v, hv, rfl⟩ := Language.mem_mul.1 hw
    have hthrough : u ∈ (t.multiply min max).through := ⟨k, hmin, hk, hu⟩
    exact Language.append_mem_mul hthrough hv

/-- Without an upper bound, the copies and the loops at the end state read the
star of the words. -/
theorem words_unbounded {t : Wiring} {min : Nat} (h : 0 < min ∨ t.loop = 0) :
    (t.multiply min 0).words = t.words ^ min * KStar.kstar t.words := by
  have hthrough : (t.multiply min 0).through = t.chain min := by
    ext w
    refine ⟨fun ⟨k, hmin, hk, hw⟩ => ?_, fun hw => ⟨min, le_refl _, by omega, hw⟩⟩
    rwa [show min = k by omega]
  have hloop : (t.multiply min 0).loop = t.through + t.loop := by
    rw [multiply, if_pos rfl]
  rw [words, hthrough, hloop, kstar_add, ← mul_assoc, chain_mul_kstar h]
  rfl

/-- A repetition reads the repetitions of the words of its operand, unless it
may be skipped and the operand leaves a loop. -/
theorem words_multiply {t : Wiring} {min max : Nat} (hmax : max = 0 ∨ min ≤ max)
    (h : 0 < min ∨ t.loop = 0) :
    (t.multiply min max).words = RegexAST.repetition t.words min max := by
  ext w
  rcases Nat.eq_zero_or_pos max with rfl | hpos
  · rw [words_unbounded h, Language.kstar_eq_iSup_pow, Language.mul_iSup, Language.mem_iSup]
    constructor
    · rintro ⟨k, hw⟩
      rw [← pow_add] at hw
      exact ⟨min + k, Nat.le_add_right _ _, Or.inl rfl, hw⟩
    · rintro ⟨k, hmin, _, hw⟩
      refine ⟨k - min, ?_⟩
      rwa [← pow_add, Nat.add_sub_cancel' hmin]
  · rw [mem_words_bounded hpos.ne']
    have hkstar : ∀ k, min ≤ k → t.chain k * KStar.kstar t.loop = t.words ^ k :=
      fun k hk => chain_mul_kstar (h.imp_left fun hmin => by omega)
    constructor
    · rintro ⟨k, hmin, hk, hw⟩
      rw [hkstar k hmin] at hw
      exact ⟨k, hmin, Or.inr (by omega), hw⟩
    · rintro ⟨k, hmin, hk, hw⟩
      refine ⟨k, hmin, by omega, ?_⟩
      rwa [hkstar k hmin]

end Wiring

/-- A tree whose loops are not shared is read as denoted. -/
theorem RegexAST.wiredWords_eq_denote {r : RegexAST} (hwf : r.WellFormed)
    (h : r.SeparateLoops) : r.wiredWords = r.denote := by
  rw [wiredWords, words_guarded]
  induction r with
  | empty neg | literal neg c =>
    exact Wiring.words_of_loop_eq_zero rfl
  | group neg g =>
    rw [Wiring.words_of_loop_eq_zero rfl]
    ext w
    exact exists_congr fun b => and_congr_right fun _ => and_iff_left h
  | or neg l r ihl ihr =>
    obtain ⟨hl, hr, hloop⟩ := h
    have hsides := Bool.or_eq_false_iff.1 hloop
    have hzero := loop_eq_zero hloop
    rw [Wiring.words_of_loop_eq_zero hzero]
    show (l.wiring.guarded _).through + (r.wiring.guarded _).through = l.denote + r.denote
    rw [← Wiring.words_of_loop_eq_zero (loop_guarded loop_eq_zero hsides.1),
      ← Wiring.words_of_loop_eq_zero (loop_guarded loop_eq_zero hsides.2),
      words_guarded, words_guarded, ihl hwf.1 hl, ihr hwf.2 hr]
  | cat neg l r ihl ihr =>
    show (l.wiring.guarded _).words * (r.wiring.guarded _).through *
      KStar.kstar (r.wiring.guarded _).loop = l.denote * r.denote
    rw [mul_assoc]
    show (l.wiring.guarded _).words * (r.wiring.guarded _).words = _
    rw [words_guarded, words_guarded, ihl hwf.1 h.1, ihr hwf.2 h.2]
  | multiplication neg r min max ih =>
    have hskip := h.2.imp_right (loop_guarded loop_eq_zero)
    show ((r.wiring.guarded _).multiply min max).words = repetition r.denote min max
    rw [Wiring.words_multiply hwf.2 hskip, words_guarded, ih hwf.1 h.1]
  | capture neg r c ih =>
    rw [Wiring.words_of_loop_eq_zero rfl]
    show (r.wiring.guarded _).words = r.denote
    rw [words_guarded, ih hwf h]

/-! ## Rules -/

namespace Nfa

/-- The states of an NFA after some rules have been added. -/
structure Built (nfa : Nfa) : Prop where
  closed : nfa.Closed
  root : nfa.root = 0
  nonempty : 0 < nfa.states.length
  noReturn : ∀ w, Walk nfa.edges 0 w 0 → w = []

theorem built_initial : Built initial := by
  have hedges : ∀ p q w, w ∉ initial.edges p q := by
    rintro p q w ⟨s, hs, hw⟩
    have hs : s = { id := 0 } := by
      rcases p with _ | p
      · exact (Option.some.inj hs).symm
      · cases hs
    subst hs
    rcases hw with ⟨_, t, ht, _⟩ | ⟨b, _, hb⟩
    · cases ht
    · cases hb
  refine ⟨fun p q w hw => absurd hw (hedges p q w), rfl, Nat.one_pos, fun w hw => ?_⟩
  cases hw with
  | nil => rfl
  | cons hedge _ => exact absurd hedge (hedges _ _ _)

/-- A rule adds an accepting state and states of its own.  The walks between
the states that existed stay as they were. -/
theorem Built.addToNfa {nfa : Nfa} (h : nfa.Built) {rule : LexicalRule}
    (hwf : rule.regex.WellFormed) :
    (rule.addToNfa nfa).Built ∧ nfa.states.length < (rule.addToNfa nfa).states.length ∧
      AgreeOn (Set.Iio nfa.states.length) (rule.addToNfa nfa).edges nfa.edges ∧
      ∀ w, Walk (rule.addToNfa nfa).edges 0 w nfa.states.length ↔
        w ∈ rule.regex.wiredWords := by
  have hkeep : (rule.addToNfa nfa).root = 0 :=
    (RegexAST.keepsRoot_addWithNegativeCaptures
      (RegexAST.keepsRoot_addToNfa rule.regex) _ _).trans h.root
  have hlen₀ := length_newAcceptingState nfa rule.variableId
  have hedges₀ := edges_newAcceptingState nfa rule.variableId
  have hclosed₀ : (nfa.newAcceptingState rule.variableId).1.Closed := by
    unfold Closed
    rw [hedges₀, hlen₀]
    exact SupportedOn.mono (Set.Iio_subset_Iio (Nat.le_succ _)) h.closed
  obtain ⟨hclosed, hlen, hagree⟩ :=
    ((RegexAST.wires_addToNfa hwf).guarded rule.regex.negativeCaptures)
      (nfa.newAcceptingState rule.variableId).1 nfa.states.length hclosed₀
      (by rw [root_newAcceptingState, hlen₀, h.root]; omega) (by omega)
  have hadd : Nfa.addWithNegativeCaptures rule.regex.negativeCaptures rule.regex.addToNfa
      (nfa.newAcceptingState rule.variableId).1 nfa.states.length = rule.addToNfa nfa := rfl
  rw [hadd] at hclosed
  rw [hlen₀, hadd] at hlen hagree
  rw [hedges₀, root_newAcceptingState, h.root] at hagree
  have hsink : Isolated nfa.edges nfa.states.length := h.closed.isolated (Nat.le_refl _)
  have hne : 0 ≠ nfa.states.length := (Nat.ne_of_lt h.nonempty)
  have hold : AgreeOn (Set.Iio nfa.states.length) (rule.addToNfa nfa).edges nfa.edges := by
    refine (hagree.mono ?_).trans ((agreeOn_sink hsink hne).mono ?_)
    · exact Set.Iio_subset_Iio (Nat.le_succ _)
    · intro p hp
      exact Nat.ne_of_lt hp
  refine ⟨⟨hclosed, hkeep, by omega, fun w hw => ?_⟩, hlen, hold, fun w => ?_⟩
  · exact h.noReturn w ((hold 0 h.nonempty 0 h.nonempty w).1 hw)
  · have hreturn : reach nfa.edges 0 0 = 1 := by
      ext v
      exact ⟨fun hv => h.noReturn v hv, fun hv => by cases hv; exact Walk.nil 0⟩
    rw [hagree 0 (Nat.succ_pos _) _ (Nat.lt_succ_self _), Wiring.edges,
      walk_sink_iff hsink hne, hreturn, one_mul]
    rfl

/-- The rules leave the NFA in good order. -/
theorem built_ofRules {rules : List LexicalRule}
    (hwf : ∀ rule ∈ rules, rule.regex.WellFormed) : (ofRules rules).Built := by
  induction rules using List.reverseRecOn with
  | nil => exact built_initial
  | append_singleton rules rule ih =>
    have hbuilt := ih fun rule' hrule' => hwf rule' (by simp [hrule'])
    rw [ofRules_append_singleton]
    exact (hbuilt.addToNfa (hwf rule (by simp))).1

/-- The accepting state of a rule is reached by the words of its wiring,
whichever rules follow. -/
theorem reaches_acceptingState {rules : List LexicalRule}
    (hwf : ∀ rule ∈ rules, rule.regex.WellFormed) {i : Nat} (hi : i < rules.length)
    (w : List UInt8) :
    (ofRules rules).Reaches (ofRules rules).root w (acceptingStateOf rules i) ↔
      w ∈ rules[i].regex.wiredWords := by
  rw [reaches_iff_walk, (built_ofRules hwf).root]
  induction rules using List.reverseRecOn with
  | nil => exact absurd hi (Nat.not_lt_zero i)
  | append_singleton rules rule ih =>
    have hwf' : ∀ rule' ∈ rules, rule'.regex.WellFormed :=
      fun rule' hrule' => hwf rule' (by simp [hrule'])
    have hbuilt := built_ofRules hwf'
    obtain ⟨-, -, hold, hnew⟩ := hbuilt.addToNfa (hwf rule (by simp))
    rw [ofRules_append_singleton]
    rcases Nat.lt_or_ge i rules.length with hlt | hge
    · have hstate : acceptingStateOf rules i < (ofRules rules).states.length := by
        rw [← acceptingStateOf_length]
        exact acceptingStateOf_lt_of_lt _ hlt (Nat.le_refl _)
      rw [acceptingStateOf_append_left rules rule hlt.le, hold 0 hbuilt.nonempty _ hstate, List.getElem_append_left hlt]
      exact ih hwf' hlt
    · have heq : i = rules.length := by
        rw [List.length_append, List.length_singleton] at hi
        omega
      subst heq
      rw [acceptingStateOf_append_left rules rule (Nat.le_refl _), acceptingStateOf_length,
        List.getElem_concat_length rfl]
      exact hnew w

/-- The accepting state of a rule is reached by exactly the words that the
regular expression denotes if and only if no shared loop adds a word and no
group without ranges takes one away. -/
theorem reaches_denote_iff_wiredWords_eq {rules : List LexicalRule}
    (hwf : ∀ rule ∈ rules, rule.regex.WellFormed) {i : Nat} (hi : i < rules.length) :
    (∀ w, (ofRules rules).Reaches (ofRules rules).root w (acceptingStateOf rules i) ↔
      w ∈ rules[i].regex.denote) ↔
      rules[i].regex.wiredWords = rules[i].regex.denote := by
  constructor
  · intro h
    ext w
    rw [← reaches_acceptingState hwf hi w]
    exact h w
  · intro h w
    rw [reaches_acceptingState hwf hi w, h]

/-- The rule `a`, whose words are as denoted. -/
theorem reaches_denote_iff_wiredWords_eq_literal :
    (∀ w, (ofRules [⟨0, .literal [] 97⟩]).Reaches (ofRules [⟨0, .literal [] 97⟩]).root w
        (acceptingStateOf [⟨0, .literal [] 97⟩] 0) ↔
      w ∈ RegexAST.denote (.literal [] 97)) ↔
      RegexAST.wiredWords (.literal [] 97) = RegexAST.denote (.literal [] 97) :=
  have hwf : ∀ rule ∈ [(⟨0, .literal [] 97⟩ : LexicalRule)], rule.regex.WellFormed := by
    simp [RegexAST.WellFormed]
  reaches_denote_iff_wiredWords_eq hwf (i := 0) (by decide)

/-- The rule `a+|b`. -/
def sharedLoopRule : LexicalRule :=
  ⟨0, .or [] (.multiplication [] (.literal [] 97) 1 0) (.literal [] 98)⟩

/-- The rule `a+|b` also accepts `ba`. -/
theorem sharedLoopRule_reaches_not_denote :
    ¬ ∀ w, (ofRules [sharedLoopRule]).Reaches (ofRules [sharedLoopRule]).root w
        (acceptingStateOf [sharedLoopRule] 0) ↔
      w ∈ sharedLoopRule.regex.denote := by
  intro h
  have hreach : (ofRules [sharedLoopRule]).Reaches 0 [98, 97] 1 :=
    Reaches.byte (r := 1) rfl (by decide)
      (Reaches.byte (r := 1) rfl (by decide) (Reaches.refl 1))
  rcases (h [98, 97]).1 hreach with ⟨k, _, _, hk⟩ | ⟨b, hb, _⟩
  · have hbytes := RegexAST.forall_mem_of_mem_byteLanguage_pow hk
    exact absurd (hbytes 98 (by simp)) (by decide)
  · cases hb

end Nfa

end LogSurgeon
