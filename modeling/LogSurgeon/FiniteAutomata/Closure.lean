import Mathlib.Algebra.BigOperators.Group.Finset.Basic
import Mathlib.Algebra.Order.BigOperators.Group.Finset
import Mathlib.Data.Set.Finite.Basic
import LogSurgeon.FiniteAutomata.DeterminizationConfiguration
import LogSurgeon.FiniteAutomata.NfaGraph

/-!
# The spontaneous closure

`SpontaneousPath nfa p ops q` is a path of spontaneous transitions from `p` to
`q` that performs the tag operations `ops`.  `mem_spontaneousClosure` says that
the worklist of the closure finds exactly the ends of these paths, each with
the operations of the path added to the lookahead.

`exists_spontaneousClosure` says that the worklist ends whenever the paths from
a state have finitely many ends and operations.
-/

namespace LogSurgeon

open Lib

namespace Nfa

/-- A path of spontaneous transitions with its tag operations. -/
inductive SpontaneousPath (nfa : Nfa) : Nat → List TagOperation → Nat → Prop where
  | refl (p : Nat) : SpontaneousPath nfa p [] p
  | snoc {p q : Nat} {ops : List TagOperation} {s : NfaState}
      {t : NfaSpontaneousTransition} (hpath : SpontaneousPath nfa p ops q)
      (hs : nfa.state? q = some s) (ht : t ∈ s.spontaneousTransitions) :
      SpontaneousPath nfa p (ops ++ t.tagOps) t.destState

/-- From every state, the spontaneous paths have finitely many ends and lists
of operations. -/
def FiniteClosures (nfa : Nfa) : Prop :=
  ∀ p, {e : Nat × List TagOperation | nfa.SpontaneousPath p e.2 e.1}.Finite

theorem SpontaneousPath.reaches {nfa : Nfa} {p q : Nat} {ops : List TagOperation}
    (h : nfa.SpontaneousPath p ops q) {w : List UInt8} {r : Nat}
    (hrest : nfa.Reaches q w r) : nfa.Reaches p w r := by
  induction h with
  | refl => exact hrest
  | snoc _ hs ht ih => exact ih (Reaches.spontaneous hs ht hrest)

end Nfa

namespace DeterminizationConfiguration

variable {nfa : Nfa}

theorem childOf_eq (config : DeterminizationConfiguration) (t : NfaSpontaneousTransition) :
    config.childOf t =
      { config with nfaState := t.destState, lookahead := config.lookahead ++ t.tagOps } := by
  have hfold : ∀ (ops : List TagOperation) (c : DeterminizationConfiguration),
      c.nfaState = t.destState →
      ops.foldl (fun child tagOp =>
          child.childConfigurationWithNewStateAndTag t.destState tagOp) c =
        { c with lookahead := c.lookahead ++ ops } := by
    intro ops
    induction ops with
    | nil => intro c _; simp
    | cons op ops ih =>
      intro c hc
      rw [List.foldl_cons, ih _ rfl]
      simp [childConfigurationWithNewStateAndTag, hc]
  rw [childOf, hfold _ _ rfl]
  rfl

theorem mem_children {config child : DeterminizationConfiguration} :
    child ∈ config.children nfa ↔
      ∃ s, nfa.state? config.nfaState = some s ∧
        ∃ t ∈ s.spontaneousTransitions, child = config.childOf t := by
  unfold children
  cases nfa.state? config.nfaState with
  | none => simp
  | some s => simp [eq_comm]

/-- The configuration at the end of a spontaneous path. -/
def follow (config : DeterminizationConfiguration) (ops : List TagOperation) (q : Nat) :
    DeterminizationConfiguration :=
  { config with nfaState := q, lookahead := config.lookahead ++ ops }

/-- `child` is a configuration at the end of a spontaneous path. -/
def LeadsTo (nfa : Nfa) (config child : DeterminizationConfiguration) : Prop :=
  ∃ ops q, nfa.SpontaneousPath config.nfaState ops q ∧ child = config.follow ops q

theorem LeadsTo.refl (config : DeterminizationConfiguration) : LeadsTo nfa config config :=
  ⟨[], config.nfaState, .refl _, by simp [follow]⟩

theorem LeadsTo.step {config child child' : DeterminizationConfiguration}
    (h : LeadsTo nfa config child) (hchild : child' ∈ child.children nfa) :
    LeadsTo nfa config child' := by
  obtain ⟨ops, q, hpath, rfl⟩ := h
  obtain ⟨s, hs, t, ht, rfl⟩ := mem_children.1 hchild
  refine ⟨ops ++ t.tagOps, t.destState, .snoc hpath hs ht, ?_⟩
  rw [childOf_eq]
  simp [follow]

/-- A set with the configuration that is closed under children holds everything
that the configuration leads to. -/
theorem LeadsTo.mem_of_closed {config child : DeterminizationConfiguration}
    (h : LeadsTo nfa config child) {P : DeterminizationConfiguration → Prop}
    (hconfig : P config) (hclosed : ∀ c, P c → ∀ c' ∈ c.children nfa, P c') : P child := by
  obtain ⟨ops, q, hpath, rfl⟩ := h
  induction hpath with
  | refl => simpa [follow] using hconfig
  | @snoc q ops s t hpath hs ht ih =>
    refine hclosed _ ih _ (mem_children.2 ⟨s, hs, t, ht, ?_⟩)
    rw [childOf_eq]
    simp [follow]

/-! ## What the worklist finds -/

/-- The configurations that were found are closed under children, up to those
that are still on the stack. -/
def ClosedUpTo (nfa : Nfa) (stack : List DeterminizationConfiguration)
    (found : ConfigurationSet) : Prop :=
  ∀ c ∈ found, ∀ c' ∈ c.children nfa, c' ∈ found ∨ c' ∈ stack

theorem closureLoop_spec (config : DeterminizationConfiguration) {fuel : Nat}
    {stack : List DeterminizationConfiguration} {found result : ConfigurationSet}
    (h : closureLoop nfa fuel stack found = some result)
    (hclosed : ClosedUpTo nfa stack found)
    (hsound : ∀ c, c ∈ found ∨ c ∈ stack → LeadsTo nfa config c) :
    (∀ c, c ∈ found ∨ c ∈ stack → c ∈ result) ∧ ClosedUpTo nfa [] result ∧
      ∀ c ∈ result, LeadsTo nfa config c := by
  induction fuel generalizing stack found with
  | zero =>
    rcases stack with _ | ⟨c, stack⟩
    · cases h
      exact ⟨by simp, hclosed, fun c hc => hsound c (Or.inl hc)⟩
    · cases h
  | succ fuel ih =>
    rcases stack with _ | ⟨c, stack⟩
    · cases h
      exact ⟨by simp, hclosed, fun c hc => hsound c (Or.inl hc)⟩
    rw [closureLoop] at h
    split at h
    · rename_i hfound
      have hfound : c ∈ found := OrderedSet.contains_iff.1 hfound
      obtain ⟨hsub, hrest⟩ := ih h
        (by
          intro x hx y hy
          rcases hclosed x hx y hy with hy | hy
          · exact Or.inl hy
          · rcases List.mem_cons.1 hy with rfl | hy
            · exact Or.inl hfound
            · exact Or.inr hy)
        (by
          rintro x (hx | hx)
          · exact hsound x (Or.inl hx)
          · exact hsound x (Or.inr (List.mem_cons_of_mem _ hx)))
      refine ⟨?_, hrest⟩
      rintro x (hx | hx)
      · exact hsub x (Or.inl hx)
      · rcases List.mem_cons.1 hx with rfl | hx
        · exact hsub x (Or.inl hfound)
        · exact hsub x (Or.inr hx)
    · have hmem : ∀ x, x ∈ c.updateReachableConfigs nfa stack ↔
          x ∈ c.children nfa ∨ x ∈ stack := by
        intro x
        simp [updateReachableConfigs]
      have hc : LeadsTo nfa config c := hsound c (Or.inr (by simp))
      obtain ⟨hsub, hrest⟩ := ih h
        (by
          intro x hx y hy
          rw [hmem]
          rcases OrderedSet.mem_insert.1 hx with rfl | hx
          · exact Or.inr (Or.inl hy)
          · rcases hclosed x hx y hy with hy | hy
            · exact Or.inl (OrderedSet.mem_insert.2 (Or.inr hy))
            · rcases List.mem_cons.1 hy with rfl | hy
              · exact Or.inl (OrderedSet.mem_insert.2 (Or.inl rfl))
              · exact Or.inr (Or.inr hy))
        (by
          rintro x (hx | hx)
          · rcases OrderedSet.mem_insert.1 hx with rfl | hx
            · exact hc
            · exact hsound x (Or.inl hx)
          · rcases (hmem x).1 hx with hx | hx
            · exact hc.step hx
            · exact hsound x (Or.inr (List.mem_cons_of_mem _ hx)))
      refine ⟨?_, hrest⟩
      rintro x (hx | hx)
      · exact hsub x (Or.inl (OrderedSet.mem_insert.2 (Or.inr hx)))
      · rcases List.mem_cons.1 hx with rfl | hx
        · exact hsub x (Or.inl (OrderedSet.mem_insert.2 (Or.inl rfl)))
        · exact hsub x (Or.inr ((hmem x).2 (Or.inr hx)))

/-- The closure holds exactly what the configuration leads to. -/
theorem mem_spontaneousClosure {fuel : Nat} {config : DeterminizationConfiguration}
    {closure : ConfigurationSet} (h : spontaneousClosure nfa fuel config = some closure)
    (c : DeterminizationConfiguration) : c ∈ closure ↔ LeadsTo nfa config c := by
  obtain ⟨hsub, hclosed, hsound⟩ := closureLoop_spec config h
    (by intro x hx; simp at hx)
    (by
      rintro x (hx | hx)
      · simp at hx
      · rw [List.mem_singleton.1 hx]
        exact LeadsTo.refl config)
  refine ⟨hsound c, fun hc => hc.mem_of_closed (hsub config (Or.inr (by simp))) ?_⟩
  intro x hx y hy
  exact (hclosed x hx y hy).resolve_right (by simp)

/-! ## The worklist ends -/

/-- The number of spontaneous transitions of a state. -/
def outDegree (nfa : Nfa) (p : Nat) : Nat :=
  match nfa.state? p with
  | some s => s.spontaneousTransitions.length
  | none => 0

theorem length_children (config : DeterminizationConfiguration) :
    (config.children nfa).length = outDegree nfa config.nfaState := by
  unfold children outDegree
  cases nfa.state? config.nfaState with
  | none => rfl
  | some s => exact List.length_map _

open Classical in
/-- The transitions that are still to be pushed: those of the ends of paths
that have not been found. -/
noncomputable def pending (nfa : Nfa) (config : DeterminizationConfiguration)
    (ends : Finset (Nat × List TagOperation)) (found : ConfigurationSet) : Nat :=
  ∑ e ∈ ends.filter fun e => config.follow e.2 e.1 ∉ found, outDegree nfa e.1

/-- An end that is found takes its transitions out of the pending ones. -/
theorem pending_insert {config c : DeterminizationConfiguration}
    {ends : Finset (Nat × List TagOperation)} {found : ConfigurationSet}
    (hends : ∀ e, e ∈ ends ↔ nfa.SpontaneousPath config.nfaState e.2 e.1)
    (hc : LeadsTo nfa config c) (hnew : c ∉ found) :
    pending nfa config ends (found.insert c) + (c.children nfa).length ≤
      pending nfa config ends found := by
  classical
  obtain ⟨ops, q, hpath, rfl⟩ := hc
  have hmem : (q, ops) ∈ ends.filter fun e => config.follow e.2 e.1 ∉ found :=
    Finset.mem_filter.2 ⟨(hends (q, ops)).2 hpath, hnew⟩
  have hsub : ends.filter (fun e => config.follow e.2 e.1 ∉ found.insert (config.follow ops q)) ⊆
      (ends.filter fun e => config.follow e.2 e.1 ∉ found).erase (q, ops) := by
    intro e he
    obtain ⟨he, hfound⟩ := Finset.mem_filter.1 he
    rw [OrderedSet.mem_insert, not_or] at hfound
    refine Finset.mem_erase.2 ⟨?_, Finset.mem_filter.2 ⟨he, hfound.2⟩⟩
    rintro rfl
    exact hfound.1 rfl
  have hsum := Finset.sum_le_sum_of_subset (f := fun e => outDegree nfa e.1) hsub
  rw [length_children]
  unfold pending
  rw [← Finset.sum_erase_add _ _ hmem]
  exact Nat.add_le_add_right hsum _

/-- Every step pops one configuration, and a transition is pushed once. -/
theorem exists_closureLoop {config : DeterminizationConfiguration}
    {ends : Finset (Nat × List TagOperation)}
    (hends : ∀ e, e ∈ ends ↔ nfa.SpontaneousPath config.nfaState e.2 e.1)
    {fuel : Nat} {stack : List DeterminizationConfiguration} {found : ConfigurationSet}
    (hstack : ∀ c ∈ stack, LeadsTo nfa config c)
    (hfuel : stack.length + pending nfa config ends found ≤ fuel) :
    ∃ result, closureLoop nfa fuel stack found = some result := by
  induction fuel generalizing stack found with
  | zero =>
    rcases stack with _ | ⟨c, stack⟩
    · exact ⟨found, by rw [closureLoop]⟩
    · rw [List.length_cons] at hfuel
      omega
  | succ fuel ih =>
    rcases stack with _ | ⟨c, stack⟩
    · exact ⟨found, by rw [closureLoop]⟩
    rw [List.length_cons] at hfuel
    have hrest : ∀ x ∈ stack, LeadsTo nfa config x :=
      fun x hx => hstack x (List.mem_cons_of_mem _ hx)
    have hc : LeadsTo nfa config c := hstack c (by simp)
    rw [closureLoop]
    split
    · exact ih hrest (by omega)
    · rename_i hnew
      have hnew : c ∉ found := fun hmem => hnew (OrderedSet.contains_iff.2 hmem)
      have hpending := pending_insert hends hc hnew
      refine ih ?_ ?_
      · intro x hx
        rcases List.mem_append.1 hx with hx | hx
        · exact hc.step (List.mem_reverse.1 hx)
        · exact hrest x hx
      · rw [updateReachableConfigs, List.length_append, List.length_reverse]
        omega

/-- With finite closures, one number of steps is enough for every
configuration. -/
theorem exists_spontaneousClosure (hfinite : nfa.FiniteClosures) :
    ∃ bound, ∀ fuel, bound ≤ fuel → ∀ config,
      ∃ closure, spontaneousClosure nfa fuel config = some closure := by
  classical
  let ends : Nat → Finset (Nat × List TagOperation) := fun p => (hfinite p).toFinset
  let cost : Nat → Nat := fun p => 1 + ∑ e ∈ ends p, outDegree nfa e.1
  refine ⟨∑ p ∈ Finset.range (nfa.states.length + 1), cost p, fun fuel hfuel config => ?_⟩
  have hends : ∀ e, e ∈ ends config.nfaState ↔
      nfa.SpontaneousPath config.nfaState e.2 e.1 := by
    intro e
    exact Set.Finite.mem_toFinset _
  have hpending : pending nfa config (ends config.nfaState) OrderedSet.empty ≤
      ∑ e ∈ ends config.nfaState, outDegree nfa e.1 :=
    Finset.sum_le_sum_of_subset (Finset.filter_subset _ _)
  refine exists_closureLoop hends ?_ ?_
  · intro c hc
    rw [List.mem_singleton.1 hc]
    exact LeadsTo.refl config
  · rw [List.length_singleton]
    rcases Nat.lt_or_ge config.nfaState nfa.states.length with hlt | hge
    · have hcost : cost config.nfaState ≤
          ∑ p ∈ Finset.range (nfa.states.length + 1), cost p :=
        Finset.single_le_sum (fun p _ => Nat.zero_le (cost p))
          (Finset.mem_range.2 (Nat.lt_succ_of_lt hlt))
      have hcostEq : cost config.nfaState =
        1 + ∑ e ∈ ends config.nfaState, outDegree nfa e.1 := rfl
      omega
    · -- a pointer to no state has no transitions
      have hnone : nfa.state? config.nfaState = none := List.getElem?_eq_none_iff.2 hge
      have hzero : ∑ e ∈ ends config.nfaState, outDegree nfa e.1 = 0 := by
        refine Finset.sum_eq_zero fun e he => ?_
        have hpath := (hends e).1 he
        have hend : ∀ {ops q}, nfa.SpontaneousPath config.nfaState ops q →
            q = config.nfaState := by
          intro ops q h
          induction h with
          | refl => rfl
          | snoc _ hs _ ih =>
            rw [ih, hnone] at hs
            cases hs
        rw [outDegree, hend hpath, hnone]
      have hone : 1 ≤ ∑ p ∈ Finset.range (nfa.states.length + 1), cost p := by
        refine le_trans ?_ (Finset.single_le_sum (fun p _ => Nat.zero_le (cost p))
          (Finset.mem_range.2 (Nat.succ_pos _) : 0 ∈ _))
        exact Nat.le_add_right 1 _
      omega

end DeterminizationConfiguration

end LogSurgeon
