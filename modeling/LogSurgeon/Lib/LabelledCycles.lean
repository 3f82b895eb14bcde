import Mathlib.Data.Set.Card
import Mathlib.Data.Set.Finite.List
import Mathlib.Order.Basic
import LogSurgeon.Lib.LangGraph

/-!
# Walks that spell finitely many words

A graph with finitely many labels has finitely many words along the walks from a
state exactly when no cycle with a label can be reached from there
(`finite_walks_iff`).  A rank that never decreases, and that increases along all
labels but the empty word, excludes these cycles (`Ranked.not_labelledCycle`).
-/

namespace LogSurgeon.Lib.LangGraph

variable {σ α : Type*} {E : LangGraph σ α} {p q : σ} {u w : List α}

/-- From `p`, a cycle that spells more than the empty word can be reached. -/
def LabelledCycle (E : LangGraph σ α) (p : σ) : Prop :=
  ∃ q u w, Walk E p u q ∧ w ≠ [] ∧ Walk E q w q

/-- Finitely many words label the edges. -/
def FinitelyLabelled (E : LangGraph σ α) : Prop :=
  {e : σ × List α × σ | e.2.1 ∈ E e.1 e.2.2}.Finite

theorem LabelledCycle.of_walk (h : LabelledCycle E q) (hpq : Walk E p u q) : LabelledCycle E p := by
  obtain ⟨r, v, w, hqr, hw, hcycle⟩ := h
  exact ⟨r, u ++ v, w, hpq.append hqr, hw, hcycle⟩

/-! ## Without a cycle -/

/-- Without a reachable cycle, a walk leaves every state at most once by a label
that is not empty. -/
theorem Walk.exists_sources {bound : Nat} (hbound : ∀ p q, ∀ w ∈ E p q, w.length ≤ bound)
    (h : Walk E p w q) (hcycle : ¬ LabelledCycle E p) :
    ∃ sources : List σ, sources.Nodup ∧ w.length ≤ bound * sources.length ∧
      ∀ s ∈ sources, (∃ v, Walk E p v s) ∧ ∃ r w, w ∈ E s r := by
  induction h with
  | nil p => exact ⟨[], List.nodup_nil, by simp, by simp⟩
  | @cons p q r u v hedge hwalk ih =>
    have hfirst : Walk E p u q := Walk.single hedge
    obtain ⟨sources, hnodup, hlength, hsources⟩ := ih fun h => hcycle (h.of_walk hfirst)
    have hreach : ∀ s ∈ sources, ∃ v, Walk E p v s := by
      intro s hs
      obtain ⟨⟨v, hv⟩, -⟩ := hsources s hs
      exact ⟨u ++ v, hfirst.append hv⟩
    by_cases hu : u = []
    · refine ⟨sources, hnodup, by simpa [hu] using hlength, fun s hs => ?_⟩
      exact ⟨hreach s hs, (hsources s hs).2⟩
    · refine ⟨p :: sources, List.nodup_cons.2 ⟨fun hp => ?_, hnodup⟩, ?_, fun s hs => ?_⟩
      · obtain ⟨⟨v, hv⟩, -⟩ := hsources p hp
        exact hcycle ⟨p, [], u ++ v, Walk.nil p, by simp [hu], hfirst.append hv⟩
      · have := hbound p q u hedge
        rw [List.length_append, List.length_cons, Nat.mul_succ]
        omega
      · rcases List.mem_cons.1 hs with rfl | hs
        · exact ⟨⟨[], Walk.nil s⟩, q, u, hedge⟩
        · exact ⟨hreach s hs, (hsources s hs).2⟩

/-- The end of a walk is its start or the target of an edge, and the letters are
those of the edges. -/
theorem Walk.target (h : Walk E p w q) :
    (q = p ∨ ∃ s u, u ∈ E s q) ∧ ∀ a ∈ w, ∃ s r, ∃ u ∈ E s r, a ∈ u := by
  induction h with
  | nil p => exact ⟨Or.inl rfl, by simp⟩
  | @cons p q r u v hedge hwalk ih =>
    obtain ⟨htarget, hletters⟩ := ih
    refine ⟨?_, fun a ha => ?_⟩
    · rcases htarget with rfl | htarget
      · exact Or.inr ⟨p, u, hedge⟩
      · exact Or.inr htarget
    · rcases List.mem_append.1 ha with ha | ha
      · exact ⟨p, q, u, hedge, ha⟩
      · exact hletters a ha

theorem finite_lists {A : Set α} (hA : A.Finite) (n : Nat) :
    {w : List α | w.length ≤ n ∧ ∀ a ∈ w, a ∈ A}.Finite := by
  have : Finite A := hA
  refine ((List.finite_length_le A n).image (List.map Subtype.val)).subset ?_
  intro w hw
  obtain ⟨hlength, hletters⟩ := hw
  refine ⟨w.attach.map fun a => ⟨a.1, hletters a.1 a.2⟩, ?_, ?_⟩
  · simpa using hlength
  · simp

/-! ## Ranks -/

/-- The rank never decreases along an edge, and increases along a label that is
not empty. -/
def Ranked {ι : Type*} [Preorder ι] (E : LangGraph σ α) (rank : σ → ι) : Prop :=
  ∀ p q, ∀ w ∈ E p q, rank p ≤ rank q ∧ (w ≠ [] → rank p < rank q)

theorem Ranked.sup {ι : Type*} [Preorder ι] {E' : LangGraph σ α} {rank : σ → ι}
    (h : Ranked E rank) (h' : Ranked E' rank) : Ranked (E ⊔ E') rank := by
  intro p q w hw
  rcases hw with hw | hw
  · exact h p q w hw
  · exact h' p q w hw

theorem ranked_edge {ι : Type*} [Preorder ι] {rank : σ → ι} (hle : rank p ≤ rank q)
    (hlt : w ≠ [] → rank p < rank q) : Ranked (edge p q {w}) rank := by
  intro x y v hv
  obtain ⟨rfl, rfl, hv⟩ := hv
  obtain rfl : v = w := hv
  exact ⟨hle, hlt⟩

theorem Ranked.walk {ι : Type*} [Preorder ι] {rank : σ → ι} (h : Ranked E rank)
    (hwalk : Walk E p w q) : rank p ≤ rank q ∧ (w ≠ [] → rank p < rank q) := by
  induction hwalk with
  | nil p => exact ⟨le_refl _, fun hne => absurd rfl hne⟩
  | @cons p q r u v hedge hwalk ih =>
    obtain ⟨hle, hlt⟩ := h p q u hedge
    refine ⟨hle.trans ih.1, fun hne => ?_⟩
    by_cases hu : u = []
    · subst hu
      exact hle.trans_lt (ih.2 (by simpa using hne))
    · exact (hlt hu).trans_le ih.1

/-- A ranked graph has no cycle with a label. -/
theorem Ranked.not_labelledCycle {ι : Type*} [Preorder ι] {rank : σ → ι} (h : Ranked E rank)
    (p : σ) : ¬ LabelledCycle E p := by
  intro hcycle
  obtain ⟨q, u, w, -, hw, hcycle⟩ := hcycle
  exact lt_irrefl _ ((h.walk hcycle).2 hw)

/-! ## Around a cycle -/

theorem Walk.iterate (h : Walk E p w p) (k : Nat) :
    Walk E p (List.replicate k w).flatten p := by
  induction k with
  | zero => exact Walk.nil p
  | succ k ih =>
    rw [List.replicate_succ, List.flatten_cons]
    exact h.append ih

/-- The walks from a state have finitely many ends and words exactly when no
cycle with a label can be reached. -/
theorem finite_walks_iff (hE : FinitelyLabelled E) :
    {e : σ × List α | Walk E p e.2 e.1}.Finite ↔ ¬ LabelledCycle E p := by
  constructor
  · intro hfinite hcycle
    obtain ⟨q, u, w, hpq, hw, hcycle⟩ := hcycle
    have hinjective : Function.Injective fun k : Nat => (q, u ++ (List.replicate k w).flatten) := by
      intro k l heq
      have hlength := congrArg (fun e : σ × List α => e.2.length) heq
      simp only [List.length_append, List.length_flatten, List.map_replicate,
        List.sum_replicate_nat] at hlength
      exact Nat.eq_of_mul_eq_mul_right (List.length_pos_iff.2 hw) (by omega)
    exact Set.infinite_of_injective_forall_mem hinjective
      (fun k => hpq.append (hcycle.iterate k)) hfinite
  · intro hcycle
    let edges := hE.toFinset
    have hedges : ∀ {s r u}, u ∈ E s r → (s, u, r) ∈ edges := by
      intro s r u hu
      exact hE.mem_toFinset.2 hu
    let bound := edges.sup fun e => e.2.1.length
    have hbound : ∀ p q, ∀ w ∈ E p q, w.length ≤ bound :=
      fun p q w hw => Finset.le_sup (f := fun e : σ × List α × σ => e.2.1.length) (hedges hw)
    have hletters : {a | ∃ s r, ∃ u ∈ E s r, a ∈ u}.Finite := by
      refine (Set.Finite.biUnion edges.finite_toSet
        fun e _ => List.finite_toSet e.2.1).subset ?_
      intro a ha
      obtain ⟨s, r, u, hu, ha⟩ := ha
      exact Set.mem_biUnion (hedges hu) ha
    have htargets : {q | q = p ∨ ∃ s u, u ∈ E s q}.Finite := by
      refine ((edges.finite_toSet.image fun e => e.2.2).insert p).subset ?_
      intro q hq
      rcases hq with rfl | hq
      · exact Set.mem_insert q _
      · obtain ⟨s, u, hu⟩ := hq
        exact Or.inr ⟨(s, u, q), hedges hu, rfl⟩
    have hsources : ({s | ∃ r u, u ∈ E s r} : Set σ).Finite := by
      refine (edges.finite_toSet.image fun e => e.1).subset ?_
      intro s hs
      obtain ⟨r, u, hu⟩ := hs
      exact ⟨(s, u, r), hedges hu, rfl⟩
    refine (htargets.prod (finite_lists hletters
      (bound * hsources.toFinset.card))).subset ?_
    intro e he
    obtain ⟨htarget, hword⟩ := Walk.target he
    obtain ⟨sources, hnodup, hlength, hmem⟩ := Walk.exists_sources hbound he hcycle
    have hcard : sources.length ≤ hsources.toFinset.card := by
      classical
      rw [← List.toFinset_card_of_nodup hnodup]
      apply Finset.card_le_card
      intro s hs
      simpa using (hmem s (List.mem_toFinset.1 hs)).2
    exact ⟨htarget, hlength.trans (Nat.mul_le_mul_left bound hcard), hword⟩

end LogSurgeon.Lib.LangGraph
