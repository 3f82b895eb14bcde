import LogSurgeon.Lib.OrderedSet
import Mathlib.Data.Finset.Card
import Mathlib.Data.Prod.Lex
import Mathlib.Logic.Relation
import Mathlib.Tactic.Tauto

/-!
# Searching a graph for a missing successor

A depth-first search with a stack that may hold a node several times, and a
set of visited nodes.  `next` gives the successors of a node, and `none` stands
for a missing one.  The search fails at a missing successor and at a node that
is not accepted.

`loop_spec`: the search ends, and it succeeds if and only if every reachable
node is accepted and has no missing successor.
-/

namespace LogSurgeon.Lib

open Std (TransOrd LawfulEqOrd)

/-- The stack, with its top first, and the visited nodes. -/
structure StackSearch (α : Type*) [Ord α] where
  unvisited : List (Option α)
  visited : OrderedSet α

namespace StackSearch

variable {α : Type*} [Ord α]

def push (visited : OrderedSet α) (unvisited : List (Option α)) :
    Option α → List (Option α)
  | none => none :: unvisited
  | some x => if visited.contains x then unvisited else some x :: unvisited

/-- Visits a node, which has left the stack. -/
def visit [TransOrd α] [LawfulEqOrd α] (next : α → List (Option α)) (x : α) (unvisited : List (Option α))
    (visited : OrderedSet α) : StackSearch α :=
  let visited := visited.insert x
  { unvisited := (next x).foldl (push visited) unvisited
    visited := visited }

/-- The loop, for at most `fuel` visits. -/
def loop [TransOrd α] [LawfulEqOrd α] (next : α → List (Option α)) (accepts : α → Bool) :
    Nat → StackSearch α → Option Bool
  | fuel, s =>
    match s.unvisited, fuel with
    | [], _ => some true
    | none :: _, _ => some false
    | some x :: unvisited, fuel =>
      if accepts x then
        match fuel with
        | 0 => none
        | fuel + 1 => loop next accepts fuel (visit next x unvisited s.visited)
      else some false

def start (root : α) : StackSearch α := { unvisited := [some root], visited := .empty }

theorem mem_foldl_push [LawfulEqOrd α] {visited : OrderedSet α} {l unvisited : List (Option α)} {o : Option α} :
    o ∈ l.foldl (push visited) unvisited ↔
      o ∈ unvisited ∨ o ∈ l ∧ ∀ x, o = some x → x ∉ visited := by
  induction l generalizing unvisited with
  | nil => simp
  | cons p l ih =>
    rw [List.foldl_cons, ih, List.mem_cons]
    cases p with
    | none =>
      rw [push, List.mem_cons]
      by_cases ho : o = none
      · simp [ho]
      · simp [ho]
    | some x =>
      rw [push]
      split
      · rename_i hvisited
        rw [OrderedSet.contains_iff] at hvisited
        have hskip : (o = some x ∧ ∀ x, o = some x → x ∉ visited) ↔ False := by
          simp only [iff_false]
          exact fun ⟨ho, h⟩ => h x ho hvisited
        rw [or_and_right, hskip, false_or]
      · rename_i hvisited
        rw [OrderedSet.contains_iff] at hvisited
        have hpush : (o = some x ∧ ∀ x, o = some x → x ∉ visited) ↔ o = some x := by
          refine ⟨fun h => h.1, fun ho => ⟨ho, fun y hy => ?_⟩⟩
          rw [← Option.some.inj (ho.symm.trans hy)]
          exact hvisited
        rw [or_and_right, hpush, List.mem_cons]
        tauto

/-! ## What the search decides -/

/-- `y` can be reached from `x`. -/
def Reaches (next : α → List (Option α)) (x y : α) : Prop :=
  Relation.ReflTransGen (fun x y => some y ∈ next x) x y

/-- Every node that can be reached is accepted and has all its successors. -/
def Complete (next : α → List (Option α)) (accepts : α → Bool) (root : α) : Prop :=
  ∀ x, Reaches next root x → accepts x = true ∧ none ∉ next x

/-- What was found so far. -/
structure Invariant (next : α → List (Option α)) (accepts : α → Bool) (root : α)
    (s : StackSearch α) : Prop where
  found : root ∈ s.visited ∨ some root ∈ s.unvisited
  reaches : ∀ x, x ∈ s.visited ∨ some x ∈ s.unvisited → Reaches next root x
  missing : none ∈ s.unvisited → ∃ x, Reaches next root x ∧ none ∈ next x
  accepts : ∀ x ∈ s.visited, accepts x = true
  closed : ∀ x ∈ s.visited, ∀ o ∈ next x,
    o ∈ s.unvisited ∨ ∃ y ∈ s.visited, o = some y

variable {next : α → List (Option α)} {accepts : α → Bool} {root : α}

theorem invariant_start : Invariant next accepts root (start root) where
  found := Or.inr (List.mem_singleton.2 rfl)
  reaches := by
    intro x hx
    have hx : some x = some root :=
      List.mem_singleton.1 (hx.resolve_left (OrderedSet.not_mem_empty x))
    cases hx
    exact .refl
  missing h := by cases List.mem_singleton.1 h
  accepts x hx := absurd hx (OrderedSet.not_mem_empty x)
  closed x hx := absurd hx (OrderedSet.not_mem_empty x)

/-- With an empty stack, everything that can be reached is visited. -/
theorem Invariant.complete {visited : OrderedSet α}
    (h : Invariant next accepts root { unvisited := [], visited := visited }) :
    Complete next accepts root := by
  have hclosed : ∀ x ∈ visited, ∀ o ∈ next x, ∃ y ∈ visited, o = some y := by
    intro x hx o ho
    exact (h.closed x hx o ho).resolve_left List.not_mem_nil
  have hvisited : ∀ x, Reaches next root x → x ∈ visited := by
    intro x hx
    induction hx with
    | refl => exact h.found.resolve_right List.not_mem_nil
    | tail _ hstep ih =>
      obtain ⟨y, hy, heq⟩ := hclosed _ ih _ hstep
      rw [Option.some.inj heq]
      exact hy
  intro x hx
  refine ⟨h.accepts x (hvisited x hx), fun hnone => ?_⟩
  obtain ⟨y, -, hy⟩ := hclosed x (hvisited x hx) none hnone
  cases hy

variable [TransOrd α] [LawfulEqOrd α]

theorem Invariant.visit {x : α} {unvisited : List (Option α)} {visited : OrderedSet α}
    (h : Invariant next accepts root { unvisited := some x :: unvisited, visited := visited })
    (hx : accepts x = true) :
    Invariant next accepts root (StackSearch.visit next x unvisited visited) := by
  have hreaches : Reaches next root x := h.reaches x (Or.inr List.mem_cons_self)
  have hnew : ∀ y, y ∈ visited.insert x ↔ y = x ∨ y ∈ visited := fun _ => OrderedSet.mem_insert
  refine ⟨?_, fun y hy => ?_, fun hnone => ?_, fun y hy => ?_, fun y hy o ho => ?_⟩
  · rcases h.found with hroot | hroot
    · exact Or.inl ((hnew _).2 (Or.inr hroot))
    · rcases List.mem_cons.1 hroot with hroot | hroot
      · exact Or.inl ((hnew _).2 (Or.inl (Option.some.inj hroot)))
      · exact Or.inr (mem_foldl_push.2 (Or.inl hroot))
  · rcases hy with hy | hy
    · rcases (hnew _).1 hy with rfl | hy
      · exact hreaches
      · exact h.reaches y (Or.inl hy)
    · rcases mem_foldl_push.1 hy with hy | ⟨hy, -⟩
      · exact h.reaches y (Or.inr (List.mem_cons_of_mem _ hy))
      · exact hreaches.tail hy
  · rcases mem_foldl_push.1 hnone with hnone | ⟨hnone, -⟩
    · exact h.missing (List.mem_cons_of_mem _ hnone)
    · exact ⟨x, hreaches, hnone⟩
  · rcases (hnew _).1 hy with rfl | hy
    · exact hx
    · exact h.accepts y hy
  · -- A successor is visited, or it was pushed.
    by_cases hvisited : ∃ z ∈ visited.insert x, o = some z
    · exact Or.inr hvisited
    · have hunvisited : ∀ z, o = some z → z ∉ visited.insert x :=
        fun z hz hmem => hvisited ⟨z, hmem, hz⟩
      refine Or.inl (mem_foldl_push.2 ?_)
      rcases (hnew _).1 hy with rfl | hy
      · exact Or.inr ⟨ho, hunvisited⟩
      · rcases h.closed y hy o ho with hstack | ⟨z, hz, hoz⟩
        · rcases List.mem_cons.1 hstack with hox | hstack
          · exact absurd ((hnew x).2 (Or.inl rfl)) (hunvisited x hox)
          · exact Or.inl hstack
        · exact absurd ((hnew z).2 (Or.inr hz)) (hunvisited z hoz)

/-! ## The search ends -/

/-- The entries of the stack that are visited already. -/
def revisits (s : StackSearch α) : Nat := s.unvisited.countP fun o => o.any s.visited.contains

/-- Visiting a node again only takes it from the stack. -/
theorem revisits_visit {x : α} {unvisited : List (Option α)} {visited : OrderedSet α}
    (hx : x ∈ visited) :
    (visit next x unvisited visited).revisits <
      revisits { unvisited := some x :: unvisited, visited := visited } := by
  have hsame : visited.insert x = visited := by
    refine OrderedSet.ext fun z => ?_
    rw [OrderedSet.mem_insert]
    exact ⟨fun h => h.elim (fun h => h ▸ hx) id, Or.inr⟩
  have hpush : ∀ l : List (Option α),
      (l.foldl (push visited) unvisited).countP (fun o => o.any visited.contains) =
        unvisited.countP fun o => o.any visited.contains := by
    intro l
    induction l generalizing unvisited with
    | nil => rfl
    | cons o l ih =>
      rw [List.foldl_cons, ih]
      cases o with
      | none => simp [push]
      | some y =>
        rw [push]
        split
        · rfl
        · rename_i hy
          simp [hy]
  unfold revisits visit
  dsimp only
  rw [hsame, hpush, List.countP_cons_of_pos (by simpa [OrderedSet.contains_iff] using hx)]
  exact Nat.lt_succ_self _

theorem loop_succ {fuel : Nat} {x : α} {unvisited : List (Option α)} {visited : OrderedSet α} :
    loop next accepts (fuel + 1) { unvisited := some x :: unvisited, visited := visited } =
      if accepts x then loop next accepts fuel (visit next x unvisited visited)
      else some false := rfl

/-- The search ends with the answer.  The induction is on the number of nodes
that are not visited, and then on the number of visited ones on the stack. -/
theorem Invariant.exists_loop [DecidableEq α] {univ : Finset α} (hroot : root ∈ univ)
    (hclosed : ∀ x ∈ univ, ∀ y, some y ∈ next x → y ∈ univ) {s : StackSearch α}
    (h : Invariant next accepts root s) :
    ∃ fuel result, loop next accepts fuel s = some result ∧
      (result = true ↔ Complete next accepts root) := by
  have huniv : ∀ x, Reaches next root x → x ∈ univ := by
    intro x hx
    induction hx with
    | refl => exact hroot
    | tail _ hstep ih => exact hclosed _ ih _ hstep
  let measure (s : StackSearch α) : Nat ×ₗ Nat :=
    toLex ((univ.filter fun x => s.visited.contains x = false).card, s.revisits)
  induction hmeasure : measure s using WellFoundedLT.induction generalizing s with
  | ind m ih =>
    obtain ⟨unvisited, visited⟩ := s
    match unvisited with
    | [] => exact ⟨0, true, rfl, fun _ => h.complete, fun _ => rfl⟩
    | none :: unvisited =>
      refine ⟨0, false, rfl, (by simp), fun hcomplete => ?_⟩
      obtain ⟨x, hx, hnone⟩ := h.missing List.mem_cons_self
      exact absurd hnone (hcomplete x hx).2
    | some x :: unvisited =>
      have hreaches := h.reaches x (Or.inr List.mem_cons_self)
      by_cases hx : accepts x = true
      · have hless : measure (StackSearch.visit next x unvisited visited) < m := by
          rw [← hmeasure, Prod.Lex.toLex_lt_toLex]
          by_cases hvisited : x ∈ visited
          · refine Or.inr ⟨?_, revisits_visit hvisited⟩
            refine congrArg Finset.card (Finset.filter_congr fun y _ => ?_)
            have hsame : y ∈ visited.insert x ↔ y ∈ visited := by
              rw [OrderedSet.mem_insert]
              exact ⟨fun h => h.elim (fun h => h ▸ hvisited) id, Or.inr⟩
            rw [← Bool.not_eq_true, ← Bool.not_eq_true, OrderedSet.contains_iff,
              OrderedSet.contains_iff]
            exact not_congr hsame
          · refine Or.inl (Finset.card_lt_card ?_)
            rw [Finset.ssubset_iff_of_subset]
            · refine ⟨x, ?_, ?_⟩
              · rw [Finset.mem_filter, ← Bool.not_eq_true, OrderedSet.contains_iff]
                exact ⟨huniv x hreaches, hvisited⟩
              · rw [Finset.mem_filter, ← Bool.not_eq_true, OrderedSet.contains_iff]
                exact fun hmem => hmem.2 (OrderedSet.mem_insert.2 (Or.inl rfl))
            · intro y
              rw [Finset.mem_filter, Finset.mem_filter, ← Bool.not_eq_true, ← Bool.not_eq_true,
                OrderedSet.contains_iff, OrderedSet.contains_iff]
              exact fun hy => ⟨hy.1, fun hmem => hy.2 (OrderedSet.mem_insert.2 (Or.inr hmem))⟩
        obtain ⟨fuel, result, hloop, hresult⟩ := ih _ hless (h.visit hx) rfl
        refine ⟨fuel + 1, result, ?_, hresult⟩
        rw [loop_succ, if_pos hx]
        exact hloop
      · refine ⟨1, false, ?_, (by simp), fun hcomplete => absurd (hcomplete x hreaches).1 hx⟩
        rw [loop_succ, if_neg hx]

/-- The search of a finite graph. -/
theorem loop_spec [DecidableEq α] {univ : Finset α} (hroot : root ∈ univ)
    (hclosed : ∀ x ∈ univ, ∀ y, some y ∈ next x → y ∈ univ) :
    ∃ fuel result, loop next accepts fuel (start root) = some result ∧
      (result = true ↔ Complete next accepts root) :=
  invariant_start.exists_loop hroot hclosed

end StackSearch

end LogSurgeon.Lib
