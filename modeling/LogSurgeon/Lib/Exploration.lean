import LogSurgeon.Lib.OrderedSet
import Mathlib.Data.Finset.Card
import Mathlib.Logic.Relation

/-!
# Exploring a graph from a set of unvisited nodes

The least unvisited node is visited, its successors that were not visited yet
become unvisited, and the node is taken out.  The nodes may come in any order,
so a caller gives the loop a function that collects something from each node.

`explore_spec` says what is collected: the fold over a list that has every
reachable node exactly once.  A finite set of nodes that is closed under
successors bounds the number of steps.
-/

namespace LogSurgeon.Lib

open Std (TransOrd LawfulEqOrd)

/-- The nodes that were visited, and those that are still to be visited. -/
structure Exploration (α : Type*) [Ord α] where
  visited : OrderedSet α
  unvisited : OrderedSet α

/-- `y` can be reached from `x` along `next`. -/
def Reachable {α : Type*} (next : α → List α) (x y : α) : Prop :=
  Relation.ReflTransGen (fun x y => y ∈ next x) x y

/-- The reachable nodes lie in every closed set with the root. -/
theorem Reachable.mem_of_closed {α : Type*} {next : α → List α} {root x : α} {univ : Finset α}
    (h : Reachable next root x) (hroot : root ∈ univ)
    (hclosed : ∀ x ∈ univ, ∀ y ∈ next x, y ∈ univ) : x ∈ univ := by
  induction h with
  | refl => exact hroot
  | tail _ hstep ih => exact hclosed _ ih _ hstep

namespace Exploration

variable {α β : Type*} [Ord α] [TransOrd α] [LawfulEqOrd α] [DecidableEq α]

/-- Visits `x`. -/
def step (next : α → List α) (s : Exploration α) (x : α) : Exploration α :=
  let visited := s.visited.insert x
  { visited := visited
    unvisited := (s.unvisited.insertAll ((next x).filter (!visited.contains ·))).erase x }

theorem mem_visited_step {next : α → List α} {s : Exploration α} {x z : α} :
    z ∈ (s.step next x).visited ↔ z = x ∨ z ∈ s.visited := OrderedSet.mem_insert

theorem mem_unvisited_step {next : α → List α} {s : Exploration α} {x z : α} :
    z ∈ (s.step next x).unvisited ↔
      z ≠ x ∧ ((z ∈ next x ∧ z ∉ s.visited) ∨ z ∈ s.unvisited) := by
  have hcontains : (s.visited.insert x).contains z = false ↔ ¬(z = x ∨ z ∈ s.visited) := by
    rw [← OrderedSet.mem_insert, ← OrderedSet.contains_iff, Bool.not_eq_true]
  unfold step
  rw [OrderedSet.mem_erase, OrderedSet.mem_insertAll, List.mem_filter, Bool.not_eq_true',
    hcontains]
  tauto

/-- The loop, for at most as many nodes as the first number.  `visit` collects
from the node before its successors are added. -/
def loop (next : α → List α) (visit : β → α → β) : Nat → Exploration α → β → Option β
  | steps, s, acc =>
    match s.unvisited.toList, steps with
    | [], _ => some acc
    | _ :: _, 0 => none
    | x :: _, steps + 1 => loop next visit steps (s.step next x) (visit acc x)

/-! ## The invariant -/

/-- `order` lists the visited nodes.  Every node found so far is reachable from
the root, and the successors of the visited nodes have been found. -/
structure Invariant (next : α → List α) (root : α) (s : Exploration α) (order : List α) :
    Prop where
  mem_order : ∀ x, x ∈ order ↔ x ∈ s.visited
  nodup : order.Nodup
  disjoint : ∀ x ∈ s.unvisited, x ∉ s.visited
  reachable : ∀ x, x ∈ s.visited ∨ x ∈ s.unvisited → Reachable next root x
  closed : ∀ x ∈ s.visited, ∀ y ∈ next x, y ∈ s.visited ∨ y ∈ s.unvisited
  root : root ∈ s.visited ∨ root ∈ s.unvisited

variable {next : α → List α} {visit : β → α → β} {root x : α} {s : Exploration α}
  {order : List α}

theorem Invariant.step (h : Invariant next root s order) (hx : x ∈ s.unvisited) :
    Invariant next root (s.step next x) (order ++ [x]) := by
  have hxreach := h.reachable x (Or.inr hx)
  have hkeep : ∀ y, y ∈ s.visited ∨ y ∈ s.unvisited →
      y ∈ (s.step next x).visited ∨ y ∈ (s.step next x).unvisited := by
    intro y hy
    rw [mem_visited_step, mem_unvisited_step]
    tauto
  refine ⟨?_, ?_, ?_, ?_, ?_, hkeep root h.root⟩
  · intro y
    rw [List.mem_append, List.mem_singleton, mem_visited_step, h.mem_order]
    exact Or.comm
  · have hnot : x ∉ order := fun hmem => h.disjoint x hx ((h.mem_order x).1 hmem)
    exact List.nodup_append.2 ⟨h.nodup, List.nodup_singleton x, by
      intro y hy z hz hyz
      rw [List.mem_singleton.1 hz] at hyz
      exact hnot (hyz ▸ hy)⟩
  · intro y hy hvisited
    rw [mem_visited_step] at hvisited
    rw [mem_unvisited_step] at hy
    obtain ⟨hne, hy⟩ := hy
    have hold := hvisited.resolve_left hne
    rcases hy with hy | hy
    · exact hy.2 hold
    · exact h.disjoint y hy hold
  · intro y hy
    rw [mem_visited_step, mem_unvisited_step] at hy
    rcases hy with (rfl | hy) | ⟨-, ⟨hy, -⟩ | hy⟩
    · exact hxreach
    · exact h.reachable y (Or.inl hy)
    · exact Relation.ReflTransGen.tail hxreach hy
    · exact h.reachable y (Or.inr hy)
  · intro y hy z hz
    rw [mem_visited_step] at hy
    rcases hy with rfl | hy
    · rw [mem_visited_step, mem_unvisited_step]
      tauto
    · exact hkeep z (h.closed y hy z hz)

omit [DecidableEq α] in
theorem Invariant.initial :
    Invariant next root ⟨OrderedSet.empty, OrderedSet.empty.insert root⟩ [] := by
  refine ⟨?_, List.nodup_nil, ?_, ?_, ?_, ?_⟩
  · simp
  · simp
  · intro x hx
    rw [OrderedSet.mem_insert] at hx
    obtain rfl : x = root := by simpa using hx
    exact Relation.ReflTransGen.refl
  · simp
  · simp

omit [TransOrd α] [LawfulEqOrd α] [DecidableEq α] in
/-- At the end, the visited nodes are the reachable ones. -/
theorem Invariant.mem_order_iff (h : Invariant next root s order)
    (hdone : ∀ x, x ∉ s.unvisited) : x ∈ order ↔ Reachable next root x := by
  rw [h.mem_order]
  constructor
  · intro hx
    exact h.reachable x (Or.inl hx)
  · intro hreach
    induction hreach with
    | refl => exact h.root.resolve_right (hdone root)
    | tail _ hstep ih => exact (h.closed _ ih _ hstep).resolve_right (hdone _)

omit [TransOrd α] [LawfulEqOrd α] [DecidableEq α] in
/-- Without an unvisited node there is nothing left to collect. -/
theorem Invariant.nil_spec (h : Invariant next root s order) (hnil : s.unvisited.toList = [])
    {acc : β} : (order ++ []).Nodup ∧ (∀ x, x ∈ order ++ [] ↔ Reachable next root x) ∧
      acc = [].foldl visit acc := by
  rw [List.append_nil]
  exact ⟨h.nodup, fun x => h.mem_order_iff (List.eq_nil_iff_forall_not_mem.1 hnil), rfl⟩

/-- When the loop ends, it has collected from every reachable node once. -/
theorem Invariant.loop_spec (h : Invariant next root s order) {acc result : β} {steps : Nat}
    (hloop : loop next visit steps s acc = some result) :
    ∃ rest : List α, (order ++ rest).Nodup ∧
      (∀ x, x ∈ order ++ rest ↔ Reachable next root x) ∧ result = rest.foldl visit acc := by
  induction steps generalizing s order acc with
  | zero =>
    unfold loop at hloop
    cases hlist : s.unvisited.toList with
    | nil =>
      rw [hlist] at hloop
      cases hloop
      exact ⟨[], h.nil_spec hlist⟩
    | cons =>
      rw [hlist] at hloop
      cases hloop
  | succ steps ih =>
    unfold loop at hloop
    cases hlist : s.unvisited.toList with
    | nil =>
      rw [hlist] at hloop
      cases hloop
      exact ⟨[], h.nil_spec hlist⟩
    | cons x unvisited =>
      rw [hlist] at hloop
      have hx : x ∈ s.unvisited := by
        rw [OrderedSet.mem_def, hlist]
        exact List.mem_cons_self
      obtain ⟨rest, hnodup, hreach, hresult⟩ := ih (h.step hx) hloop
      exact ⟨x :: rest, by simpa using hnodup, by simpa using hreach, hresult⟩

/-- The visited nodes and an unvisited one are different nodes of a closed set. -/
theorem Invariant.length_lt {univ : Finset α} (h : Invariant next root s order)
    (hroot : root ∈ univ) (hclosed : ∀ x ∈ univ, ∀ y ∈ next x, y ∈ univ)
    (hx : x ∈ s.unvisited) : order.length < univ.card := by
  have hnew := h.step hx
  have hsub : (order ++ [x]).toFinset ⊆ univ := by
    intro y hy
    have hmem := (hnew.mem_order y).1 (List.mem_toFinset.1 hy)
    exact (hnew.reachable y (Or.inl hmem)).mem_of_closed hroot hclosed
  have hcard := Finset.card_le_card hsub
  rw [List.toFinset_card_of_nodup hnew.nodup, List.length_append, List.length_singleton] at hcard
  omega

/-- The loop ends, if it may take a step for every node of a closed set that
was not visited. -/
theorem Invariant.exists_loop {univ : Finset α} (h : Invariant next root s order)
    (hroot : root ∈ univ) (hclosed : ∀ x ∈ univ, ∀ y ∈ next x, y ∈ univ) (acc : β) (steps : Nat)
    (hsteps : univ.card ≤ order.length + steps) :
    ∃ result, loop next visit steps s acc = some result := by
  induction steps generalizing s order acc with
  | zero =>
    have hnil : s.unvisited.toList = [] := by
      refine List.eq_nil_iff_forall_not_mem.2 fun x hx => ?_
      have hlt := h.length_lt hroot hclosed hx
      omega
    refine ⟨acc, ?_⟩
    unfold loop
    rw [hnil]
  | succ steps ih =>
    cases hlist : s.unvisited.toList with
    | nil =>
      refine ⟨acc, ?_⟩
      unfold loop
      rw [hlist]
    | cons x unvisited =>
      have hx : x ∈ s.unvisited := by
        rw [OrderedSet.mem_def, hlist]
        exact List.mem_cons_self
      have hlength : univ.card ≤ (order ++ [x]).length + steps := by
        rw [List.length_append, List.length_singleton]
        omega
      obtain ⟨result, hresult⟩ := ih (h.step hx) (visit acc x) hlength
      refine ⟨result, ?_⟩
      unfold loop
      rw [hlist]
      exact hresult

end Exploration

variable {α β : Type*} [Ord α] [TransOrd α] [LawfulEqOrd α] [DecidableEq α]

/-- Explores from the root, for at most `steps` nodes. -/
def explore (next : α → List α) (visit : β → α → β) (root : α) (acc : β) (steps : Nat) :
    Option β :=
  Exploration.loop next visit steps ⟨OrderedSet.empty, OrderedSet.empty.insert root⟩ acc

variable {next : α → List α} {visit : β → α → β} {root : α} {acc : β} {steps : Nat}

/-- Every reachable node is visited once. -/
theorem explore_spec {result : β} (h : explore next visit root acc steps = some result) :
    ∃ order : List α, order.Nodup ∧ (∀ x, x ∈ order ↔ Reachable next root x) ∧
      result = order.foldl visit acc :=
  Exploration.Invariant.initial.loop_spec h

theorem exists_explore {univ : Finset α} (hroot : root ∈ univ)
    (hclosed : ∀ x ∈ univ, ∀ y ∈ next x, y ∈ univ) (hsteps : univ.card ≤ steps) :
    ∃ result, explore next visit root acc steps = some result :=
  Exploration.Invariant.initial.exists_loop hroot hclosed acc steps (by simpa using hsteps)

end LogSurgeon.Lib
