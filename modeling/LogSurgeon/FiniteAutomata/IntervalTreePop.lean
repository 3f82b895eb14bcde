import LogSurgeon.FiniteAutomata.UnicodeIntervalTree

/-!
# Removals from the interval tree

`pop` removes one interval after the other, each by a walk that goes to the left
child only.

* `pop_spec` is one round of the loop: an interval that overlaps is taken out of
  the contents, or nothing overlaps.  `popAll_spec`: whatever the difference of
  two pointers is, a loop that returns has removed exactly the intervals that
  overlap.
* `Poppable` has the trees on which the loop returns: no walk ends at a node that
  fails its assertion, and no node that has a child is rebalanced.
* `popsOverlapping_iff` puts both together.
-/

namespace LogSurgeon

namespace UnicodeIntervalTree

namespace Node

variable {T : Type} {difference : Node T → Node T → Except TreeFault Int} {n n' l r : Node T}
  {interval i : Interval} {value : T} {lower upper height fuel : Nat} {d : Data T}
  {ds : List (Data T)}

/-! ## Whatever is removed overlaps -/

/-- The minimum is the first of the contents. -/
theorem popMin_spec (h : n.WellFormed) (hpop : n.popMin difference = .ok (n', d)) :
    n.all = d :: n'.all ∧ n'.WellFormed := by
  induction n generalizing n' with
  | null => cases hpop
  | node interval value lower upper height l r ihl =>
    cases l with
    | null =>
      cases r with
      | null => cases hpop
      | node =>
        cases hpop
        exact ⟨rfl, h.right⟩
    | node =>
      obtain ⟨⟨l', d'⟩, hl', hpop⟩ := exists_of_bind_eq_ok hpop
      obtain ⟨n'', hbalance, hpop⟩ := exists_of_bind_eq_ok hpop
      cases hpop
      obtain ⟨hall, hwell⟩ := ihl h.left hl'
      have hordered := isSearchTree_iff.1 h.searchTree
      rw [all, hall] at hordered ⊢
      have hrest : Ordered (node interval value lower upper height l' r).all := hordered.tail
      obtain ⟨hall', hwell'⟩ := wellFormed_balance_update hbalance hrest hwell.bounded
        h.right.bounded
      exact ⟨by rw [hall', all, List.cons_append], hwell'⟩

/-- The subtrees of a removed node come together. -/
theorem replacement_spec (hl : l.WellFormed) (hr : r.WellFormed) (hordered : Ordered (l.all ++ r.all))
    (h : replacement difference l r = .ok n') : n'.all = l.all ++ r.all ∧ n'.WellFormed := by
  cases l with
  | null =>
    cases h
    exact ⟨rfl, hr⟩
  | node =>
    cases r with
    | null =>
      cases h
      exact ⟨(List.append_nil _).symm, hl⟩
    | node =>
      obtain ⟨⟨subTree, ret⟩, hmin, hbalance⟩ := exists_of_bind_eq_ok h
      obtain ⟨hall, hwell⟩ := popMin_spec hr hmin
      rw [hall] at hordered ⊢
      exact wellFormed_balance_update hbalance hordered hl.bounded hwell.bounded

/-- A round that pops takes an interval that overlaps out of the contents. -/
structure Removes (i : Interval) (n : Node T) (d : Data T) (n' : Node T) : Prop where
  contents : ∃ before after, n.all = before ++ d :: after ∧ n'.all = before ++ after
  overlaps : d.interval.Overlaps i
  wellFormed : n'.WellFormed

/-- What one round does. -/
theorem pop_spec (h : n.WellFormed) {ret : Option (Data T)}
    (hpop : n.pop difference i = .ok (n', ret)) :
    ret = none ∧ n' = n ∧ (∀ d ∈ n.all, ¬ d.interval.Overlaps i) ∨
      ∃ d, ret = some d ∧ n.Removes i d n' := by
  induction n generalizing n' ret with
  | null =>
    cases hpop
    exact Or.inl ⟨rfl, rfl, by simp [all]⟩
  | node interval value lower upper height l r ihl =>
    have hordered := isSearchTree_iff.1 h.searchTree
    unfold pop at hpop
    split at hpop
    · rename_i hout
      cases hpop
      exact Or.inl ⟨rfl, rfl, h.not_overlaps (by simpa using hout)⟩
    · obtain ⟨⟨l', ret'⟩, hl', hrest⟩ := exists_of_bind_eq_ok hpop
      rcases ihl h.left hl' with ⟨rfl, rfl, -⟩ | ⟨d, rfl, hremoves⟩
      · dsimp only at hrest
        split at hrest
        · cases hrest
        · rename_i hoverlaps
          obtain ⟨n'', hreplacement, hrest⟩ := exists_of_bind_eq_ok hrest
          cases hrest
          have hrest : Ordered (l'.all ++ r.all) :=
            hordered.sublist (List.Sublist.append_left (List.sublist_cons_self _ _) _)
          obtain ⟨hall, hwell⟩ := replacement_spec h.left h.right hrest hreplacement
          refine Or.inr ⟨_, rfl, ⟨l'.all, r.all, rfl, hall⟩, ?_, hwell⟩
          exact overlaps_iff.1 (by simpa using hoverlaps)
      · obtain ⟨n'', hbalance, hrest⟩ := exists_of_bind_eq_ok hrest
        cases hrest
        obtain ⟨before, after, hall, hall'⟩ := hremoves.contents
        have hcontents : (node interval value lower upper height l' r).all =
            before ++ (after ++ ⟨interval, value⟩ :: r.all) := by
          rw [all, hall', List.append_assoc]
        have hcontents' : (node interval value lower upper height l r).all =
            before ++ d :: (after ++ ⟨interval, value⟩ :: r.all) := by
          rw [all, hall, List.append_assoc, List.cons_append]
        have hrest : Ordered (node interval value lower upper height l' r).all := by
          rw [hcontents]
          rw [hcontents'] at hordered
          exact hordered.sublist (List.Sublist.append_left (List.sublist_cons_self _ _) _)
        obtain ⟨hall'', hwell⟩ := wellFormed_balance_update hbalance hrest
          hremoves.wellFormed.bounded h.right.bounded
        refine Or.inr ⟨d, rfl, ⟨before, _, hcontents', hall''.trans hcontents⟩,
          hremoves.overlaps, hwell⟩

/-- What the loop has done: the pairs whose interval overlaps are the results,
each of them once, and the other ones are left, in their order. -/
structure RemovesOverlapping (i : Interval) (n : Node T) (results : List (Data T))
    (n' : Node T) : Prop where
  results : results.Perm (n.all.filter fun d => d.interval.Overlaps i)
  all : n'.all = n.all.filter fun d => ¬ d.interval.Overlaps i
  ordered : Ordered n'.all
  bounded : n'.Bounded

/-- A loop that returns removes exactly the intervals that overlap. -/
theorem popAll_spec (h : n.WellFormed) (hpop : n.popAll difference i fuel = .ok (ds, n')) :
    n.RemovesOverlapping i ds n' := by
  induction fuel generalizing n ds with
  | zero => cases hpop
  | succ fuel ih =>
    rw [popAll] at hpop
    obtain ⟨⟨n₁, ret⟩, hround, hafter⟩ := exists_of_bind_eq_ok hpop
    rcases pop_spec h hround with ⟨rfl, rfl, hnone⟩ | ⟨d, rfl, hremoves⟩
    · cases hafter
      refine ⟨?_, ?_, isSearchTree_iff.1 h.searchTree, h.bounded⟩
      · have hnil : n'.all.filter (fun d => d.interval.Overlaps i) = [] := by
          rw [List.filter_eq_nil_iff]
          simpa using hnone
        rw [hnil]
      · symm
        rw [List.filter_eq_self]
        simpa using hnone
    · obtain ⟨⟨ds', n₂⟩, hrest, hafter⟩ := exists_of_bind_eq_ok hafter
      cases hafter
      have hrest := ih hremoves.wellFormed hrest
      obtain ⟨before, after, hall, hall'⟩ := hremoves.contents
      have hoverlaps := hremoves.overlaps
      refine ⟨?_, ?_, hrest.ordered, hrest.bounded⟩
      · have hresults := hrest.results
        rw [hall', List.filter_append] at hresults
        rw [hall, List.filter_append, List.filter_cons_of_pos (by simpa using hoverlaps)]
        exact (hresults.cons d).trans List.perm_middle.symm
      · rw [hrest.all, hall, hall', List.filter_append, List.filter_append,
          List.filter_cons_of_neg (by simpa using hoverlaps)]

/-! ## When the loop returns -/

/-- Down the right children of nodes that overlap and have no left child, there
is no node any more, or one whose subtree does not overlap, or one without a
right child such that

* its left child is a leaf that overlaps, or
* it overlaps itself, and its left subtree does not. -/
inductive Poppable (i : Interval) : Node T → Prop where
  | null : Poppable i null
  | outside {n : Node T} (hout : n.overlapsRecursive i = false) : Poppable i n
  | next {interval : Interval} {value : T} {lower upper height : Nat} {r : Node T}
      (hoverlaps : interval.Overlaps i) (hrest : Poppable i r) :
      Poppable i (node interval value lower upper height null r)
  | last {interval : Interval} {value : T} {lower upper height : Nat} {l : Node T}
      (hoverlaps : interval.Overlaps i) (hleft : l.overlapsRecursive i = false) :
      Poppable i (node interval value lower upper height l null)
  | leaf {interval interval' : Interval} {value value' : T}
      {lower upper height lower' upper' height' : Nat} (hoverlaps : interval'.Overlaps i) :
      Poppable i (node interval value lower upper height
        (node interval' value' lower' upper' height' null null) null)

/-- A walk that finds nothing ends at once. -/
theorem pop_none (h : n.pop difference i = .ok (n', none)) :
    n' = n ∧ (n = null ∨ n.overlapsRecursive i = false) := by
  cases n with
  | null =>
    cases h
    exact ⟨rfl, Or.inl rfl⟩
  | node interval value lower upper height l r =>
    unfold pop at h
    split at h
    · rename_i hout
      cases h
      exact ⟨rfl, Or.inr (by simpa using hout)⟩
    · obtain ⟨⟨l', ret⟩, -, hrest⟩ := exists_of_bind_eq_ok h
      cases ret with
      | some d =>
        obtain ⟨n'', -, hrest⟩ := exists_of_bind_eq_ok hrest
        cases hrest
      | none =>
        dsimp only at hrest
        split at hrest
        · cases hrest
        · obtain ⟨n'', -, hrest⟩ := exists_of_bind_eq_ok hrest
          cases hrest

theorem pop_outside (h : n.overlapsRecursive i = false) :
    n.pop difference i = .ok (n, none) := by
  cases n with
  | null => rfl
  | node => rw [pop, h]; rfl

/-- A node whose left child finds nothing is removed itself. -/
theorem pop_here (hin : (node interval value lower upper height l r).overlapsRecursive i = true)
    (hleft : l.pop difference i = .ok (l, none)) (hoverlaps : interval.Overlaps i)
    (hreplacement : replacement difference l r = .ok n') :
    (node interval value lower upper height l r).pop difference i =
      .ok (n', some ⟨interval, value⟩) := by
  have htest : overlaps i interval = true := overlaps_iff.2 hoverlaps
  rw [pop, hin, hleft]
  show (if ! overlaps i interval then _ else replacement difference l r >>= _) = _
  rw [htest, hreplacement]
  rfl

theorem replacement_null (l : Node T) : replacement difference l null = .ok l := by
  cases l <;> rfl

/-- A round in front of a loop that returns. -/
theorem popAll_succ (hround : n.pop difference i = .ok (n', some d)) {results : List (Data T)}
    {n'' : Node T} (hrest : n'.popAll difference i fuel = .ok (results, n'')) :
    n.popAll difference i (fuel + 1) = .ok (d :: results, n'') := by
  rw [popAll, hround]
  show n'.popAll difference i fuel >>= _ = _
  rw [hrest]
  rfl

theorem popAll_none (hround : n.pop difference i = .ok (n', none)) :
    n.popAll difference i 1 = .ok ([], n') := by
  rw [popAll, hround]
  rfl

/-- The bounds overlap an interval that the interval of the root overlaps. -/
theorem WellFormed.overlapsRecursive
    (h : (node interval value lower upper height l r).WellFormed) (hoverlaps : interval.Overlaps i) :
    (node interval value lower upper height l r).overlapsRecursive i = true :=
  h.spans.boundsOverlap (List.mem_append_right _ List.mem_cons_self) hoverlaps

/-- A node without children stays as it is. -/
theorem balance_leaf (hdifference : difference null null = .ok 0) :
    (node interval value lower upper height null null).update.balance difference =
      .ok (node interval value interval.first interval.second 1 null null) := by
  unfold balance
  show difference null null >>= _ = _
  rw [hdifference]
  rfl

/-- The loop on a leaf returns. -/
theorem popAll_leaf (h : (node interval value lower upper height null null).WellFormed) :
    ∃ fuel results n', (node interval value lower upper height null null).popAll difference i fuel =
      .ok (results, n') := by
  cases hin : (node interval value lower upper height null null).overlapsRecursive i with
  | false => exact ⟨1, _, _, popAll_none (pop_outside hin)⟩
  | true =>
    have hoverlaps : interval.Overlaps i := by
      have hbounds : lower ≤ i.second ∧ i.first ≤ upper :=
        (Interval.boundsOverlap_iff h.spans.lower_le_upper i).1 hin
      obtain ⟨d, hd, hlower⟩ := h.spans.lower_mem
      obtain ⟨e, he, hupper⟩ := h.spans.upper_mem
      obtain rfl := List.mem_singleton.1 hd
      obtain rfl := List.mem_singleton.1 he
      dsimp only at hlower hupper
      rw [Interval.overlaps_iff]
      omega
    exact ⟨2, _, _, popAll_succ (pop_here hin rfl hoverlaps rfl) (popAll_none rfl)⟩

/-- The loop returns, whatever the difference of two pointers is that are not
both null. -/
theorem popAll_of_poppable (h : Poppable i n) (hwell : n.WellFormed)
    (hdifference : difference null null = .ok 0) :
    ∃ fuel results n', n.popAll difference i fuel = .ok (results, n') := by
  induction h with
  | null => exact ⟨1, _, _, popAll_none rfl⟩
  | outside hout => exact ⟨1, _, _, popAll_none (pop_outside hout)⟩
  | next hoverlaps _ ih =>
    obtain ⟨fuel, results, n', hrest⟩ := ih hwell.right
    have hin := hwell.overlapsRecursive hoverlaps
    exact ⟨fuel + 1, _, _, popAll_succ (pop_here hin rfl hoverlaps rfl) hrest⟩
  | last hoverlaps hleft =>
    have hin := hwell.overlapsRecursive hoverlaps
    have hend := popAll_none (@pop_outside _ difference _ _ hleft)
    refine ⟨2, _, _, popAll_succ (pop_here hin ?_ hoverlaps (replacement_null _)) hend⟩
    exact pop_outside hleft
  | @leaf interval interval' value value' lower upper height lower' upper' height' hoverlaps =>
    have hleft : (node interval' value' lower' upper' height' null null).pop difference i =
        .ok (null, some ⟨interval', value'⟩) :=
      pop_here (hwell.left.overlapsRecursive hoverlaps) rfl hoverlaps rfl
    have hin : (node interval value lower upper height
        (node interval' value' lower' upper' height' null null) null).overlapsRecursive i = true :=
      hwell.spans.boundsOverlap (List.mem_append_left _ (List.mem_singleton.2 rfl)) hoverlaps
    have hround : (node interval value lower upper height
        (node interval' value' lower' upper' height' null null) null).pop difference i =
        .ok (node interval value interval.first interval.second 1 null null,
          some ⟨interval', value'⟩) := by
      rw [pop, hin, hleft]
      show (node interval value lower upper height null null).update.balance difference >>= _ = _
      rw [balance_leaf hdifference]
      rfl
    have hupdated : (node interval value interval.first interval.second 1 null null).WellFormed :=
      ⟨⟨by simp [all], by simp [all], trivial, trivial⟩,
        spans_singleton ⟨interval, value⟩, trivial, trivial⟩
    obtain ⟨fuel, results, n', hrest⟩ := @popAll_leaf _ difference _ i _ _ _ _ hupdated
    exact ⟨fuel + 1, _, _, popAll_succ hround hrest⟩

/-! ## When it does not -/

/-- The difference of the children of a node that is balanced is defined. -/
theorem balance_pointerDifference
    (h : (node interval value lower upper height l r).update.balance pointerDifference = .ok n') :
    l = null ∧ r = null ∧
      n' = node interval value interval.first interval.second 1 null null := by
  cases l with
  | null =>
    cases r with
    | null =>
      rw [balance_leaf rfl] at h
      cases h
      exact ⟨rfl, rfl, rfl⟩
    | node => cases h
  | node => cases r <;> cases h

/-- One round from a tree goes on from a tree that is poppable only if it is
poppable itself. -/
theorem poppable_of_pop (h : n.pop pointerDifference i = .ok (n', some d)) :
    (Poppable i n' → Poppable i n) ∧
      (n' = null → ∃ interval value lower upper height,
        n = node interval value lower upper height null null ∧ interval.Overlaps i) := by
  induction n generalizing n' d with
  | null => cases h
  | node interval value lower upper height l r ihl =>
    unfold pop at h
    split at h
    · cases h
    · obtain ⟨⟨l', ret⟩, hl', hrest⟩ := exists_of_bind_eq_ok h
      cases ret with
      | some d =>
        obtain ⟨n'', hbalance, hrest⟩ := exists_of_bind_eq_ok hrest
        cases hrest
        obtain ⟨rfl, rfl, rfl⟩ := balance_pointerDifference hbalance
        obtain ⟨interval', value', lower', upper', height', rfl, hoverlaps⟩ := (ihl hl').2 rfl
        exact ⟨fun _ => .leaf hoverlaps, fun h => by cases h⟩
      | none =>
        obtain ⟨rfl, hleft⟩ := pop_none hl'
        dsimp only at hrest
        split at hrest
        · cases hrest
        · rename_i htest
          have hoverlaps : interval.Overlaps i := overlaps_iff.1 (by simpa using htest)
          obtain ⟨n'', hreplacement, hrest⟩ := exists_of_bind_eq_ok hrest
          cases hrest
          cases l' with
          | null =>
            cases hreplacement
            refine ⟨fun hpoppable => .next hoverlaps hpoppable, fun hnull => ?_⟩
            exact ⟨interval, value, lower, upper, height, by rw [hnull], hoverlaps⟩
          | node =>
            cases r with
            | null =>
              cases hreplacement
              refine ⟨fun _ => .last hoverlaps ?_, fun h => by cases h⟩
              rcases hleft with hnull | hleft
              · cases hnull
              · exact hleft
            | node =>
              obtain ⟨⟨subTree, ret⟩, -, hbalance⟩ := exists_of_bind_eq_ok hreplacement
              obtain ⟨hnull, -⟩ := balance_pointerDifference hbalance
              cases hnull

/-- A loop that returns has not balanced a node that has a child. -/
theorem poppable_of_popAll (h : n.popAll pointerDifference i fuel = .ok (ds, n')) :
    Poppable i n := by
  induction fuel generalizing n ds n' with
  | zero => cases h
  | succ fuel ih =>
    rw [popAll] at h
    obtain ⟨⟨n₁, ret⟩, hround, hafter⟩ := exists_of_bind_eq_ok h
    cases ret with
    | none =>
      obtain ⟨-, hnull | hout⟩ := pop_none hround
      · rw [hnull]
        exact .null
      · exact .outside hout
    | some d =>
      obtain ⟨⟨ds', n₂⟩, hrest, -⟩ := exists_of_bind_eq_ok hafter
      exact (poppable_of_pop hround).1 (ih hrest)

/-- The loop ends when the bounds of the tree do not overlap. -/
theorem overlapsRecursive_of_popAll (h : n.popAll difference i fuel = .ok (ds, n')) :
    n' = null ∨ n'.overlapsRecursive i = false := by
  induction fuel generalizing n ds n' with
  | zero => cases h
  | succ fuel ih =>
    rw [popAll] at h
    obtain ⟨⟨n₁, ret⟩, hround, hafter⟩ := exists_of_bind_eq_ok h
    cases ret with
    | none =>
      cases hafter
      obtain ⟨hsame, hend⟩ := pop_none hround
      rw [hsame]
      exact hend
    | some d =>
      obtain ⟨⟨ds', n₂⟩, hrest, hafter⟩ := exists_of_bind_eq_ok hafter
      cases hafter
      exact ih hrest

/-- With an interval on either side of the one that is popped, the loop does not
return, whatever the difference of two pointers is. -/
theorem popAll_ne_ok_between (h : n.WellFormed) {d e : Data T} (hd : d ∈ n.all) (he : e ∈ n.all)
    (hbefore : d.interval.second < i.first) (hbehind : i.second < e.interval.first) :
    n.popAll difference i fuel ≠ .ok (ds, n') := by
  intro hpop
  have hremoves := popAll_spec h hpop
  have hd' : d ∈ n'.all := by
    rw [hremoves.all, List.mem_filter, decide_eq_true_eq, Interval.overlaps_iff]
    exact ⟨hd, by omega⟩
  have he' : e ∈ n'.all := by
    rw [hremoves.all, List.mem_filter, decide_eq_true_eq, Interval.overlaps_iff]
    exact ⟨he, by omega⟩
  rcases overlapsRecursive_of_popAll hpop with rfl | hout
  · cases hd'
  · cases n' with
    | null => cases hd'
    | node interval value lower upper height l r =>
      have hspans : Spans lower upper (node interval value lower upper height l r).all :=
        hremoves.bounded.1
      have hlower := hspans.lower_le d hd'
      have hupper := hspans.le_upper e he'
      have hd := d.interval.first_le_second
      have hi := i.first_le_second
      have he := e.interval.first_le_second
      have hin : Interval.boundsOverlap lower upper i = true := by
        rw [Interval.boundsOverlap_iff hspans.lower_le_upper]
        omega
      exact Bool.false_ne_true (hout.symm.trans hin)

end Node

/-! ## The tree -/

variable {T : Type} {tree tree' : UnicodeIntervalTree T} {results : List (Data T)}
  {difference : Node T → Node T → Except TreeFault Int} {fuel : Nat} {i : Interval}

open Node (node null Poppable pointerDifference)

theorem pop_eq_ok_iff :
    tree.pop difference fuel i = .ok (results, tree') ↔
      tree.root.popAll difference i fuel = .ok (results, tree'.root) := by
  unfold pop
  cases tree.root.popAll difference i fuel with
  | error fault =>
    constructor <;> intro h <;> cases h
  | ok after =>
    obtain ⟨results', root⟩ := after
    constructor
    · intro h
      cases h
      rfl
    · intro h
      cases h
      rfl

/-- The property of `pop`: it returns the pairs whose interval overlaps, each of
them once, and leaves the other ones in their order. -/
def PopsOverlapping (difference : Node T → Node T → Except TreeFault Int) (i : Interval)
    (tree : UnicodeIntervalTree T) : Prop :=
  ∃ fuel results tree', tree.pop difference fuel i = .ok (results, tree') ∧
    tree.root.RemovesOverlapping i results tree'.root

/-- The property holds of the trees that are poppable, and of no other one.  With
any difference of two pointers, a `pop` that returns removes exactly the
intervals that overlap. -/
theorem popsOverlapping_iff (h : tree.root.WellFormed) (i : Interval) :
    (tree.PopsOverlapping pointerDifference i ↔ Poppable i tree.root) ∧
      ∀ (difference : Node T → Node T → Except TreeFault Int) (fuel : Nat)
        (results : List (Data T)) (tree' : UnicodeIntervalTree T),
        tree.pop difference fuel i = .ok (results, tree') →
          tree.root.RemovesOverlapping i results tree'.root := by
  refine ⟨⟨?_, ?_⟩, fun difference fuel results tree' hpop => ?_⟩
  · intro hpops
    obtain ⟨fuel, results, tree', hpop, -⟩ := hpops
    exact Node.poppable_of_popAll (pop_eq_ok_iff.1 hpop)
  · intro hpoppable
    have hzero : pointerDifference (null : Node T) null = .ok 0 := rfl
    obtain ⟨fuel, results, n', hpop⟩ := Node.popAll_of_poppable hpoppable h hzero
    exact ⟨fuel, results, { root := n' }, pop_eq_ok_iff.2 hpop, Node.popAll_spec h hpop⟩
  · exact Node.popAll_spec h (pop_eq_ok_iff.1 hpop)

/-- The left child overlaps, and then the root. -/
theorem popsOverlapping_iff_two :
    PopsOverlapping pointerDifference ⟨1, 5, by decide⟩
      ⟨node ⟨5, 6, by decide⟩ 1 1 6 2 (node ⟨1, 2, by decide⟩ 0 1 2 1 null null) null⟩ := by
  have hleft : (node ⟨1, 2, by decide⟩ 0 1 2 1 null null).Bounded :=
    ⟨spans_singleton ⟨⟨1, 2, by decide⟩, 0⟩, trivial, trivial⟩
  have hright : (null : Node Nat).Bounded := trivial
  have hwell : (node ⟨5, 6, by decide⟩ 1 1 6 2 (node ⟨1, 2, by decide⟩ 0 1 2 1 null null)
      null).update.WellFormed := by
    refine Node.wellFormed_update ?_ hleft hright
    exact List.pairwise_pair.2 (Or.inl (by decide))
  have hoverlaps : (⟨1, 2, by decide⟩ : Interval).Overlaps ⟨1, 5, by decide⟩ := by decide
  exact (@popsOverlapping_iff Nat ⟨_⟩ hwell ⟨1, 5, by decide⟩).1.2 (.leaf hoverlaps)

/-- The root begins behind the interval and its left child ends before it, so
that the bounds overlap and the assertion fails. -/
theorem not_popsOverlapping_gap :
    (node ⟨10, 11, by decide⟩ 1 0 11 2 (node ⟨0, 1, by decide⟩ 0 0 1 1 null null)
        null).WellFormed ∧
      (node ⟨10, 11, by decide⟩ 1 0 11 2 (node ⟨0, 1, by decide⟩ 0 0 1 1 null null) null).pop
        pointerDifference ⟨5, 6, by decide⟩ = .error .assertionFailed ∧
      ¬ PopsOverlapping pointerDifference ⟨5, 6, by decide⟩
        ⟨node ⟨10, 11, by decide⟩ 1 0 11 2 (node ⟨0, 1, by decide⟩ 0 0 1 1 null null) null⟩ := by
  have hleft : (node ⟨0, 1, by decide⟩ 0 0 1 1 null null).Bounded :=
    ⟨spans_singleton ⟨⟨0, 1, by decide⟩, 0⟩, trivial, trivial⟩
  have hright : (null : Node Nat).Bounded := trivial
  have hwell : (node ⟨10, 11, by decide⟩ 1 0 11 2 (node ⟨0, 1, by decide⟩ 0 0 1 1 null null)
      null).update.WellFormed := by
    refine Node.wellFormed_update ?_ hleft hright
    exact List.pairwise_pair.2 (Or.inl (by decide))
  refine ⟨hwell, rfl, fun hpops => ?_⟩
  obtain ⟨fuel, results, tree', hpop, -⟩ := hpops
  exact Node.popAll_ne_ok_between hwell List.mem_cons_self
    (List.mem_cons_of_mem _ List.mem_cons_self) (by decide) (by decide) (pop_eq_ok_iff.1 hpop)

end UnicodeIntervalTree

end LogSurgeon
