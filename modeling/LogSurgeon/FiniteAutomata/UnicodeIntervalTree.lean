import LogSurgeon.Token
import Mathlib.Data.List.Basic

/-!
# The interval tree

`UnicodeIntervalTree` is the search tree of `UnicodeIntervalTree.tpp`, which
maps intervals of code points to values.  A node has the bounds of the intervals
of its subtree, so that a search can leave a subtree out.

* A `Node` is a `std::unique_ptr<Node>`: `null`, or a node that owns its
  subtrees.
* `balance_factor` subtracts two pointers.  What the difference of two pointers
  is comes as a parameter, from the pointer to the right child and the one to the
  left child.  `pointerDifference` is the one that the language defines.
* `Keeps` says of an operation that it changes neither the contents nor their
  order, and that the bounds stay those of the subtrees.  Rotations and
  rebalancing keep the tree, whatever the difference of two pointers is
  (`keeps_balance`).
-/

namespace LogSurgeon

/-- Why an operation on a tree does not return. -/
inductive TreeFault where
  | assertionFailed
  | nullPointer
  /-- Pointers are subtracted that do not point into one array. -/
  | undefinedDifference
  /-- The number of steps that the model allows is used up. -/
  | outOfSteps
deriving DecidableEq, Repr

/-! ## Intervals -/

structure Interval where
  first : Nat
  second : Nat
  first_le_second : first ≤ second
deriving Repr

namespace Interval

/-- The order of pairs. -/
instance : LT Interval where
  lt i j := i.first < j.first ∨ i.first = j.first ∧ i.second < j.second

instance (i j : Interval) : Decidable (i < j) :=
  inferInstanceAs (Decidable (_ ∨ _))

theorem lt_iff {i j : Interval} :
    i < j ↔ i.first < j.first ∨ i.first = j.first ∧ i.second < j.second := Iff.rfl

theorem lt_trans {i j k : Interval} (h : i < j) (h' : j < k) : i < k := by
  rw [lt_iff] at h h' ⊢
  omega

theorem lt_irrefl (i : Interval) : ¬ i < i := by
  rw [lt_iff]
  omega

theorem first_le_of_lt {i j : Interval} (h : i < j) : i.first ≤ j.first := by
  rw [lt_iff] at h
  omega

theorem eq_of_not_lt {i j : Interval} (h : ¬ i < j) (h' : ¬ j < i) : i = j := by
  rw [lt_iff] at h h'
  obtain ⟨first, second, _⟩ := i
  obtain ⟨first', second', _⟩ := j
  dsimp only at h h'
  obtain rfl : first = first' := by omega
  obtain rfl : second = second' := by omega
  rfl

/-- The intervals have a point in common. -/
def Overlaps (i j : Interval) : Prop :=
  ∃ c, (i.first ≤ c ∧ c ≤ i.second) ∧ (j.first ≤ c ∧ c ≤ j.second)

theorem overlaps_iff {i j : Interval} :
    i.Overlaps j ↔ i.first ≤ j.second ∧ j.first ≤ i.second := by
  constructor
  · rintro ⟨c, hi, hj⟩
    omega
  · intro h
    have hi := i.first_le_second
    have hj := j.first_le_second
    exact ⟨max i.first j.first, by omega, by omega⟩

instance (i j : Interval) : Decidable (i.Overlaps j) := decidable_of_iff _ overlaps_iff.symm

/-- The test of the source, for the bounds of an interval or of a subtree. -/
def boundsOverlap (lower upper : Nat) (i : Interval) : Bool :=
  decide (lower ≤ i.first ∧ i.first ≤ upper) || decide (lower ≤ i.second ∧ i.second ≤ upper) ||
    decide (i.first ≤ lower ∧ lower ≤ i.second)

theorem boundsOverlap_iff {lower upper : Nat} (h : lower ≤ upper) (i : Interval) :
    boundsOverlap lower upper i ↔ lower ≤ i.second ∧ i.first ≤ upper := by
  have hi := i.first_le_second
  unfold boundsOverlap
  simp only [Bool.or_eq_true, decide_eq_true_eq]
  omega

end Interval

/-! ## The tree -/

namespace UnicodeIntervalTree

structure Data (T : Type) where
  interval : Interval
  value : T
deriving Repr

inductive Node (T : Type) where
  | null
  | node (interval : Interval) (value : T) (lower upper height : Nat) (left right : Node T)
deriving Repr

namespace Node

variable {T : Type}

def left : Node T → Node T
  | null => null
  | node _ _ _ _ _ left _ => left

def right : Node T → Node T
  | null => null
  | node _ _ _ _ _ _ right => right

def lower : Node T → Nat
  | null => 0
  | node _ _ lower _ _ _ _ => lower

def upper : Node T → Nat
  | null => 0
  | node _ _ _ upper _ _ _ => upper

def height : Node T → Nat
  | null => 0
  | node _ _ _ _ height _ _ => height

def setLeft : Node T → Node T → Node T
  | null, _ => null
  | node interval value lower upper height _ right, left =>
    node interval value lower upper height left right

def setRight : Node T → Node T → Node T
  | null, _ => null
  | node interval value lower upper height left _, right =>
    node interval value lower upper height left right

/-- The number of nodes. -/
def size : Node T → Nat
  | null => 0
  | node _ _ _ _ _ left right => left.size + right.size + 1

def all : Node T → List (Data T)
  | null => []
  | node interval value _ _ _ left right => left.all ++ ⟨interval, value⟩ :: right.all

def overlapsRecursive (i : Interval) (n : Node T) : Bool :=
  Interval.boundsOverlap n.lower n.upper i

def overlaps (i interval : Interval) : Bool :=
  Interval.boundsOverlap interval.first interval.second i

def find (i : Interval) : Node T → List (Data T)
  | null => []
  | node interval value lower upper height left right =>
    if ! (node interval value lower upper height left right).overlapsRecursive i then []
    else
      left.find i ++ (if overlaps i interval then [⟨interval, value⟩] else []) ++ right.find i

/-- With one child, the height is always 2. -/
def update : Node T → Node T
  | null => null
  | node interval value _ _ _ null null =>
    node interval value interval.first interval.second 1 null null
  | node interval value _ _ _ null right =>
    node interval value interval.first (max interval.second right.upper) 2 null right
  | node interval value _ _ _ left null =>
    node interval value left.lower (max interval.second left.upper) 2 left null
  | node interval value _ _ _ left right =>
    node interval value left.lower (max (max interval.second left.upper) right.upper)
      (max left.height right.height + 1) left right

def rotateCw : Node T → Except TreeFault (Node T)
  | node interval value lower upper height
      (node interval' value' lower' upper' height' left' right') right =>
    .ok (node interval' value' lower' upper' height' left'
      (node interval value lower upper height right' right).update).update
  | _ => .error .nullPointer

def rotateCcw : Node T → Except TreeFault (Node T)
  | node interval value lower upper height left
      (node interval' value' lower' upper' height' left' right') =>
    .ok (node interval' value' lower' upper' height'
      (node interval value lower upper height left left').update right').update
  | _ => .error .nullPointer

def rotate (factor : Int) (n : Node T) : Except TreeFault (Node T) :=
  if factor < 0 then n.rotateCw else if factor > 0 then n.rotateCcw else .ok n

/-- The difference of two pointers to separate nodes is not defined, nor is that
of a node and the null pointer. -/
def pointerDifference : Node T → Node T → Except TreeFault Int
  | null, null => .ok 0
  | _, _ => .error .undefinedDifference

section

variable (difference : Node T → Node T → Except TreeFault Int)

/-- The factor is not a difference of heights. -/
def balanceFactor : Node T → Except TreeFault Int
  | null => .error .nullPointer
  | node _ _ _ _ _ left right => difference right left

/-- The two rotations of a node that is not balanced. -/
def rebalance (factor subFactor : Int) (n : Node T) : Except TreeFault (Node T) :=
  if factor * subFactor > 0 then n.rotate factor
  else if factor = 2 then do
    let right ← n.right.rotate subFactor
    (n.setRight right).rotate factor
  else do
    let left ← n.left.rotate subFactor
    (n.setLeft left).rotate factor

def balance (n : Node T) : Except TreeFault (Node T) := do
  let factor ← n.balanceFactor difference
  if factor * factor ≤ 1 then return n
  else
    let subFactor ← (if factor < 0 then n.left else n.right).balanceFactor difference
    n.rebalance factor subFactor

/-- The tree behind the insertion. -/
def insert (i : Interval) (v : T) : Node T → Except TreeFault (Node T)
  | null => .ok (node i v 0 0 0 null null).update
  | node interval value lower upper height left right =>
    if i < interval then do
      let left ← left.insert i v
      (node interval value lower upper height left right).update.balance difference
    else if interval < i then do
      let right ← right.insert i v
      (node interval value lower upper height left right).update.balance difference
    else (node interval v lower upper height left right).update.balance difference

/-- The tree without its minimum, and the minimum. -/
def popMin : Node T → Except TreeFault (Node T × Data T)
  | null => .error .assertionFailed
  | node _ _ _ _ _ null null => .error .assertionFailed
  | node interval value _ _ _ null right => .ok (right, ⟨interval, value⟩)
  | node interval value lower upper height left right => do
    let (left, ret) ← left.popMin
    let n ← (node interval value lower upper height left right).update.balance difference
    return (n, ret)

/-- What stands in the place of a node that is removed. -/
def replacement (left right : Node T) : Except TreeFault (Node T) :=
  match left, right with
  | null, right => .ok right
  | left, null => .ok left
  | left, right => do
    let (subTree, ret) ← right.popMin difference
    (node ret.interval ret.value 0 0 0 left subTree).update.balance difference

/-- The tree without one of the intervals that overlap, and that interval.  The
right subtree is never searched. -/
def pop (i : Interval) : Node T → Except TreeFault (Node T × Option (Data T))
  | null => .ok (null, none)
  | node interval value lower upper height left right =>
    if ! (node interval value lower upper height left right).overlapsRecursive i then
      .ok (node interval value lower upper height left right, none)
    else do
      match ← left.pop i with
      | (left, some ret) =>
        let n ← (node interval value lower upper height left right).update.balance difference
        return (n, some ret)
      | (left, none) =>
        if ! overlaps i interval then .error .assertionFailed
        else
          let n ← replacement difference left right
          return (n, some ⟨interval, value⟩)

/-- The loop of `UnicodeIntervalTree::pop`: what it pops, and the tree. -/
def popAll (i : Interval) : Nat → Node T → Except TreeFault (List (Data T) × Node T)
  | 0, _ => .error .outOfSteps
  | fuel + 1, n => do
    match ← n.pop difference i with
    | (n, none) => return ([], n)
    | (n, some ret) =>
      let (results, n) ← n.popAll i fuel
      return (ret :: results, n)

end

end Node

end UnicodeIntervalTree

structure UnicodeIntervalTree (T : Type) where
  root : UnicodeIntervalTree.Node T := .null

namespace UnicodeIntervalTree

variable {T : Type}

def all (tree : UnicodeIntervalTree T) : List (Data T) := tree.root.all

/-- The root is not compared with the null pointer. -/
def find (tree : UnicodeIntervalTree T) (i : Interval) : Except TreeFault (List (Data T)) :=
  match tree.root with
  | .null => .error .nullPointer
  | root => .ok (root.find i)

variable (difference : Node T → Node T → Except TreeFault Int)

def insert (tree : UnicodeIntervalTree T) (i : Interval) (v : T) :
    Except TreeFault (UnicodeIntervalTree T) := do
  let root ← tree.root.insert difference i v
  return { root := root }

def pop (tree : UnicodeIntervalTree T) (fuel : Nat) (i : Interval) :
    Except TreeFault (List (Data T) × UnicodeIntervalTree T) := do
  let (results, root) ← tree.root.popAll difference i fuel
  return (results, { root := root })

end UnicodeIntervalTree

/-! ## Contents and bounds -/

namespace UnicodeIntervalTree

variable {T : Type}

/-- The order of the intervals, which are pairwise different. -/
def Ordered (ds : List (Data T)) : Prop := ds.Pairwise fun d e => d.interval < e.interval

/-- The bounds are those of the intervals. -/
structure Spans (lower upper : Nat) (ds : List (Data T)) : Prop where
  lower_le : ∀ d ∈ ds, lower ≤ d.interval.first
  le_upper : ∀ d ∈ ds, d.interval.second ≤ upper
  lower_mem : ∃ d ∈ ds, d.interval.first = lower
  upper_mem : ∃ d ∈ ds, d.interval.second = upper

variable {lower upper lower' upper' : Nat} {d : Data T} {ds es : List (Data T)}

theorem Spans.lower_le_upper (h : Spans lower upper ds) : lower ≤ upper := by
  obtain ⟨d, hd, rfl⟩ := h.lower_mem
  have hupper := h.le_upper d hd
  have hd := d.interval.first_le_second
  omega

/-- The bounds overlap an interval that one of the intervals overlaps. -/
theorem Spans.boundsOverlap (h : Spans lower upper ds) (hd : d ∈ ds) {i : Interval}
    (hoverlaps : d.interval.Overlaps i) : Interval.boundsOverlap lower upper i := by
  rw [Interval.boundsOverlap_iff h.lower_le_upper]
  rw [Interval.overlaps_iff] at hoverlaps
  have hlower := h.lower_le d hd
  have hupper := h.le_upper d hd
  omega

theorem spans_singleton (d : Data T) : Spans d.interval.first d.interval.second [d] := by
  refine ⟨?_, ?_, ⟨d, by simp, rfl⟩, ⟨d, by simp, rfl⟩⟩ <;> simp

theorem Spans.append (h : Spans lower upper ds) (h' : Spans lower' upper' es)
    (hle : lower ≤ lower') : Spans lower (max upper upper') (ds ++ es) where
  lower_le := by
    intro d hd
    rcases List.mem_append.1 hd with hd | hd
    · exact h.lower_le d hd
    · have := h'.lower_le d hd
      omega
  le_upper := by
    intro d hd
    rcases List.mem_append.1 hd with hd | hd
    · have := h.le_upper d hd
      omega
    · have := h'.le_upper d hd
      omega
  lower_mem := by
    obtain ⟨d, hd, hlower⟩ := h.lower_mem
    exact ⟨d, List.mem_append_left _ hd, hlower⟩
  upper_mem := by
    obtain ⟨d, hd, hupper⟩ := h.upper_mem
    obtain ⟨e, he, hupper'⟩ := h'.upper_mem
    by_cases hle : upper ≤ upper'
    · exact ⟨e, List.mem_append_right _ he, by omega⟩
    · exact ⟨d, List.mem_append_left _ hd, by omega⟩

/-- The intervals of an ordered list do not start before its first one. -/
theorem Spans.cons (h : Spans lower upper ds) (hordered : Ordered (d :: ds)) :
    Spans d.interval.first (max d.interval.second upper) (d :: ds) := by
  apply (spans_singleton d).append h
  obtain ⟨e, he, rfl⟩ := h.lower_mem
  exact Interval.first_le_of_lt ((List.pairwise_cons.1 hordered).1 e he)

namespace Node

/-- Every node lies between the nodes of its two subtrees. -/
def IsSearchTree : Node T → Prop
  | null => True
  | node interval _ _ _ _ left right =>
    (∀ d ∈ left.all, d.interval < interval) ∧ (∀ d ∈ right.all, interval < d.interval) ∧
      left.IsSearchTree ∧ right.IsSearchTree

/-- The bounds of every node are those of its subtree. -/
def Bounded : Node T → Prop
  | null => True
  | node interval value lower upper _ left right =>
    Spans lower upper (left.all ++ ⟨interval, value⟩ :: right.all) ∧ left.Bounded ∧ right.Bounded

structure WellFormed (n : Node T) : Prop where
  searchTree : n.IsSearchTree
  bounded : n.Bounded

theorem isSearchTree_iff {n : Node T} : n.IsSearchTree ↔ Ordered n.all := by
  induction n with
  | null => simp [IsSearchTree, Ordered, all]
  | node interval value lower upper height left right ihl ihr =>
    unfold Ordered at ihl ihr
    simp only [IsSearchTree, Ordered, all, List.pairwise_append, List.pairwise_cons,
      List.mem_cons, forall_eq_or_imp, ihl, ihr]
    constructor
    · intro h
      refine ⟨h.2.2.1, ⟨h.2.1, h.2.2.2⟩, fun d hd => ⟨h.1 d hd, fun e he => ?_⟩⟩
      exact Interval.lt_trans (h.1 d hd) (h.2.1 e he)
    · intro h
      exact ⟨fun d hd => (h.2.2 d hd).1, h.2.1.1, h.1, h.2.1.2⟩

variable {n n' l r : Node T} {interval : Interval} {value : T} {height : Nat}

theorem WellFormed.left (h : (node interval value lower upper height l r).WellFormed) :
    l.WellFormed := ⟨h.searchTree.2.2.1, h.bounded.2.1⟩

theorem WellFormed.right (h : (node interval value lower upper height l r).WellFormed) :
    r.WellFormed := ⟨h.searchTree.2.2.2, h.bounded.2.2⟩

theorem WellFormed.spans (h : (node interval value lower upper height l r).WellFormed) :
    Spans lower upper (node interval value lower upper height l r).all := h.bounded.1

/-- Nothing overlaps an interval that the bounds do not overlap. -/
theorem WellFormed.not_overlaps (h : n.WellFormed) {i : Interval}
    (hout : n.overlapsRecursive i = false) : ∀ d ∈ n.all, ¬ d.interval.Overlaps i := by
  intro d hd hoverlaps
  cases n with
  | null => cases hd
  | node =>
    have hbounds := h.spans.boundsOverlap hd hoverlaps
    unfold overlapsRecursive at hout
    exact Bool.false_ne_true (hout.symm.trans hbounds)

theorem overlaps_iff {i : Interval} : overlaps i interval ↔ interval.Overlaps i := by
  unfold overlaps
  rw [Interval.boundsOverlap_iff interval.first_le_second, Interval.overlaps_iff]

/-! ## Updates and rotations -/

@[simp] theorem all_update (n : Node T) : n.update.all = n.all := by
  unfold update
  split <;> simp [all]

@[simp] theorem left_update (n : Node T) : n.update.left = n.left := by
  unfold update
  split <;> rfl

@[simp] theorem right_update (n : Node T) : n.update.right = n.right := by
  unfold update
  split <;> rfl

/-- The bounds of a node come from those of its children. -/
theorem wellFormed_update (hordered : Ordered (node interval value lower upper height l r).all)
    (hl : l.Bounded) (hr : r.Bounded) :
    (node interval value lower upper height l r).update.WellFormed := by
  refine ⟨isSearchTree_iff.2 ?_, ?_⟩
  · rw [all_update]
    exact hordered
  · have hcons : Ordered (⟨interval, value⟩ :: r.all) :=
      hordered.sublist (List.sublist_append_right _ _)
    have hfirst : ∀ d ∈ l.all, d.interval.first ≤ interval.first := by
      intro d hd
      exact Interval.first_le_of_lt ((isSearchTree_iff.2 hordered).1 d hd)
    cases l with
    | null =>
      cases r with
      | null => exact ⟨spans_singleton ⟨interval, value⟩, trivial, trivial⟩
      | node => exact ⟨hr.1.cons hcons, trivial, hr⟩
    | node =>
      obtain ⟨d, hd, hlower⟩ := hl.1.lower_mem
      have hle := hfirst d hd
      cases r with
      | null =>
        refine ⟨?_, hl, trivial⟩
        rw [Nat.max_comm]
        apply hl.1.append (spans_singleton ⟨interval, value⟩)
        show _ ≤ interval.first
        omega
      | node =>
        refine ⟨?_, hl, hr⟩
        rw [Nat.max_comm interval.second, Nat.max_assoc]
        apply hl.1.append (hr.1.cons hcons)
        show _ ≤ interval.first
        omega

/-- The contents and their order stay as they are, and the bounds stay right. -/
structure Keeps (n n' : Node T) : Prop where
  all : n'.all = n.all
  wellFormed : n.WellFormed → n'.WellFormed

theorem Keeps.refl (n : Node T) : Keeps n n := ⟨rfl, id⟩

theorem Keeps.trans {n'' : Node T} (h : Keeps n n') (h' : Keeps n' n'') : Keeps n n'' :=
  ⟨h'.all.trans h.all, fun hn => h'.wellFormed (h.wellFormed hn)⟩

theorem keeps_rotateCw (h : n.rotateCw = .ok n') : Keeps n n' := by
  unfold rotateCw at h
  split at h
  · cases h
    refine ⟨by simp [all], fun hn => ?_⟩
    have hordered := isSearchTree_iff.1 hn.searchTree
    have hl := hn.left
    apply wellFormed_update
    · simpa [all] using hordered
    · exact hl.left.bounded
    · refine (wellFormed_update ?_ hl.right.bounded hn.right.bounded).bounded
      refine hordered.sublist ?_
      simp [all]
  · cases h

theorem keeps_rotateCcw (h : n.rotateCcw = .ok n') : Keeps n n' := by
  unfold rotateCcw at h
  split at h
  · cases h
    refine ⟨by simp [all], fun hn => ?_⟩
    have hordered := isSearchTree_iff.1 hn.searchTree
    have hr := hn.right
    apply wellFormed_update
    · simpa [all] using hordered
    · refine (wellFormed_update ?_ hn.left.bounded hr.left.bounded).bounded
      refine hordered.sublist ?_
      simp [all]
    · exact hr.right.bounded
  · cases h

theorem keeps_rotate {factor : Int} (h : n.rotate factor = .ok n') : Keeps n n' := by
  unfold rotate at h
  split at h
  · exact keeps_rotateCw h
  · split at h
    · exact keeps_rotateCcw h
    · cases h
      exact .refl n

theorem keeps_setLeft (h : Keeps n.left l) : Keeps n (n.setLeft l) := by
  cases n with
  | null => exact .refl null
  | node interval value lower upper height left right =>
    have hall : l.all = left.all := h.all
    refine ⟨by simp [setLeft, all, hall], fun hn => ⟨?_, ?_, (h.wellFormed hn.left).bounded, ?_⟩⟩
    · rw [isSearchTree_iff]
      simpa [setLeft, all, hall] using isSearchTree_iff.1 hn.searchTree
    · rw [hall]
      exact hn.spans
    · exact hn.right.bounded

theorem keeps_setRight (h : Keeps n.right r) : Keeps n (n.setRight r) := by
  cases n with
  | null => exact .refl null
  | node interval value lower upper height left right =>
    have hall : r.all = right.all := h.all
    refine ⟨by simp [setRight, all, hall], fun hn => ⟨?_, ?_, hn.left.bounded, ?_⟩⟩
    · rw [isSearchTree_iff]
      simpa [setRight, all, hall] using isSearchTree_iff.1 hn.searchTree
    · rw [hall]
      exact hn.spans
    · exact (h.wellFormed hn.right).bounded

theorem keeps_rebalance {factor subFactor : Int} (h : n.rebalance factor subFactor = .ok n') :
    Keeps n n' := by
  unfold rebalance at h
  split at h
  · exact keeps_rotate h
  · split at h
    · obtain ⟨right, hright, h⟩ := exists_of_bind_eq_ok h
      exact (keeps_setRight (keeps_rotate hright)).trans (keeps_rotate h)
    · obtain ⟨left, hleft, h⟩ := exists_of_bind_eq_ok h
      exact (keeps_setLeft (keeps_rotate hleft)).trans (keeps_rotate h)

variable {difference : Node T → Node T → Except TreeFault Int}

theorem keeps_balance (h : n.balance difference = .ok n') : Keeps n n' := by
  obtain ⟨factor, -, h⟩ := exists_of_bind_eq_ok h
  split at h
  · cases h
    exact .refl n
  · obtain ⟨subFactor, -, h⟩ := exists_of_bind_eq_ok h
    exact keeps_rebalance h

/-- A node whose children are right is so behind its update and rebalancing. -/
theorem wellFormed_balance_update
    (h : (node interval value lower upper height l r).update.balance difference = .ok n')
    (hordered : Ordered (node interval value lower upper height l r).all) (hl : l.Bounded)
    (hr : r.Bounded) :
    n'.all = (node interval value lower upper height l r).all ∧ n'.WellFormed := by
  have hkeeps := keeps_balance h
  exact ⟨hkeeps.all.trans (all_update _), hkeeps.wellFormed (wellFormed_update hordered hl hr)⟩

/-! ## Searches and insertions -/

/-- A search visits both subtrees, and finds every interval that overlaps. -/
theorem find_eq (h : n.WellFormed) (i : Interval) :
    n.find i = n.all.filter fun d => d.interval.Overlaps i := by
  induction n with
  | null => rfl
  | node interval value lower upper height l r ihl ihr =>
    cases hout : (node interval value lower upper height l r).overlapsRecursive i with
    | false =>
      have hnone : (node interval value lower upper height l r).all.filter
          (fun d => d.interval.Overlaps i) = [] := by
        rw [List.filter_eq_nil_iff]
        simpa using h.not_overlaps hout
      rw [hnone, find, hout]
      rfl
    | true =>
      rw [find, hout, ihl h.left, ihr h.right]
      by_cases hoverlaps : interval.Overlaps i
      · simp [all, overlaps_iff.2 hoverlaps, hoverlaps]
      · have hno : overlaps i interval = false := by
          rw [← Bool.not_eq_true, overlaps_iff]
          exact hoverlaps
        simp [all, hno, hoverlaps]

theorem filter_lt_of_forall {i : Interval} (h : ∀ d ∈ ds, d.interval < i) :
    ds.filter (·.interval < i) = ds ∧ ds.filter (i < ·.interval) = [] := by
  constructor
  · rw [List.filter_eq_self]
    simpa using h
  · rw [List.filter_eq_nil_iff]
    intro d hd hlt
    exact Interval.lt_irrefl i (Interval.lt_trans (of_decide_eq_true hlt) (h d hd))

theorem filter_lt_of_forall' {i : Interval} (h : ∀ d ∈ ds, i < d.interval) :
    ds.filter (·.interval < i) = [] ∧ ds.filter (i < ·.interval) = ds := by
  constructor
  · rw [List.filter_eq_nil_iff]
    intro d hd hlt
    exact Interval.lt_irrefl i (Interval.lt_trans (h d hd) (of_decide_eq_true hlt))
  · rw [List.filter_eq_self]
    simpa using h

/-- The pairs with a new one between the smaller and the larger intervals. -/
def inserted (i : Interval) (v : T) (ds : List (Data T)) : List (Data T) :=
  ds.filter (·.interval < i) ++ ⟨i, v⟩ :: ds.filter (i < ·.interval)

theorem ordered_inserted (h : Ordered ds) (i : Interval) (v : T) : Ordered (inserted i v ds) := by
  unfold inserted Ordered
  simp only [List.pairwise_append, List.pairwise_cons, List.mem_cons, List.mem_filter,
    decide_eq_true_eq, forall_eq_or_imp]
  refine ⟨h.filter _, ⟨fun d hd => hd.2, h.filter _⟩, fun d hd => ⟨hd.2, fun e he => ?_⟩⟩
  exact Interval.lt_trans hd.2 he.2

/-- An insertion puts the pair in its place, and keeps the other ones. -/
theorem insert_spec {i : Interval} {v : T} (h : n.WellFormed)
    (hinsert : n.insert difference i v = .ok n') :
    n'.all = inserted i v n.all ∧ n'.WellFormed := by
  induction n generalizing n' with
  | null =>
    cases hinsert
    exact ⟨rfl, wellFormed_update (List.pairwise_singleton _ _) trivial trivial⟩
  | node interval value lower upper height l r ihl ihr =>
    have hordered := isSearchTree_iff.1 h.searchTree
    have hl := h.searchTree.1
    have hr := h.searchTree.2.1
    unfold insert at hinsert
    split at hinsert
    · rename_i hlt
      obtain ⟨l', hl', hbalance⟩ := exists_of_bind_eq_ok hinsert
      obtain ⟨hall, hwell⟩ := ihl h.left hl'
      have hafter := filter_lt_of_forall' fun d hd => Interval.lt_trans hlt (hr d hd)
      have hno : ¬ interval < i := fun hlt' => Interval.lt_irrefl i (Interval.lt_trans hlt hlt')
      have hcontents : (node interval value lower upper height l' r).all =
          inserted i v (node interval value lower upper height l r).all := by
        simp [all, inserted, hall, hafter, hlt, hno]
      rw [← hcontents]
      exact wellFormed_balance_update hbalance (hcontents ▸ ordered_inserted hordered i v)
        hwell.bounded h.right.bounded
    · rename_i hno
      split at hinsert
      · rename_i hlt
        obtain ⟨r', hr', hbalance⟩ := exists_of_bind_eq_ok hinsert
        obtain ⟨hall, hwell⟩ := ihr h.right hr'
        have hbefore := filter_lt_of_forall fun d hd => Interval.lt_trans (hl d hd) hlt
        have hcontents : (node interval value lower upper height l r').all =
            inserted i v (node interval value lower upper height l r).all := by
          simp [all, inserted, hall, hbefore, hlt, hno]
        rw [← hcontents]
        exact wellFormed_balance_update hbalance (hcontents ▸ ordered_inserted hordered i v)
          h.left.bounded hwell.bounded
      · rename_i hno'
        obtain rfl : i = interval := Interval.eq_of_not_lt hno hno'
        have hcontents : (node i v lower upper height l r).all =
            inserted i v (node i value lower upper height l r).all := by
          simp [all, inserted, filter_lt_of_forall hl, filter_lt_of_forall' hr,
            Interval.lt_irrefl]
        rw [← hcontents]
        exact wellFormed_balance_update hinsert (hcontents ▸ ordered_inserted hordered i v)
          h.left.bounded h.right.bounded

end Node

variable {tree tree' : UnicodeIntervalTree T} {i : Interval}

/-- A search of a tree that is not empty finds exactly the intervals that
overlap. -/
theorem find_eq_ok (h : tree.root.WellFormed) (hroot : tree.root ≠ .null) :
    tree.find i = .ok (tree.all.filter fun d => d.interval.Overlaps i) := by
  unfold find all
  cases hnode : tree.root with
  | null => exact absurd hnode hroot
  | node =>
    rw [← Node.find_eq (hnode ▸ h)]

theorem insert_eq_ok {difference : Node T → Node T → Except TreeFault Int} {v : T}
    (h : tree.root.WellFormed) (hinsert : tree.insert difference i v = .ok tree') :
    tree'.all = Node.inserted i v tree.all ∧ tree'.root.WellFormed := by
  obtain ⟨root, hroot, hinsert⟩ := exists_of_bind_eq_ok hinsert
  cases hinsert
  exact Node.insert_spec h hroot

end UnicodeIntervalTree

end LogSurgeon
