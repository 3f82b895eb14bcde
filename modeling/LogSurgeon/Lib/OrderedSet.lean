import Mathlib.Data.List.Perm.Subperm
import Mathlib.Order.Basic

/-!
# Ordered sets and ordered maps as increasing lists

`std::set` and `std::map` visit their elements in the order of the comparison,
and code that loops over them depends on that order.  `OrderedSet` and
`OrderedMap` are the strictly increasing lists of their elements.  The order is
a field of the structure, so a list out of order cannot be built, and two sets
with the same elements are equal.

The comparison is the `Ord` instance of the element type.  The lemmas ask for
`Std.TransOrd` and `Std.LawfulEqOrd`, which say that it is a linear order.
-/

namespace LogSurgeon.Lib

open Std (TransOrd LawfulEqOrd OrientedCmp TransCmp LawfulEqCmp)

/-! ## Insertion into an increasing list -/

section InsertList

variable {α : Type*} [Ord α]

theorem not_compare_self_lt [TransOrd α] {a : α} (h : compare a a = .lt) : False := by
  simp at h

/-- `x` put at its place in an increasing list.  An equal element stays. -/
def insertList (x : α) : List α → List α
  | [] => [x]
  | y :: ys =>
    match compare x y with
    | .lt => x :: y :: ys
    | .eq => y :: ys
    | .gt => y :: insertList x ys

/-- The list is strictly increasing. -/
def Increasing (l : List α) : Prop := l.Pairwise (fun x y => compare x y = .lt)

theorem mem_insertList [LawfulEqOrd α] {x z : α} {l : List α} :
    z ∈ insertList x l ↔ z = x ∨ z ∈ l := by
  induction l with
  | nil => simp [insertList]
  | cons y ys ih =>
    rw [insertList]
    split
    · simp
    · rename_i heq
      rw [LawfulEqCmp.eq_of_compare heq]
      simp
    · simp only [List.mem_cons, ih]
      tauto

theorem increasing_insertList [TransOrd α] [LawfulEqOrd α] {x : α} {l : List α}
    (h : Increasing l) : Increasing (insertList x l) := by
  induction l with
  | nil => simp [insertList, Increasing]
  | cons y ys ih =>
    obtain ⟨hy, hys⟩ := List.pairwise_cons.1 h
    rw [insertList]
    split
    · rename_i hlt
      refine List.pairwise_cons.2 ⟨?_, h⟩
      intro z hz
      rcases List.mem_cons.1 hz with rfl | hz
      · exact hlt
      · exact TransCmp.lt_trans hlt (hy z hz)
    · exact h
    · rename_i hgt
      refine List.pairwise_cons.2 ⟨?_, ih hys⟩
      intro z hz
      rcases mem_insertList.1 hz with rfl | hz
      · exact OrientedCmp.lt_of_gt hgt
      · exact hy z hz

theorem Increasing.eq_of_mem_iff [TransOrd α] {l m : List α} (hl : Increasing l)
    (hm : Increasing m) (h : ∀ z, z ∈ l ↔ z ∈ m) : l = m := by
  have hirr : ∀ a b : α, compare a b = .lt → compare b a = .lt → a = b := by
    intro a b hab hba
    rw [OrientedCmp.gt_of_lt hab] at hba
    cases hba
  refine List.Perm.eq_of_pairwise (fun a b _ _ => hirr a b) hl hm ?_
  have hnodup : ∀ {k : List α}, Increasing k → k.Nodup := by
    intro k hk
    refine List.Pairwise.imp ?_ hk
    rintro a b hab rfl
    exact not_compare_self_lt hab
  exact (List.perm_ext_iff_of_nodup (hnodup hl) (hnodup hm)).2 h

end InsertList

/-! ## Ordered sets -/

/-- A set of elements of `α` in the order of their comparison. -/
structure OrderedSet (α : Type*) [Ord α] where
  toList : List α
  increasing : Increasing toList

namespace OrderedSet

variable {α : Type*} [Ord α]

instance [DecidableEq α] : DecidableEq (OrderedSet α) := fun s t =>
  decidable_of_iff (s.toList = t.toList) (by cases s; cases t; simp)

instance : Ord (OrderedSet α) := ⟨compareOn toList⟩

instance [TransOrd α] : TransOrd (OrderedSet α) :=
  inferInstanceAs (TransCmp (compareOn toList))

instance [LawfulEqOrd α] [TransOrd α] : LawfulEqOrd (OrderedSet α) where
  eq_of_compare {s t} h := by
    cases s
    cases t
    have hlist := LawfulEqOrd.eq_of_compare (α := List α) h
    simpa using hlist

instance : Membership α (OrderedSet α) := ⟨fun s x => x ∈ s.toList⟩

theorem mem_def {x : α} {s : OrderedSet α} : x ∈ s ↔ x ∈ s.toList := Iff.rfl

/-- The set without elements. -/
def empty : OrderedSet α := ⟨[], List.Pairwise.nil⟩

@[simp] theorem not_mem_empty (x : α) : x ∉ (empty : OrderedSet α) := by
  simp [mem_def, empty]

/-- The number of elements. -/
def size (s : OrderedSet α) : Nat := s.toList.length

/-- Whether some element compares equal to `x`. -/
def contains (s : OrderedSet α) (x : α) : Bool :=
  s.toList.any fun y => compare x y == .eq

theorem contains_iff [LawfulEqOrd α] {s : OrderedSet α} {x : α} : s.contains x = true ↔ x ∈ s := by
  simp only [contains, List.any_eq_true, beq_iff_eq, Std.LawfulEqOrd.compare_eq_iff_eq]
  constructor
  · rintro ⟨y, hy, rfl⟩
    exact hy
  · exact fun h => ⟨x, h, rfl⟩

/-- Two ordered sets with the same elements are equal. -/
theorem ext [TransOrd α] {s t : OrderedSet α} (h : ∀ z, z ∈ s ↔ z ∈ t) : s = t := by
  cases s with
  | mk l hl =>
    cases t with
    | mk m hm =>
      have hlm : l = m := hl.eq_of_mem_iff hm h
      subst hlm
      rfl

theorem nodup [TransOrd α] (s : OrderedSet α) : s.toList.Nodup := by
  refine List.Pairwise.imp ?_ s.increasing
  rintro a b hab rfl
  exact not_compare_self_lt hab

theorem size_le_length [TransOrd α] {s : OrderedSet α} {l : List α} (h : ∀ z ∈ s, z ∈ l) :
    s.size ≤ l.length := (List.subperm_of_subset s.nodup h).length_le

/-- A subset with as many elements is the whole set. -/
theorem eq_of_size_eq [TransOrd α] {s t : OrderedSet α} (h : ∀ z ∈ s, z ∈ t)
    (hsize : t.size = s.size) : t = s := by
  have hperm := (List.subperm_of_subset s.nodup h).perm_of_length_le (Nat.le_of_eq hsize)
  exact ext fun z => hperm.symm.mem_iff

variable [TransOrd α] [LawfulEqOrd α]

/-- `s` with `x`. -/
def insert (x : α) (s : OrderedSet α) : OrderedSet α :=
  ⟨insertList x s.toList, increasing_insertList s.increasing⟩

@[simp] theorem mem_insert {x z : α} {s : OrderedSet α} :
    z ∈ s.insert x ↔ z = x ∨ z ∈ s := mem_insertList

/-- `s` with every element of the list. -/
def insertAll (l : List α) (s : OrderedSet α) : OrderedSet α :=
  l.foldl (fun s x => s.insert x) s

@[simp] theorem mem_insertAll {z : α} {l : List α} {s : OrderedSet α} :
    z ∈ s.insertAll l ↔ z ∈ l ∨ z ∈ s := by
  induction l generalizing s with
  | nil => simp [insertAll]
  | cons x l ih =>
    have hstep : s.insertAll (x :: l) = (s.insert x).insertAll l := rfl
    rw [hstep, ih, mem_insert, List.mem_cons]
    tauto

/-- `s` without `x`. -/
def erase [DecidableEq α] (x : α) (s : OrderedSet α) : OrderedSet α :=
  ⟨s.toList.erase x, s.increasing.sublist List.erase_sublist⟩

omit [LawfulEqOrd α] in
@[simp] theorem mem_erase [DecidableEq α] {x z : α} {s : OrderedSet α} :
    z ∈ s.erase x ↔ z ≠ x ∧ z ∈ s := s.nodup.mem_erase_iff

end OrderedSet

/-! ## Ordered maps -/

/-- A map from `κ` to `β`, in the order of the keys. -/
structure OrderedMap (κ β : Type*) [Ord κ] where
  toList : List (κ × β)
  increasing : Increasing (toList.map Prod.fst)

namespace OrderedMap

variable {κ β : Type*} [Ord κ]

instance [DecidableEq κ] [DecidableEq β] : DecidableEq (OrderedMap κ β) := fun m n =>
  decidable_of_iff (m.toList = n.toList) (by cases m; cases n; simp)

theorem toList_injective {m n : OrderedMap κ β} (h : m.toList = n.toList) : m = n := by
  cases m
  cases n
  simpa using h

/-- Maps compare like the lists of their entries. -/
instance [Ord β] : Ord (OrderedMap κ β) :=
  ⟨fun m n => @compare (List (κ × β)) (@List.instOrd _ lexOrd) m.toList n.toList⟩

section Lawful

attribute [local instance] lexOrd

instance [Ord β] [TransOrd κ] [TransOrd β] : TransOrd (OrderedMap κ β) :=
  inferInstanceAs (TransCmp (compareOn (toList (κ := κ) (β := β))))

instance [Ord β] [LawfulEqOrd κ] [LawfulEqOrd β] : LawfulEqOrd (OrderedMap κ β) where
  compare_self {m} := Std.ReflOrd.compare_self (α := List (κ × β)) (a := m.toList)
  eq_of_compare {m n} h := by
    have hlist := LawfulEqOrd.eq_of_compare (α := List (κ × β)) h
    exact toList_injective hlist

end Lawful

/-- The map without entries. -/
def empty : OrderedMap κ β := ⟨[], List.Pairwise.nil⟩

/-- The value in the list at `k`. -/
def lookupList [DecidableEq κ] (k : κ) : List (κ × β) → Option β
  | [] => none
  | (k', v) :: l => if k = k' then some v else lookupList k l

/-- The value at `k`. -/
def find? [DecidableEq κ] (m : OrderedMap κ β) (k : κ) : Option β := lookupList k m.toList

/-- The list with the value `v` at `k`, in place of the value there. -/
def assignList (k : κ) (v : β) : List (κ × β) → List (κ × β)
  | [] => [(k, v)]
  | (k', v') :: l =>
    match compare k k' with
    | .lt => (k, v) :: (k', v') :: l
    | .eq => (k', v) :: l
    | .gt => (k', v') :: assignList k v l

theorem map_fst_assignList (k : κ) (v : β) (l : List (κ × β)) :
    (assignList k v l).map Prod.fst = insertList k (l.map Prod.fst) := by
  induction l with
  | nil => rfl
  | cons e l ih =>
    rw [assignList, List.map_cons, insertList]
    split <;> simp [*]

@[simp] theorem find?_empty [DecidableEq κ] (k : κ) :
    (empty : OrderedMap κ β).find? k = none := rfl

variable [TransOrd κ] [LawfulEqOrd κ]

/-- `insert_or_assign`: the map with the value `v` at `k`. -/
def insertOrAssign (k : κ) (v : β) (m : OrderedMap κ β) : OrderedMap κ β :=
  ⟨assignList k v m.toList, by
    rw [map_fst_assignList]
    exact increasing_insertList m.increasing⟩

variable [DecidableEq κ]

/-- `insert`: the map with the value `v` at `k`, unless `k` has a value. -/
def insert (k : κ) (v : β) (m : OrderedMap κ β) : OrderedMap κ β :=
  match m.find? k with
  | some _ => m
  | none => m.insertOrAssign k v

omit [TransOrd κ] in
theorem lookupList_assignList (k k' : κ) (v : β) (l : List (κ × β)) :
    lookupList k' (assignList k v l) = if k' = k then some v else lookupList k' l := by
  induction l with
  | nil => simp [assignList, lookupList]
  | cons e l ih =>
    obtain ⟨a, b⟩ := e
    rw [assignList]
    split
    · simp [lookupList]
    · rename_i heq
      have hka : k = a := LawfulEqCmp.eq_of_compare heq
      subst hka
      simp only [lookupList]
      split <;> simp_all
    · rename_i hgt
      simp only [lookupList, ih]
      by_cases hk : k' = k
      · subst hk
        have hne : k' ≠ a := by
          rintro rfl
          simp at hgt
        simp [hne]
      · simp [hk]

@[simp] theorem find?_insertOrAssign (k k' : κ) (v : β) (m : OrderedMap κ β) :
    (m.insertOrAssign k v).find? k' = if k' = k then some v else m.find? k' :=
  lookupList_assignList k k' v m.toList

theorem find?_insert (k k' : κ) (v : β) (m : OrderedMap κ β) :
    (m.insert k v).find? k' =
      if k' = k then some ((m.find? k).getD v) else m.find? k' := by
  rw [insert]
  split
  · rename_i w hw
    by_cases hk : k' = k
    · subst hk
      simp [hw]
    · simp [hk]
  · rename_i hw
    rw [find?_insertOrAssign, hw, Option.getD_none]

omit [LawfulEqOrd κ] in
theorem lookupList_eq_some_iff {k : κ} {v : β} {l : List (κ × β)}
    (h : Increasing (l.map Prod.fst)) : lookupList k l = some v ↔ (k, v) ∈ l := by
  induction l with
  | nil => simp [lookupList]
  | cons e l ih =>
    obtain ⟨a, b⟩ := e
    obtain ⟨ha, hl⟩ := List.pairwise_cons.1 h
    simp only [lookupList, List.mem_cons, Prod.mk.injEq]
    by_cases hk : k = a
    · subst hk
      have hnot : (k, v) ∉ l := by
        intro hmem
        exact not_compare_self_lt (ha k (List.mem_map.2 ⟨(k, v), hmem, rfl⟩))
      simp [hnot, eq_comm]
    · rw [if_neg hk, ih hl]
      simp [hk]

omit [LawfulEqOrd κ] in
/-- The entries of the map are the pairs of a key and its value. -/
theorem mem_toList_iff {k : κ} {v : β} {m : OrderedMap κ β} :
    (k, v) ∈ m.toList ↔ m.find? k = some v :=
  (lookupList_eq_some_iff m.increasing).symm

omit [LawfulEqOrd κ] in
/-- Two maps with the same values are equal. -/
theorem ext {m n : OrderedMap κ β} (h : ∀ k, m.find? k = n.find? k) : m = n := by
  refine toList_injective ?_
  have hmem : ∀ e : κ × β, e ∈ m.toList ↔ e ∈ n.toList := by
    rintro ⟨k, v⟩
    rw [mem_toList_iff, mem_toList_iff, h]
  have hirr : ∀ a b : κ × β, compare a.1 b.1 = .lt → compare b.1 a.1 = .lt → a = b := by
    intro a b hab hba
    rw [OrientedCmp.gt_of_lt hab] at hba
    cases hba
  have hm := List.pairwise_map.1 m.increasing
  have hn := List.pairwise_map.1 n.increasing
  refine List.Perm.eq_of_pairwise (fun a b _ _ => hirr a b) hm hn ?_
  have hnodup : ∀ {l : List (κ × β)},
      l.Pairwise (fun a b => compare a.1 b.1 = .lt) → l.Nodup := by
    intro l hl
    refine List.Pairwise.imp ?_ hl
    rintro a b hab rfl
    exact not_compare_self_lt hab
  exact (List.perm_ext_iff_of_nodup (hnodup hm) (hnodup hn)).2 hmem

end OrderedMap

end LogSurgeon.Lib
