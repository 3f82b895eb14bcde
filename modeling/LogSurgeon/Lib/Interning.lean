import Mathlib.Data.List.Basic
import Mathlib.Data.List.Infix
import Mathlib.Data.List.Nodup

/-!
# Numbering names as they come

A name that is new gets the next number, so the numbers are the positions in the
list of the names.  A number never changes: the list only grows at its end.
-/

namespace LogSurgeon.Lib

namespace Interning

variable {α : Type} [DecidableEq α]

def intern (names : List α) (name : α) : List α :=
  if name ∈ names then names else names ++ [name]

def internAll (names : List α) (more : List α) : List α := more.foldl intern names

variable {names names' more : List α} {name x y : α}

theorem prefix_intern (names : List α) (name : α) : names <+: intern names name := by
  unfold intern
  split
  · exact List.prefix_refl names
  · exact List.prefix_append names [name]

theorem length_intern_le (names : List α) (name : α) :
    (intern names name).length ≤ names.length + 1 := by
  unfold intern
  split
  · exact Nat.le_succ _
  · rw [List.length_append, List.length_singleton]

theorem length_internAll_le (names more : List α) :
    (internAll names more).length ≤ names.length + more.length := by
  induction more generalizing names with
  | nil => exact Nat.le_refl _
  | cons name more ih =>
    have hname := length_intern_le names name
    have hlater := ih (intern names name)
    show (internAll (intern names name) more).length ≤ _
    rw [List.length_cons]
    omega

theorem prefix_internAll (names more : List α) : names <+: internAll names more := by
  induction more generalizing names with
  | nil => exact List.prefix_refl names
  | cons name more ih => exact (prefix_intern names name).trans (ih (intern names name))

theorem mem_intern : x ∈ intern names name ↔ x = name ∨ x ∈ names := by
  unfold intern
  split
  · rename_i hmem
    refine ⟨Or.inr, ?_⟩
    rintro (rfl | hx)
    · exact hmem
    · exact hx
  · rw [List.mem_append, List.mem_singleton]
    exact or_comm

theorem mem_internAll : x ∈ internAll names more ↔ x ∈ more ∨ x ∈ names := by
  induction more generalizing names with
  | nil => simp [internAll]
  | cons name more ih =>
    show x ∈ internAll (intern names name) more ↔ _
    rw [ih, mem_intern, List.mem_cons]
    tauto

theorem nodup_intern (h : names.Nodup) (name : α) : (intern names name).Nodup := by
  unfold intern
  split
  · exact h
  · rename_i hnew
    refine List.nodup_append.2 ⟨h, List.nodup_singleton name, fun x hx y hy hxy => ?_⟩
    rw [hxy, List.mem_singleton.1 hy] at hx
    exact hnew hx

theorem nodup_internAll (h : names.Nodup) (more : List α) : (internAll names more).Nodup := by
  induction more generalizing names with
  | nil => exact h
  | cons name more ih => exact ih (nodup_intern h name)

/-- A number stays when the list grows. -/
theorem idxOf_eq_of_prefix (h : names <+: names') (hx : x ∈ names) :
    names'.idxOf x = names.idxOf x := by
  obtain ⟨later, rfl⟩ := h
  exact List.idxOf_append_of_mem hx

theorem idxOf_lt (hx : x ∈ names) : names.idxOf x < names.length := List.idxOf_lt_length_iff.2 hx

/-- Names with one number are the same. -/
theorem eq_of_idxOf_eq (hx : x ∈ names) (h : names.idxOf x = names.idxOf y) : x = y :=
  (List.idxOf_inj hx).1 h

/-- The number of a name, and the next number for a new one. -/
theorem lookup_zipIdx {α : Type} [BEq α] [LawfulBEq α] (names : List α) (name : α) :
    (names.zipIdx.lookup name).getD names.length = names.idxOf name ∧
      ((names.zipIdx.lookup name).isSome ↔ name ∈ names) := by
  have hall : ∀ k, ((names.zipIdx k).lookup name).getD (k + names.length) = k + names.idxOf name ∧
      (((names.zipIdx k).lookup name).isSome ↔ name ∈ names) := by
    induction names with
    | nil =>
      intro k
      simp
    | cons x names ih =>
      intro k
      rw [List.zipIdx_cons, List.lookup_cons]
      by_cases hx : name = x
      · subst hx
        simp
      · have hx' : (name == x) = false := beq_eq_false_iff_ne.2 hx
        have hne : (x == name) = false := beq_eq_false_iff_ne.2 (Ne.symm hx)
        obtain ⟨hget, hsome⟩ := ih (k + 1)
        rw [hx', List.idxOf_cons, hne, List.length_cons, List.mem_cons]
        have hlength : k + (names.length + 1) = k + 1 + names.length := by omega
        rw [hlength, hget]
        refine ⟨?_, ?_⟩
        · simp only [cond_false]
          omega
        · rw [hsome]
          tauto
  have hzero := hall 0
  rwa [Nat.zero_add, Nat.zero_add] at hzero

/-- A key that occurs once is looked up. -/
theorem lookup_eq_some_of_mem {α β : Type} [BEq α] [LawfulBEq α] {entries : List (α × β)}
    {e : α × β} (hnodup : (entries.map Prod.fst).Nodup) (he : e ∈ entries) :
    entries.lookup e.1 = some e.2 := by
  induction entries with
  | nil => exact absurd he List.not_mem_nil
  | cons e' entries ih =>
    rw [List.map_cons, List.nodup_cons] at hnodup
    rw [List.lookup_cons]
    rcases List.mem_cons.1 he with rfl | he
    · rw [beq_self_eq_true]
    · have hne : (e.1 == e'.1) = false :=
        beq_eq_false_iff_ne.2 fun heq => hnodup.1 (heq ▸ List.mem_map_of_mem he)
      rw [hne]
      exact ih hnodup.2 he

end Interning

end LogSurgeon.Lib
