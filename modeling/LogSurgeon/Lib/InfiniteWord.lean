import Mathlib.Data.Set.Finite.List
import Mathlib.Order.KonigLemma

/-!
# Infinite words

`prefixOf α n` is the prefix of length `n` of the infinite word `α`.  An
infinite set of words over a finite alphabet that is closed under prefixes has
all prefixes of some infinite word (`exists_prefixOf_mem`).  This is Kőnig's
lemma for the tree of the words.
-/

namespace LogSurgeon.Lib

variable {α : Type*}

/-- The first `n` letters of the infinite word. -/
def prefixOf (word : Nat → α) (n : Nat) : List α := (List.range n).map word

@[simp] theorem prefixOf_zero (word : Nat → α) : prefixOf word 0 = [] := rfl

theorem prefixOf_succ (word : Nat → α) (n : Nat) :
    prefixOf word (n + 1) = prefixOf word n ++ [word n] := by
  unfold prefixOf
  rw [List.range_succ, List.map_append]
  rfl

@[simp] theorem length_prefixOf (word : Nat → α) (n : Nat) : (prefixOf word n).length = n := by
  simp [prefixOf]

theorem prefixOf_add (word : Nat → α) (n k : Nat) :
    prefixOf word (n + k) = prefixOf word n ++ prefixOf (fun i => word (n + i)) k := by
  induction k with
  | zero => simp
  | succ k ih => rw [← Nat.add_assoc, prefixOf_succ, ih, prefixOf_succ, List.append_assoc]

/-- The words of the set with the given length. -/
private abbrev OfLength (W : Set (List α)) (n : Nat) : Type _ :=
  {w : List α // w.length = n ∧ w ∈ W}

/-- An infinite set of words that is closed under prefixes holds all prefixes
of an infinite word. -/
theorem exists_prefixOf_mem [Finite α] {W : Set (List α)}
    (hclosed : ∀ u v, u ++ v ∈ W → u ∈ W) (hinfinite : W.Infinite) :
    ∃ word : Nat → α, ∀ n, prefixOf word n ∈ W := by
  have htake : ∀ {w : List α} (n : Nat), w ∈ W → w.take n ∈ W := by
    intro w n hw
    refine hclosed _ (w.drop n) ?_
    rw [List.take_append_drop]
    exact hw
  have hfinite : ∀ n, Finite (OfLength W n) := by
    intro n
    refine Set.Finite.to_subtype (Set.Finite.subset (List.finite_length_eq α n) ?_)
    exact fun w hw => hw.1
  -- only finitely many words are shorter than `n`, so a longer one can be cut
  have hnonempty : ∀ n, Nonempty (OfLength W n) := by
    intro n
    obtain ⟨w, hw, hlong⟩ := hinfinite.exists_notMem_finite (List.finite_length_lt α n)
    have hlong : n ≤ w.length := not_lt.1 hlong
    exact ⟨⟨w.take n, by rw [List.length_take, Nat.min_eq_left hlong], htake n hw⟩⟩
  let cut : {i j : Nat} → i ≤ j → OfLength W j → OfLength W i := fun {i _} hij w =>
    ⟨w.1.take i, by rw [List.length_take, w.2.1, Nat.min_eq_left hij], htake i w.2.2⟩
  have : Finite (OfLength W 0) := hfinite 0
  obtain ⟨f, hf⟩ := exists_seq_forall_proj_of_forall_finite cut
    (fun i w => Subtype.ext (List.take_of_length_le w.2.1.le))
    (fun i j k hij hjk w => Subtype.ext (by
      show (w.1.take j).take i = w.1.take i
      rw [List.take_take, Nat.min_eq_left hij]))
    (fun i _ => have := hfinite (i + 1); Set.toFinite _)
  have hlast : ∀ n, n < (f (n + 1)).1.length := fun n => by
    rw [(f (n + 1)).2.1]
    exact Nat.lt_succ_self n
  refine ⟨fun n => (f (n + 1)).1.get ⟨n, hlast n⟩, fun n => ?_⟩
  have heq : prefixOf (fun n => (f (n + 1)).1.get ⟨n, hlast n⟩) n = (f n).1 := by
    induction n with
    | zero => exact (List.length_eq_zero_iff.1 (f 0).2.1).symm
    | succ n ih =>
      have hcut : (f (n + 1)).1.take n = (f n).1 := congrArg Subtype.val (hf n.le_succ)
      rw [prefixOf_succ, ih, ← hcut]
      have hwhole : (f (n + 1)).1.take (n + 1) = (f (n + 1)).1 :=
        List.take_of_length_le (f (n + 1)).2.1.le
      rw [← List.take_append_getElem (hlast n)] at hwhole
      exact hwhole
  rw [heq]
  exact (f n).2.2

/-- A bounded sequence has a least value among those that it takes for ever, and
is not below it from some point on. -/
theorem exists_least_recurring {values : Nat → Nat} {bound : Nat} (h : ∀ n, values n < bound) :
    ∃ v, (∃ start, ∀ n, start ≤ n → v ≤ values n) ∧ ∀ start, ∃ n, start ≤ n ∧ values n = v := by
  let Below : Nat → Prop := fun v => ∃ start, ∀ n, start ≤ n → v ≤ values n
  have hstep : ∃ v, Below v ∧ ¬ Below (v + 1) := by
    by_contra hnot
    have hall : ∀ v, Below v := by
      intro v
      induction v with
      | zero => exact ⟨0, fun n _ => Nat.zero_le _⟩
      | succ v ih =>
        by_contra hv
        exact hnot ⟨v, ih, hv⟩
    obtain ⟨start, hstart⟩ := hall bound
    have := hstart start (Nat.le_refl _)
    have := h start
    omega
  obtain ⟨v, ⟨start, hstart⟩, hv⟩ := hstep
  refine ⟨v, ⟨start, hstart⟩, fun start' => ?_⟩
  by_contra hnot
  refine hv ⟨max start start', fun n hn => ?_⟩
  have hle := hstart n (by omega)
  have hne : values n ≠ v := fun heq => hnot ⟨n, by omega, heq⟩
  omega

end LogSurgeon.Lib
