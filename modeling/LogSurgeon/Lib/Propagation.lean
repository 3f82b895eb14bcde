import LogSurgeon.Lib.OrderedSet
import LogSurgeon.Lib.Settles
import Mathlib.Algebra.Order.BigOperators.Group.List
import Mathlib.Algebra.Order.Ring.Nat
import Mathlib.Logic.Relation

/-!
# Passing sets along the edges of a graph

Every node has a set.  A run hands the set of the source of each edge to its
target, and there are runs until one changes no set.

`exists_propagate`: the runs end.  `result_of_propagate`: a node has then what
the nodes had at the start from which it can be reached.
-/

namespace LogSurgeon.Lib

open Std (TransOrd LawfulEqOrd)

namespace Propagation

variable {α β ε : Type*} [Ord β] [TransOrd β] [LawfulEqOrd β]

def assign [DecidableEq α] (sets : α → OrderedSet β) (x : α) (set : OrderedSet β) :
    α → OrderedSet β :=
  fun y => if y = x then set else sets y

/-- One edge.  The flag is set when the set of the target has grown. -/
def pass [DecidableEq α] : (α → OrderedSet β) × Bool → α × α → (α → OrderedSet β) × Bool
  | (sets, changed), (source, target) =>
    let sizeBefore := (sets target).size
    let sets := assign sets target ((sets target).insertAll (sets source).toList)
    let sizeAfter := (sets target).size
    (sets, changed || sizeAfter > sizeBefore)

def run [DecidableEq α] (edges : List (α × α)) (sets : α → OrderedSet β) :
    (α → OrderedSet β) × Bool :=
  edges.foldl pass (sets, false)

/-- Runs until one changes nothing. -/
def propagate [DecidableEq α] (edges : List (α × α)) (outOfFuel : ε) :
    Nat → (α → OrderedSet β) → Except ε (α → OrderedSet β)
  | 0, _ => .error outOfFuel
  | fuel + 1, sets =>
    match run edges sets with
    | (sets, true) => propagate edges outOfFuel fuel sets
    | (sets, false) => .ok sets

/-- There is a path of edges. -/
def Path (edges : List (α × α)) : α → α → Prop :=
  Relation.ReflTransGen fun x y => (x, y) ∈ edges

variable [DecidableEq α] {edges later : List (α × α)} {sets sets' : α → OrderedSet β}
  {changed changed' : Bool} {outOfFuel : ε} {fuel : Nat} {x : α} {y : β}

/-- What the edges do to the sets and to the flag. -/
structure Passes (edges later : List (α × α)) (sets : α → OrderedSet β) (changed : Bool)
    (result : (α → OrderedSet β) × Bool) : Prop where
  below : ∀ x, ∀ y ∈ sets x, y ∈ result.1 x
  sound : ∀ x, ∀ y ∈ result.1 x, ∃ z, y ∈ sets z ∧ Path edges z x
  keeps : changed = true → result.2 = true
  grows : changed = false → result.2 = true →
    ∃ e ∈ edges, (sets e.2).size < (result.1 e.2).size
  stops : result.2 = false → result.1 = sets ∧ ∀ e ∈ later, ∀ y ∈ sets e.1, y ∈ sets e.2

theorem passes_pass {e : α × α} (he : e ∈ edges) :
    Passes edges [e] sets changed (pass (sets, changed) e) := by
  obtain ⟨source, target⟩ := e
  have hmem : ∀ x y, y ∈ (pass (sets, changed) (source, target)).1 x ↔
      (x = target ∧ y ∈ sets source) ∨ y ∈ sets x := by
    intro x y
    unfold pass assign
    dsimp only
    split
    · rename_i hx
      rw [OrderedSet.mem_insertAll, hx, ← OrderedSet.mem_def]
      simp
    · rename_i hx
      simp [hx]
  have hflag : (pass (sets, changed) (source, target)).2 = (changed ||
      decide (((pass (sets, changed) (source, target)).1 target).size > (sets target).size)) :=
    rfl
  refine ⟨fun x y hy => (hmem x y).2 (Or.inr hy), fun x y hy => ?_, fun h => ?_, fun h htrue => ?_,
    fun hfalse => ?_⟩
  · rcases (hmem x y).1 hy with ⟨rfl, hsource⟩ | hold
    · exact ⟨source, hsource, .single he⟩
    · exact ⟨x, hold, .refl⟩
  · rw [hflag, h, Bool.true_or]
  · rw [hflag, h, Bool.false_or, decide_eq_true_eq] at htrue
    exact ⟨(source, target), he, htrue⟩
  · rw [hflag, Bool.or_eq_false_iff, decide_eq_false_iff_not] at hfalse
    have hbelow : ∀ y ∈ sets target, y ∈ (pass (sets, changed) (source, target)).1 target :=
      fun y hy => (hmem target y).2 (Or.inr hy)
    have hle := OrderedSet.size_le_length hbelow
    have hsame := OrderedSet.eq_of_size_eq hbelow (Nat.le_antisymm (Nat.not_lt.1 hfalse.2) hle)
    refine ⟨funext fun x => ?_, fun e he y hy => ?_⟩
    · by_cases hx : x = target
      · rw [hx, hsame]
      · refine OrderedSet.ext fun y => ?_
        rw [hmem]
        simp [hx]
    · rw [List.mem_singleton.1 he] at hy ⊢
      rw [← hsame]
      exact (hmem target y).2 (Or.inl ⟨rfl, hy⟩)

theorem passes_foldl (hlater : ∀ e ∈ later, e ∈ edges) :
    Passes edges later sets changed (later.foldl pass (sets, changed)) := by
  induction later generalizing sets changed with
  | nil =>
    refine ⟨fun _ _ => id, fun x y hy => ⟨x, hy, .refl⟩, id, fun h htrue => ?_,
      fun _ => ⟨rfl, fun e he => absurd he List.not_mem_nil⟩⟩
    rw [h] at htrue
    cases htrue
  | cons e later ih =>
    obtain ⟨he, hlater⟩ := List.forall_mem_cons.1 hlater
    have hfirst := @passes_pass _ _ _ _ _ _ edges sets changed e he
    rw [List.foldl_cons]
    generalize pass (sets, changed) e = result at hfirst ⊢
    obtain ⟨sets₁, changed₁⟩ := result
    have hrest := @ih sets₁ changed₁ hlater
    refine ⟨fun x y hy => hrest.below x y (hfirst.below x y hy), fun x y hy => ?_,
      fun h => hrest.keeps (hfirst.keeps h), fun h htrue => ?_, fun hfalse => ?_⟩
    · obtain ⟨z, hz, hpath⟩ := hrest.sound x y hy
      obtain ⟨z', hz', hpath'⟩ := hfirst.sound z y hz
      exact ⟨z', hz', hpath'.trans hpath⟩
    · have hsizes : ∀ x, (sets x).size ≤ (sets₁ x).size ∧ (sets₁ x).size ≤
          ((later.foldl pass (sets₁, changed₁)).1 x).size :=
        fun x => ⟨OrderedSet.size_le_length (hfirst.below x),
          OrderedSet.size_le_length (hrest.below x)⟩
      by_cases hchanged : changed₁ = true
      · obtain ⟨e', he', hlt⟩ := hfirst.grows h hchanged
        exact ⟨e', he', hlt.trans_le (hsizes e'.2).2⟩
      · obtain ⟨e', he', hlt⟩ := hrest.grows (Bool.eq_false_iff.2 hchanged) htrue
        exact ⟨e', he', (hsizes e'.2).1.trans_lt hlt⟩
    · have hchanged : changed₁ = false := by
        by_contra hset
        have hset := hrest.keeps (by simpa using hset)
        rw [hfalse] at hset
        cases hset
      obtain ⟨hsame, hclosed⟩ := hfirst.stops hchanged
      obtain ⟨hsame', hclosed'⟩ := hrest.stops hfalse
      obtain rfl : sets₁ = sets := hsame
      exact ⟨hsame', List.forall_mem_cons.2 ⟨hclosed e (List.mem_singleton.2 rfl), hclosed'⟩⟩

/-! ## The runs end -/

/-- The sizes of the sets of the targets. -/
def weight (edges : List (α × α)) (sets : α → OrderedSet β) : Nat :=
  (edges.map fun e => (sets e.2).size).sum

/-- Each set has what the start sets had. -/
structure Result (edges : List (α × α)) (start sets : α → OrderedSet β) : Prop where
  mem_iff : ∀ x y, y ∈ sets x ↔ ∃ z, y ∈ start z ∧ Path edges z x

theorem passes_run (edges : List (α × α)) (sets : α → OrderedSet β) :
    Passes edges edges sets false (run edges sets) := passes_foldl fun _ => id

omit [LawfulEqOrd β] [DecidableEq α] [TransOrd β] in
/-- A run does not change what the runs lead to. -/
theorem Result.of_passes {sets₁ : α → OrderedSet β} (h : Result edges sets₁ sets')
    (hpasses : Passes edges later sets changed (sets₁, changed')) : Result edges sets sets' := by
  refine ⟨fun x y => (h.mem_iff x y).trans ⟨?_, ?_⟩⟩
  · rintro ⟨z, hz, hpath⟩
    obtain ⟨z', hz', hpath'⟩ := hpasses.sound z y hz
    exact ⟨z', hz', hpath'.trans hpath⟩
  · rintro ⟨z, hz, hpath⟩
    exact ⟨z, hpasses.below z y hz, hpath⟩

omit [LawfulEqOrd β] [DecidableEq α] [TransOrd β] in
/-- A run that changes nothing has the result. -/
theorem Passes.result {result : (α → OrderedSet β) × Bool}
    (hpasses : Passes edges edges sets changed result) (h : result.2 = false) :
    Result edges sets result.1 := by
  obtain ⟨hsame, hclosed⟩ := hpasses.stops h
  refine ⟨fun x y => ?_⟩
  rw [hsame]
  refine ⟨fun hy => ⟨x, hy, .refl⟩, ?_⟩
  rintro ⟨z, hz, hpath⟩
  induction hpath with
  | refl => exact hz
  | tail _ hedge ih => exact hclosed _ hedge y ih

omit [LawfulEqOrd β] [DecidableEq α] in
theorem weight_le (edges : List (α × α)) {univ : List β} (huniv : ∀ x, ∀ y ∈ sets x, y ∈ univ) :
    weight edges sets ≤ edges.length * univ.length := by
  have hsum := List.sum_le_card_nsmul (edges.map fun e => (sets e.2).size) univ.length (by
    intro size hsize
    obtain ⟨e, -, rfl⟩ := List.mem_map.1 hsize
    exact OrderedSet.size_le_length (huniv e.2))
  rwa [List.length_map] at hsum

/-- The sets that the runs end with. -/
theorem result_of_propagate (h : propagate edges outOfFuel fuel sets = .ok sets') :
    Result edges sets sets' := by
  induction fuel generalizing sets with
  | zero => cases h
  | succ fuel ih =>
    have hpasses := passes_run edges sets
    unfold propagate at h
    generalize run edges sets = result at hpasses h
    obtain ⟨sets₁, changed⟩ := result
    cases changed with
    | true => exact (ih h).of_passes hpasses
    | false =>
      cases h
      exact hpasses.result rfl

/-- Every run that changes something adds to the sets. -/
theorem exists_propagate {univ : List β} (huniv : ∀ x, ∀ y ∈ sets x, y ∈ univ)
    (hfuel : edges.length * univ.length < fuel + weight edges sets) :
    ∃ sets', propagate edges outOfFuel fuel sets = .ok sets' := by
  have hbound := weight_le edges huniv
  induction fuel generalizing sets with
  | zero => omega
  | succ fuel ih =>
    have hpasses := passes_run edges sets
    unfold propagate
    generalize run edges sets = result at hpasses ⊢
    obtain ⟨sets₁, changed⟩ := result
    cases changed with
    | true =>
      obtain ⟨e, he, hlt⟩ := hpasses.grows rfl rfl
      have hgrows : weight edges sets < weight edges sets₁ :=
        List.sum_lt_sum _ _ (fun e _ => OrderedSet.size_le_length (hpasses.below e.2)) ⟨e, he, hlt⟩
      have huniv₁ : ∀ x, ∀ y ∈ sets₁ x, y ∈ univ := by
        intro x y hy
        obtain ⟨z, hz, -⟩ := hpasses.sound x y hy
        exact huniv z y hz
      exact ih huniv₁ (by omega) (weight_le edges huniv₁)
    | false => exact ⟨sets₁, rfl⟩

/-- More fuel changes nothing. -/
theorem propagate_mono {fuel' : Nat} (hle : fuel ≤ fuel')
    (h : propagate edges outOfFuel fuel sets = .ok sets') :
    propagate edges outOfFuel fuel' sets = .ok sets' := by
  induction fuel generalizing sets fuel' with
  | zero => cases h
  | succ fuel ih =>
    obtain ⟨fuel', rfl⟩ : ∃ n, fuel' = n + 1 := ⟨fuel' - 1, by omega⟩
    unfold propagate at h ⊢
    generalize run edges sets = result at h ⊢
    obtain ⟨sets₁, changed⟩ := result
    cases changed with
    | true => exact ih (by omega) h
    | false => exact h

theorem failsAtBound_propagate {α β ε : Type} [Ord β] [TransOrd β] [LawfulEqOrd β]
    [DecidableEq α] {edges : List (α × α)} {outOfFuel : ε} (fuel : Nat) (sets : α → OrderedSet β) :
    FailsAtBound outOfFuel (propagate edges outOfFuel fuel sets) := by
  induction fuel generalizing sets with
  | zero =>
    intro e herror
    cases herror
    rfl
  | succ fuel ih =>
    unfold propagate
    generalize run edges sets = result
    obtain ⟨sets₁, changed⟩ := result
    cases changed with
    | true => exact ih sets₁
    | false => exact .ok sets₁

theorem settles_propagate {α β ε : Type} [Ord β] [TransOrd β] [LawfulEqOrd β] [DecidableEq α]
    {edges : List (α × α)} {sets : α → OrderedSet β} {outOfFuel : ε} (univ : List β)
    (huniv : ∀ x, ∀ y ∈ sets x, y ∈ univ) :
    Settles outOfFuel fun fuel => propagate edges outOfFuel fuel sets := by
  obtain ⟨sets', hsets'⟩ := @exists_propagate α β ε _ _ _ _ edges sets outOfFuel
    (edges.length * univ.length + 1) univ huniv (by omega)
  refine (Settles.ok sets').congr (n := edges.length * univ.length + 1) fun fuel hle => ?_
  exact propagate_mono hle hsets'

end Propagation

end LogSurgeon.Lib
