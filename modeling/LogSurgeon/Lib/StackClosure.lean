import LogSurgeon.Lib.OrderedSet
import LogSurgeon.Lib.Settles
import Mathlib.Data.Finset.Card
import Mathlib.Logic.Relation

/-!
# Closing a set with a stack

An element leaves the stack, and the first time it does, the elements that it
brings in are pushed.  An element may fail to say what it brings in, and then
the loop fails with it.

`mem_closeLoop`: a set that the loop returns has what the stack leads to, and
nothing else.  `closeLoop_cases`: on finitely many elements the loop ends.
-/

namespace LogSurgeon.Lib

open Std (TransOrd LawfulEqOrd)

namespace StackClosure

variable {α ε : Type*}

/-- `x` brings in `y`. -/
def Brings (next : α → Except ε (List α)) (x y : α) : Prop := ∃ ys, next x = .ok ys ∧ y ∈ ys

def LeadsTo (next : α → Except ε (List α)) (stack : List α) (y : α) : Prop :=
  ∃ x ∈ stack, Relation.ReflTransGen (Brings next) x y

variable [Ord α] [TransOrd α] [LawfulEqOrd α]

/-- The loop, for at most `fuel` elements.  The top of the stack is its first
element. -/
def closeLoop (next : α → Except ε (List α)) (outOfFuel : ε) :
    Nat → List α → OrderedSet α → Except ε (OrderedSet α)
  | _, [], closure => .ok closure
  | 0, _ :: _, _ => .error outOfFuel
  | fuel + 1, x :: stack, closure =>
    if closure.contains x then closeLoop next outOfFuel fuel stack closure
    else
      match next x with
      | .error e => .error e
      | .ok xs => closeLoop next outOfFuel fuel (xs.reverse ++ stack) (closure.insert x)

/-- The elements of the list are pushed in their order. -/
def close (next : α → Except ε (List α)) (outOfFuel : ε) (fuel : Nat) (kernel : List α) :
    Except ε (OrderedSet α) :=
  closeLoop next outOfFuel fuel kernel.reverse .empty

variable {next : α → Except ε (List α)} {outOfFuel : ε} {fuel : Nat} {x y : α}
  {roots stack : List α} {closure result : OrderedSet α}

/-- What was found so far. -/
structure Invariant (next : α → Except ε (List α)) (roots stack : List α)
    (closure : OrderedSet α) : Prop where
  started : ∀ x ∈ roots, x ∈ stack ∨ x ∈ closure
  leads : ∀ x, x ∈ stack ∨ x ∈ closure → LeadsTo next roots x
  closed : ∀ x ∈ closure, ∃ ys, next x = .ok ys ∧ ∀ y ∈ ys, y ∈ stack ∨ y ∈ closure

omit [LawfulEqOrd α] [TransOrd α] in
theorem invariant_empty : Invariant next stack stack .empty where
  started _ hx := Or.inl hx
  leads x hx := ⟨x, hx.resolve_right (OrderedSet.not_mem_empty x), .refl⟩
  closed x hx := absurd hx (OrderedSet.not_mem_empty x)

omit [LawfulEqOrd α] [TransOrd α] in
theorem Invariant.skip (h : Invariant next roots (x :: stack) closure) (hx : x ∈ closure) :
    Invariant next roots stack closure := by
  have hpop : ∀ y, y ∈ x :: stack ∨ y ∈ closure → y ∈ stack ∨ y ∈ closure := by
    intro y hy
    rcases hy with hy | hy
    · rcases List.mem_cons.1 hy with rfl | hy
      · exact Or.inr hx
      · exact Or.inl hy
    · exact Or.inr hy
  refine ⟨fun y hy => hpop y (h.started y hy),
    fun y hy => h.leads y (hy.imp_left (List.mem_cons_of_mem x)), fun y hy => ?_⟩
  obtain ⟨ys, hys, hnext⟩ := h.closed y hy
  exact ⟨ys, hys, fun z hz => hpop z (hnext z hz)⟩

theorem Invariant.add (h : Invariant next roots (x :: stack) closure) {xs : List α}
    (hxs : next x = .ok xs) :
    Invariant next roots (xs.reverse ++ stack) (closure.insert x) := by
  have hmove : ∀ y, y ∈ x :: stack ∨ y ∈ closure →
      y ∈ xs.reverse ++ stack ∨ y ∈ closure.insert x := by
    intro y hy
    rw [OrderedSet.mem_insert, List.mem_append]
    rcases hy with hy | hy
    · rcases List.mem_cons.1 hy with rfl | hy
      · exact Or.inr (Or.inl rfl)
      · exact Or.inl (Or.inr hy)
    · exact Or.inr (Or.inr hy)
  have hleads : LeadsTo next roots x := h.leads x (Or.inl List.mem_cons_self)
  refine ⟨fun y hy => hmove y (h.started y hy), fun y hy => ?_, fun y hy => ?_⟩
  · rw [OrderedSet.mem_insert, List.mem_append, List.mem_reverse] at hy
    rcases hy with (hy | hy) | (rfl | hy)
    · obtain ⟨z, hz, hpath⟩ := hleads
      exact ⟨z, hz, hpath.tail ⟨xs, hxs, hy⟩⟩
    · exact h.leads y (Or.inl (List.mem_cons_of_mem x hy))
    · exact hleads
    · exact h.leads y (Or.inr hy)
  · rcases OrderedSet.mem_insert.1 hy with rfl | hy
    · refine ⟨xs, hxs, fun z hz => Or.inl ?_⟩
      rw [List.mem_append, List.mem_reverse]
      exact Or.inl hz
    · obtain ⟨ys, hys, hnext⟩ := h.closed y hy
      exact ⟨ys, hys, fun z hz => hmove z (hnext z hz)⟩

omit [LawfulEqOrd α] [TransOrd α] in
/-- With an empty stack, the set has everything. -/
theorem Invariant.mem_iff (h : Invariant next roots [] closure) :
    y ∈ closure ↔ LeadsTo next roots y := by
  constructor
  · exact fun hy => h.leads y (Or.inr hy)
  · rintro ⟨x, hx, hpath⟩
    induction hpath with
    | refl => exact (h.started x hx).resolve_left List.not_mem_nil
    | tail _ hstep ih =>
      obtain ⟨ys, hys, hmem⟩ := hstep
      obtain ⟨ys', hys', hnext⟩ := h.closed _ ih
      rw [hys] at hys'
      cases hys'
      exact (hnext _ hmem).resolve_left List.not_mem_nil

theorem Invariant.closeLoop (h : Invariant next roots stack closure)
    (hloop : StackClosure.closeLoop next outOfFuel fuel stack closure = .ok result) :
    Invariant next roots [] result := by
  induction fuel generalizing stack closure with
  | zero =>
    cases stack with
    | nil =>
      cases hloop
      exact h
    | cons x stack => cases hloop
  | succ fuel ih =>
    cases stack with
    | nil =>
      cases hloop
      exact h
    | cons x stack =>
      unfold StackClosure.closeLoop at hloop
      split at hloop
      · rename_i hx
        exact ih (h.skip (OrderedSet.contains_iff.1 hx)) hloop
      · split at hloop
        · cases hloop
        · rename_i xs hxs
          exact ih (h.add hxs) hloop

/-- The set has what the elements lead to, and all of it says what it brings
in. -/
theorem mem_close {kernel : List α} (h : close next outOfFuel fuel kernel = .ok result) :
    (∀ y, y ∈ result ↔ LeadsTo next kernel y) ∧ ∀ y ∈ result, ∃ ys, next y = .ok ys := by
  have hinv := invariant_empty.closeLoop h
  have hkernel : ∀ y, LeadsTo next kernel.reverse y ↔ LeadsTo next kernel y := by
    intro y
    unfold LeadsTo
    simp only [List.mem_reverse]
  refine ⟨fun y => hinv.mem_iff.trans (hkernel y), fun y hy => ?_⟩
  obtain ⟨ys, hys, -⟩ := hinv.closed y hy
  exact ⟨ys, hys⟩

/-! ## The loop ends -/

/-- More fuel changes nothing. -/
theorem closeLoop_mono {fuel' : Nat} (hle : fuel ≤ fuel')
    (h : closeLoop next outOfFuel fuel stack closure ≠ .error outOfFuel) :
    closeLoop next outOfFuel fuel' stack closure = closeLoop next outOfFuel fuel stack closure := by
  induction fuel generalizing stack closure fuel' with
  | zero =>
    cases stack with
    | nil => cases fuel' <;> rfl
    | cons x stack => exact absurd rfl h
  | succ fuel ih =>
    obtain ⟨fuel', rfl⟩ : ∃ n, fuel' = n + 1 := ⟨fuel' - 1, by omega⟩
    cases stack with
    | nil => rfl
    | cons x stack =>
      unfold closeLoop at h ⊢
      split
      · rename_i hx
        rw [if_pos hx] at h
        exact ih (by omega) h
      · rename_i hx
        rw [if_neg hx] at h
        cases hnext : next x with
        | error e => rfl
        | ok xs =>
          rw [hnext] at h
          exact ih (by omega) h

/-- An element leaves the stack at every step, and each new one brings in `k`
others at most. -/
theorem closeLoop_cases [DecidableEq α] {univ : Finset α} {k : Nat}
    (huniv : ∀ x ∈ univ, ∀ xs, next x = .ok xs → xs.length ≤ k ∧ ∀ y ∈ xs, y ∈ univ)
    (hstack : ∀ x ∈ stack, x ∈ univ) (hinv : Invariant next roots stack closure)
    (hfuel : stack.length + k * (univ.filter (· ∉ closure.toList)).card ≤ fuel) :
    (∃ result, closeLoop next outOfFuel fuel stack closure = .ok result) ∨
      ∃ x e, LeadsTo next roots x ∧ next x = .error e ∧
        closeLoop next outOfFuel fuel stack closure = .error e := by
  induction fuel generalizing stack closure with
  | zero =>
    cases stack with
    | nil => exact Or.inl ⟨closure, rfl⟩
    | cons x stack => simp at hfuel
  | succ fuel ih =>
    cases stack with
    | nil => exact Or.inl ⟨closure, rfl⟩
    | cons x stack =>
      obtain ⟨hx, hrest⟩ := List.forall_mem_cons.1 hstack
      rw [List.length_cons] at hfuel
      unfold closeLoop
      split
      · rename_i hmem
        exact ih hrest (hinv.skip (OrderedSet.contains_iff.1 hmem)) (by omega)
      · rename_i hmem
        rw [OrderedSet.contains_iff] at hmem
        cases hnext : next x with
        | error e => exact Or.inr ⟨x, e, hinv.leads x (Or.inl List.mem_cons_self), hnext, rfl⟩
        | ok xs =>
          obtain ⟨hlength, hclosed⟩ := huniv x hx xs hnext
          have hless : (univ.filter (· ∉ (closure.insert x).toList)).card + 1 ≤
              (univ.filter (· ∉ closure.toList)).card := by
            refine Nat.succ_le_of_lt (Finset.card_lt_card ?_)
            rw [Finset.ssubset_iff_of_subset]
            · refine ⟨x, Finset.mem_filter.2 ⟨hx, hmem⟩, fun hnew => ?_⟩
              exact (Finset.mem_filter.1 hnew).2 (OrderedSet.mem_insert.2 (Or.inl rfl))
            · intro y hy
              obtain ⟨hy, hnew⟩ := Finset.mem_filter.1 hy
              exact Finset.mem_filter.2 ⟨hy, fun hold => hnew (OrderedSet.mem_insert.2 (Or.inr hold))⟩
          have hcount := Nat.mul_le_mul_left k hless
          rw [Nat.mul_succ] at hcount
          refine ih (fun y hy => ?_) (hinv.add hnext) ?_
          · rcases List.mem_append.1 hy with hy | hy
            · exact hclosed y (List.mem_reverse.1 hy)
            · exact hrest y hy
          · rw [List.length_append, List.length_reverse]
            omega

/-- The loop returns a set, or it fails as an element does to which it has
come. -/
theorem close_cases [DecidableEq α] {univ : Finset α} {k : Nat} {kernel : List α}
    (huniv : ∀ x ∈ univ, ∀ xs, next x = .ok xs → xs.length ≤ k ∧ ∀ y ∈ xs, y ∈ univ)
    (hkernel : ∀ x ∈ kernel, x ∈ univ) (hfuel : kernel.length + k * univ.card ≤ fuel) :
    (∃ result, close next outOfFuel fuel kernel = .ok result) ∨
      ∃ x e, LeadsTo next kernel x ∧ next x = .error e ∧
        close next outOfFuel fuel kernel = .error e := by
  have hcard : (univ.filter (· ∉ (OrderedSet.empty : OrderedSet α).toList)).card ≤ univ.card :=
    Finset.card_filter_le _ _
  have hbound := Nat.mul_le_mul_left k hcard
  have hstack : kernel.reverse.length +
      k * (univ.filter (· ∉ (OrderedSet.empty : OrderedSet α).toList)).card ≤ fuel := by
    rw [List.length_reverse]
    omega
  rcases closeLoop_cases huniv (fun x hx => hkernel x (List.mem_reverse.1 hx))
    invariant_empty hstack with hok | ⟨x, e, ⟨y, hy, hpath⟩, hnext, herror⟩
  · exact Or.inl hok
  · exact Or.inr ⟨x, e, ⟨y, List.mem_reverse.1 hy, hpath⟩, hnext, herror⟩

/-- The loop settles where finitely many elements bring in each other. -/
theorem settles_close {α ε : Type} [Ord α] [TransOrd α] [LawfulEqOrd α] [DecidableEq α]
    {next : α → Except ε (List α)} {outOfFuel : ε} {kernel : List α} (univ : Finset α)
    (huniv : ∀ x ∈ univ, ∀ xs, next x = .ok xs → ∀ y ∈ xs, y ∈ univ)
    (hne : ∀ x, next x ≠ .error outOfFuel) (hkernel : ∀ x ∈ kernel, x ∈ univ) :
    Settles outOfFuel fun fuel => close next outOfFuel fuel kernel := by
  let count : α → Nat := fun x => ((next x).toOption.getD []).length
  have hcount : ∀ x ∈ univ, ∀ xs, next x = .ok xs →
      xs.length ≤ univ.sup count ∧ ∀ y ∈ xs, y ∈ univ := by
    intro x hx xs hxs
    refine ⟨?_, huniv x hx xs hxs⟩
    have hsame : count x = xs.length := by
      show ((next x).toOption.getD []).length = xs.length
      rw [hxs]
      rfl
    rw [← hsame]
    exact Finset.le_sup hx
  refine .of_mono (fun fuel fuel' hle h => closeLoop_mono hle h)
    (kernel.length + univ.sup count * univ.card) ?_
  rcases close_cases hcount hkernel le_rfl with ⟨result, hok⟩ | ⟨x, e, -, hnext, herror⟩
  · rw [hok]
    exact fun h => by cases h
  · rw [herror]
    intro h
    cases h
    exact hne x hnext

theorem failsAtBound_close {α ε : Type} [Ord α] [TransOrd α] [LawfulEqOrd α]
    {next : α → Except ε (List α)} {outOfFuel : ε} (hnext : ∀ x, ∃ xs, next x = .ok xs)
    (fuel : Nat) (kernel : List α) : FailsAtBound outOfFuel (close next outOfFuel fuel kernel) := by
  unfold close
  generalize kernel.reverse = stack
  generalize (OrderedSet.empty : OrderedSet α) = closure
  induction fuel generalizing stack closure with
  | zero =>
    cases stack with
    | nil => exact .ok closure
    | cons x stack =>
      intro e herror
      cases herror
      rfl
  | succ fuel ih =>
    cases stack with
    | nil => exact .ok closure
    | cons x stack =>
      unfold closeLoop
      split
      · exact ih stack closure
      · obtain ⟨xs, hxs⟩ := hnext x
        rw [hxs]
        exact ih _ _

end StackClosure

end LogSurgeon.Lib
