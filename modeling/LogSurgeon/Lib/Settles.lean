import Mathlib.Data.Finset.Lattice.Fold

/-!
# Computations that settle

A loop that is not structurally recursive takes a bound on its steps, and fails
with `outOfFuel` at the bound.  It settles if it returns the same from some bound
on, which is not that failure.

The computations that settle are closed under what fallible code is written with,
and a loop may hand its bound to the loops in its body.
-/

namespace LogSurgeon.Lib

variable {ε α β κ : Type}

/-- From some bound on there is one result. -/
def Settles (outOfFuel : ε) (f : Nat → Except ε α) : Prop :=
  ∃ bound result, result ≠ .error outOfFuel ∧ ∀ fuel, bound ≤ fuel → f fuel = result

namespace Settles

variable {outOfFuel : ε} {f g : Nat → Except ε α}

theorem of_ne {x : Except ε α} (h : x ≠ .error outOfFuel) : Settles outOfFuel fun _ => x :=
  ⟨0, x, h, fun _ _ => rfl⟩

theorem ok (a : α) : Settles outOfFuel fun _ => (.ok a : Except ε α) :=
  of_ne fun h => by cases h

/-- More fuel changes nothing, and some fuel is enough. -/
theorem of_mono
    (hmono : ∀ fuel fuel', fuel ≤ fuel' → f fuel ≠ .error outOfFuel → f fuel' = f fuel)
    (fuel : Nat) (h : f fuel ≠ .error outOfFuel) : Settles outOfFuel f :=
  ⟨fuel, f fuel, h, fun fuel' hle => hmono fuel fuel' hle h⟩

theorem congr (h : Settles outOfFuel f) {n : Nat} (heq : ∀ fuel, n ≤ fuel → g fuel = f fuel) :
    Settles outOfFuel g := by
  obtain ⟨bound, result, hne, hresult⟩ := h
  refine ⟨max bound n, result, hne, fun fuel hle => ?_⟩
  rw [heq fuel (by omega)]
  exact hresult fuel (by omega)

theorem bind (h : Settles outOfFuel f) {next : α → Nat → Except ε β}
    (hnext : ∀ a fuel, f fuel = .ok a → Settles outOfFuel (next a)) :
    Settles outOfFuel fun fuel => f fuel >>= fun a => next a fuel := by
  obtain ⟨bound, result, hne, hresult⟩ := h
  cases hcases : result with
  | error e =>
    rw [hcases] at hne hresult
    have hne' : (.error e : Except ε β) ≠ .error outOfFuel := by
      intro h
      cases h
      exact hne rfl
    refine (of_ne hne').congr (n := bound) fun fuel hle => ?_
    rw [hresult fuel hle]
    rfl
  | ok a =>
    rw [hcases] at hresult
    refine (hnext a bound (hresult bound le_rfl)).congr (n := bound) fun fuel hle => ?_
    rw [hresult fuel hle]
    rfl

theorem map (h : Settles outOfFuel f) (m : α → β) :
    Settles outOfFuel fun fuel => (f fuel).map m := by
  refine (h.bind fun a _ _ => ok (m a)).congr (n := 0) fun fuel _ => ?_
  cases f fuel <;> rfl

theorem foldlM {step : Nat → β → κ → Except ε β} {xs : List κ}
    (h : ∀ b, ∀ x ∈ xs, Settles outOfFuel fun fuel => step fuel b x) (b : β) :
    Settles outOfFuel fun fuel => xs.foldlM (step fuel) b := by
  induction xs generalizing b with
  | nil => exact ok b
  | cons x xs ih =>
    obtain ⟨hx, hxs⟩ := List.forall_mem_cons.1 (fun x hx b => h b x hx)
    exact (hx b).bind fun b' _ _ => ih (fun b x hx => hxs x hx b) b'

/-- Finitely many computations have one bound. -/
theorem exists_bound {univ : Finset κ} {f : κ → Nat → Except ε α}
    (h : ∀ k ∈ univ, Settles outOfFuel (f k)) :
    ∃ bound, ∀ k ∈ univ, f k bound ≠ .error outOfFuel ∧
      ∀ fuel, bound ≤ fuel → f k fuel = f k bound := by
  have hbound : ∀ k, ∃ bound, k ∈ univ → f k bound ≠ .error outOfFuel ∧
      ∀ fuel, bound ≤ fuel → f k fuel = f k bound := by
    intro k
    by_cases hk : k ∈ univ
    · obtain ⟨bound, result, hne, hresult⟩ := h k hk
      refine ⟨bound, fun _ => ⟨?_, fun fuel hle => ?_⟩⟩
      · rwa [hresult bound le_rfl]
      · rw [hresult fuel hle, hresult bound le_rfl]
    · exact ⟨0, fun hmem => absurd hmem hk⟩
  choose bounds hbounds using hbound
  refine ⟨univ.sup bounds, fun k hk => ?_⟩
  obtain ⟨hne, hsame⟩ := hbounds k hk
  have hle : bounds k ≤ univ.sup bounds := Finset.le_sup hk
  refine ⟨?_, fun fuel hfuel => ?_⟩
  · rwa [hsame _ hle]
  · rw [hsame fuel (by omega), hsame _ hle]

end Settles

/-! ## Computations that fail at the bound only -/

def FailsAtBound (outOfFuel : ε) (x : Except ε α) : Prop := ∀ e, x = .error e → e = outOfFuel

namespace FailsAtBound

variable {outOfFuel : ε} {x : Except ε α}

theorem ok (a : α) : FailsAtBound outOfFuel (.ok a : Except ε α) := fun e h => by cases h

theorem bind (hx : FailsAtBound outOfFuel x) {next : α → Except ε β}
    (h : ∀ a, x = .ok a → FailsAtBound outOfFuel (next a)) :
    FailsAtBound outOfFuel (x >>= next) := by
  cases x with
  | error e =>
    intro e' herror
    cases herror
    exact hx e rfl
  | ok a => exact h a rfl

theorem map (hx : FailsAtBound outOfFuel x) (m : α → β) : FailsAtBound outOfFuel (x.map m) := by
  cases x with
  | error e =>
    intro e' herror
    cases herror
    exact hx e rfl
  | ok a => exact ok (m a)

theorem foldlM {step : β → κ → Except ε β} {xs : List κ}
    (h : ∀ b, ∀ x ∈ xs, FailsAtBound outOfFuel (step b x)) (b : β) :
    FailsAtBound outOfFuel (xs.foldlM step b) := by
  induction xs generalizing b with
  | nil => exact ok b
  | cons x xs ih =>
    rw [List.foldlM_cons]
    exact (h b x List.mem_cons_self).bind fun b' _ =>
      ih (fun b x hx => h b x (List.mem_cons_of_mem _ hx)) b'

end FailsAtBound

/-- A computation that settles and has no other failure returns. -/
theorem Settles.exists_ok {outOfFuel : ε} {f : Nat → Except ε α} (h : Settles outOfFuel f)
    (hfails : ∀ fuel, FailsAtBound outOfFuel (f fuel)) :
    ∃ bound a, ∀ fuel, bound ≤ fuel → f fuel = .ok a := by
  obtain ⟨bound, result, hne, hresult⟩ := h
  cases hcases : result with
  | error e =>
    rw [hcases] at hne hresult
    have he := hfails bound e (hresult bound le_rfl)
    rw [he] at hne
    exact absurd rfl hne
  | ok a =>
    rw [hcases] at hresult
    exact ⟨bound, a, hresult⟩

end LogSurgeon.Lib
