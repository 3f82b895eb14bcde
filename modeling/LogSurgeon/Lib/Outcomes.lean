import Mathlib.Logic.Basic

/-!
# Outcomes

A computation that may fail has one of two outcomes.  `Yields` says what is known
of either, and its rules follow the computation step by step.
-/

namespace LogSurgeon.Lib

universe u v

variable {ε ε' : Type u} {α β : Type v} {x : Except ε α} {P P' : α → Prop} {Q Q' : ε → Prop}
  {R : β → Prop}

/-- What is returned satisfies `P`, and an error satisfies `Q`. -/
def Yields (x : Except ε α) (P : α → Prop) (Q : ε → Prop) : Prop :=
  match x with
  | .ok a => P a
  | .error e => Q e

namespace Yields

theorem ok {a : α} (h : P a) : Yields (.ok a) P Q := h

theorem of_ok {a : α} (h : Yields x P Q) (hx : x = .ok a) : P a := by
  rw [hx] at h
  exact h

theorem of_error {e : ε} (h : Yields x P Q) (hx : x = .error e) : Q e := by
  rw [hx] at h
  exact h

theorem mono (h : Yields x P Q) (hP : ∀ a, P a → P' a) (hQ : ∀ e, Q e → Q' e) :
    Yields x P' Q' := by
  cases x with
  | ok a => exact hP a h
  | error e => exact hQ e h

/-- The second step starts from what the first one returns. -/
theorem bind {f : α → Except ε β} (h : Yields x P Q) (hf : ∀ a, P a → Yields (f a) R Q) :
    Yields (x >>= f) R Q := by
  cases x with
  | ok a => exact hf a h
  | error e => exact h

/-- Every step of a loop keeps the invariant. -/
theorem foldlM {κ : Type*} {step : β → κ → Except ε β} {xs : List κ}
    (h : ∀ b, R b → ∀ x ∈ xs, Yields (step b x) R Q) {b : β} (hb : R b) :
    Yields (xs.foldlM step b) R Q := by
  induction xs generalizing b with
  | nil => exact hb
  | cons x xs ih =>
    rw [List.foldlM_cons]
    exact (h b hb x List.mem_cons_self).bind fun b' hb' =>
      ih (fun b hb y hy => h b hb y (List.mem_cons_of_mem x hy)) hb'

theorem mapError {f : ε → ε'} {Q' : ε' → Prop} (h : Yields x P Q) (hQ : ∀ e, Q e → Q' (f e)) :
    Yields (x.mapError f) P Q' := by
  cases x with
  | ok a => exact h
  | error e => exact hQ e h

end Yields

end LogSurgeon.Lib
