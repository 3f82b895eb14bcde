import LogSurgeon.Lib.Grammar
import Mathlib.Data.List.Forall2

/-!
# Sentences with values

A token may be read as one of several symbols.  `Evaluates` says that tokens are
a sentence of some symbols, and what the values of the symbols are: a token has
a value of its own, and a rule makes the value of its head from those of its
body.

`Leads` says which token may come first in a text that some symbols and a
lookahead describe.
-/

namespace LogSurgeon.Lib

/-- The rules that may be used, and what the tokens and the rules mean. -/
structure Semantics (σ ι τ V : Type*) where
  rule : ι → Production σ
  IsRule : ι → Prop
  types : τ → List σ
  leaf : τ → V
  node : ι → List V → V

namespace Semantics

open Grammar

variable {σ ι τ V : Type*}

/-- The tokens are a sentence of the symbols with these values. -/
inductive Evaluates (r : Semantics σ ι τ V) : List σ → List τ → List V → Prop
  | nil : Evaluates r [] [] []
  | token {a : σ} {t : τ} {xs : List σ} {w : List τ} {vs : List V} : a ∈ r.types t →
      Evaluates r xs w vs → Evaluates r (a :: xs) (t :: w) (r.leaf t :: vs)
  | rule {i : ι} {xs : List σ} {w w' : List τ} {vs vs' : List V} : r.IsRule i →
      Evaluates r (r.rule i).body w' vs' → Evaluates r xs w vs →
      Evaluates r ((r.rule i).head :: xs) (w' ++ w) (r.node i vs' :: vs)

variable {r : Semantics σ ι τ V} {xs ys : List σ} {w w' : List τ} {vs vs' : List V}

namespace Evaluates

theorem length_eq (h : r.Evaluates xs w vs) : vs.length = xs.length := by
  induction h with
  | nil => rfl
  | token _ _ ih => simp [ih]
  | rule _ _ _ _ ih => simp [ih]

theorem append (h : r.Evaluates xs w vs) (h' : r.Evaluates ys w' vs') :
    r.Evaluates (xs ++ ys) (w ++ w') (vs ++ vs') := by
  induction h with
  | nil => exact h'
  | token ht _ ih => exact .token ht ih
  | rule hi hbody _ _ ih =>
    rw [List.append_assoc]
    exact .rule hi hbody ih

theorem exists_append (h : r.Evaluates (xs ++ ys) w vs) :
    ∃ w₁ w₂ vs₁ vs₂, w = w₁ ++ w₂ ∧ vs = vs₁ ++ vs₂ ∧ r.Evaluates xs w₁ vs₁ ∧
      r.Evaluates ys w₂ vs₂ := by
  generalize hzs : xs ++ ys = zs at h
  induction h generalizing xs with
  | nil =>
    obtain ⟨rfl, rfl⟩ := List.append_eq_nil_iff.1 hzs
    exact ⟨[], [], [], [], rfl, rfl, .nil, .nil⟩
  | @token a t zs w vs ht hrest ih =>
    cases xs with
    | nil =>
      obtain rfl : ys = a :: zs := hzs
      exact ⟨[], _, [], _, rfl, rfl, .nil, .token ht hrest⟩
    | cons x xs =>
      obtain ⟨rfl, htail⟩ := List.cons.inj hzs
      obtain ⟨w₁, w₂, vs₁, vs₂, rfl, rfl, h₁, h₂⟩ := ih htail
      exact ⟨t :: w₁, w₂, r.leaf t :: vs₁, vs₂, rfl, rfl, .token ht h₁, h₂⟩
  | @rule i zs w w' vs vs' hi hbody hrest _ ih =>
    cases xs with
    | nil =>
      obtain rfl : ys = (r.rule i).head :: zs := hzs
      exact ⟨[], _, [], _, rfl, rfl, .nil, .rule hi hbody hrest⟩
    | cons x xs =>
      obtain ⟨rfl, htail⟩ := List.cons.inj hzs
      obtain ⟨w₁, w₂, vs₁, vs₂, rfl, rfl, h₁, h₂⟩ := ih htail
      exact ⟨w' ++ w₁, w₂, r.node i vs' :: vs₁, vs₂, (List.append_assoc _ _ _).symm, rfl,
        .rule hi hbody h₁, h₂⟩

/-- A sentence can be derived, each token as one of its symbols. -/
theorem exists_derives {productions : List (Production σ)}
    (hrules : ∀ i, r.IsRule i → r.rule i ∈ productions) (h : r.Evaluates xs w vs) :
    ∃ as, List.Forall₂ (fun t a => a ∈ r.types t) w as ∧ Derives productions xs as := by
  induction h with
  | nil => exact ⟨[], .nil, .refl⟩
  | @token a t xs w vs ht _ ih =>
    obtain ⟨as, has, hderives⟩ := ih
    have hlater := hderives.append [a] []
    rw [List.append_nil, List.append_nil] at hlater
    exact ⟨a :: as, .cons ht has, hlater⟩
  | @rule i xs w w' vs vs' hi _ _ ihbody ih =>
    obtain ⟨as', has', hbody⟩ := ihbody
    obtain ⟨as, has, hderives⟩ := ih
    have hhead : Derives productions [(r.rule i).head] as' :=
      (derives_of_mem (hrules i hi)).trans hbody
    have hfirst := hhead.append [] xs
    have hlater := hderives.append as' []
    rw [List.append_nil, List.append_nil] at hlater
    exact ⟨as' ++ as, List.rel_append has' has, hfirst.trans hlater⟩

end Evaluates

/-! ## What comes first -/

/-- A text of the symbols in front of the lookahead `l` may begin with `a`. -/
def Leads (productions : List (Production σ)) (IsToken : σ → Prop) (xs : List σ) (l a : σ) :
    Prop :=
  BeginsWith productions IsToken a xs ∨ (∀ s ∈ xs, Null productions s) ∧ a = l

variable {productions : List (Production σ)} {IsToken : σ → Prop} {l b : σ} {t : τ}

/-- The next token of a text is led to by its symbols. -/
theorem Evaluates.leads (hrules : ∀ i, r.IsRule i → r.rule i ∈ productions)
    (h : r.Evaluates xs w vs) (htoken : ∀ t ∈ w, ∀ a ∈ r.types t, IsToken a)
    (hsingle : ∀ t ∈ w, ∃ a, r.types t = [a]) (hnext : r.types t = [b])
    (hleads : Leads productions IsToken ys l b) (input : List τ) :
    ∃ t' input' a, w ++ t :: input = t' :: input' ∧ r.types t' = [a] ∧
      Leads productions IsToken (xs ++ ys) l a := by
  obtain ⟨as, has, hderives⟩ := h.exists_derives hrules
  cases has with
  | nil =>
    refine ⟨t, input, b, rfl, hnext, ?_⟩
    have hnull := forall_null_of_derives hderives
    rcases hleads with hbegins | ⟨hnull', hb⟩
    · exact Or.inl (beginsWith_append.2 (Or.inr ⟨hnull, hbegins⟩))
    · exact Or.inr ⟨List.forall_mem_append.2 ⟨hnull, hnull'⟩, hb⟩
  | @cons t' a w as ha _ =>
    obtain ⟨a', ha'⟩ := hsingle t' List.mem_cons_self
    have heq : a = a' := by
      rw [ha'] at ha
      exact List.mem_singleton.1 ha
    subst heq
    refine ⟨t', w ++ t :: input, a, rfl, ha', Or.inl (beginsWith_append.2 (Or.inl ?_))⟩
    exact beginsWith_of_derives (htoken t' List.mem_cons_self a ha) hderives

end Semantics

end LogSurgeon.Lib
