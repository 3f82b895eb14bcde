import Mathlib.Data.List.Basic
import Mathlib.Logic.Relation

/-!
# Context-free grammars over one kind of symbols

A production rewrites its head to its body, and any symbol may be a head.
`Null` and `First` are the inductive rules for the symbols that derive the
empty string and for the symbols that a derived sentential form may begin with.
`null_iff` and `first_iff` say that they are right.
-/

namespace LogSurgeon.Lib

structure Production (σ : Type*) where
  head : σ
  body : List σ
deriving DecidableEq, Repr

namespace Grammar

variable {σ : Type*} {productions : List (Production σ)}

/-! ## Derivations -/

/-- One head in a sentential form is rewritten. -/
inductive Step (productions : List (Production σ)) : List σ → List σ → Prop
  | rewrite {p : Production σ} (u v : List σ) : p ∈ productions →
      Step productions (u ++ p.head :: v) (u ++ p.body ++ v)

def Derives (productions : List (Production σ)) : List σ → List σ → Prop :=
  Relation.ReflTransGen (Step productions)

theorem Step.append {x y : List σ} (h : Step productions x y) (u v : List σ) :
    Step productions (u ++ x ++ v) (u ++ y ++ v) := by
  obtain ⟨u', v', hp⟩ := h
  have hstep := Step.rewrite (u ++ u') (v' ++ v) hp
  simpa using hstep

theorem Derives.append {x y : List σ} (h : Derives productions x y) (u v : List σ) :
    Derives productions (u ++ x ++ v) (u ++ y ++ v) := by
  induction h with
  | refl => exact .refl
  | tail _ hstep ih => exact ih.tail (hstep.append u v)

theorem derives_of_mem {p : Production σ} (h : p ∈ productions) :
    Derives productions [p.head] p.body := by
  have hstep := Step.rewrite [] [] h
  rw [List.nil_append, List.nil_append, List.append_nil] at hstep
  exact .single hstep

/-! ## The empty string -/

/-- The symbol can vanish. -/
inductive Null (productions : List (Production σ)) : σ → Prop
  | rule {p : Production σ} : p ∈ productions → (∀ s ∈ p.body, Null productions s) →
      Null productions p.head

/-- A string of symbols that can vanish vanishes. -/
theorem derives_nil_of_forall {x : List σ} (h : ∀ s ∈ x, Derives productions [s] []) :
    Derives productions x [] := by
  induction x with
  | nil => exact .refl
  | cons s x ih =>
    have hhead := (h s List.mem_cons_self).append [] x
    exact hhead.trans (ih fun s' hs' => h s' (List.mem_cons_of_mem s hs'))

theorem Null.derives {s : σ} (h : Null productions s) : Derives productions [s] [] := by
  induction h with
  | rule hp _ ih => exact (derives_of_mem hp).trans (derives_nil_of_forall ih)

/-- The induction goes from the end of the derivation to its start. -/
theorem forall_null_of_derives {x : List σ} (h : Derives productions x []) :
    ∀ s ∈ x, Null productions s := by
  induction h using Relation.ReflTransGen.head_induction_on with
  | refl => exact fun s hs => absurd hs List.not_mem_nil
  | head hstep _ ih =>
    obtain ⟨u, v, hp⟩ := hstep
    intro s hs
    rcases List.mem_append.1 hs with hs | hs
    · exact ih s (by simp [hs])
    · rcases List.mem_cons.1 hs with rfl | hs
      · exact .rule hp fun s' hs' => ih s' (by simp [hs'])
      · exact ih s (by simp [hs])

theorem null_iff {s : σ} : Null productions s ↔ Derives productions [s] [] :=
  ⟨Null.derives, fun h => forall_null_of_derives h s (List.mem_singleton.2 rfl)⟩

/-! ## First symbols -/

/-- A form derived from the symbol `s` may begin with the token `t`. -/
inductive First (productions : List (Production σ)) (IsToken : σ → Prop) (t : σ) : σ → Prop
  | self : IsToken t → First productions IsToken t t
  | rule {p : Production σ} {s : σ} {u v : List σ} : p ∈ productions →
      p.body = u ++ s :: v → (∀ s' ∈ u, Null productions s') →
      First productions IsToken t s → First productions IsToken t p.head

variable {IsToken : σ → Prop} {s t : σ}

theorem First.isToken (h : First productions IsToken t s) : IsToken t := by
  induction h with
  | self ht => exact ht
  | rule _ _ _ _ ih => exact ih

theorem First.derives (h : First productions IsToken t s) :
    ∃ w, Derives productions [s] (t :: w) := by
  induction h with
  | self => exact ⟨[], .refl⟩
  | @rule p s u v hp hbody hnull _ ih =>
    obtain ⟨w, hw⟩ := ih
    have hvanish : Derives productions u [] :=
      derives_nil_of_forall fun s' hs' => (hnull s' hs').derives
    refine ⟨w ++ v, (derives_of_mem hp).trans ?_⟩
    rw [hbody]
    exact (hvanish.append [] (s :: v)).trans (hw.append [] v)

/-- The form begins with symbols that vanish, and the next one leads to the
token. -/
def BeginsWith (productions : List (Production σ)) (IsToken : σ → Prop) (t : σ) :
    List σ → Prop
  | [] => False
  | s :: x => First productions IsToken t s ∨
      Null productions s ∧ BeginsWith productions IsToken t x

theorem beginsWith_append {x y : List σ} :
    BeginsWith productions IsToken t (x ++ y) ↔
      BeginsWith productions IsToken t x ∨
        (∀ s ∈ x, Null productions s) ∧ BeginsWith productions IsToken t y := by
  induction x with
  | nil => simp [BeginsWith]
  | cons s x ih =>
    rw [List.cons_append, BeginsWith, ih, BeginsWith, List.forall_mem_cons, and_or_left, or_assoc,
      and_assoc]

theorem BeginsWith.exists_split {x : List σ} (h : BeginsWith productions IsToken t x) :
    ∃ u s v, x = u ++ s :: v ∧ (∀ s' ∈ u, Null productions s') ∧
      First productions IsToken t s := by
  induction x with
  | nil => exact h.elim
  | cons s x ih =>
    rcases h with hfirst | ⟨hnull, h⟩
    · exact ⟨[], s, x, rfl, fun s' hs' => absurd hs' List.not_mem_nil, hfirst⟩
    · obtain ⟨u, s', v, rfl, hu, hfirst⟩ := ih h
      exact ⟨s :: u, s', v, rfl, List.forall_mem_cons.2 ⟨hnull, hu⟩, hfirst⟩

/-- The induction goes from the end of the derivation to its start. -/
theorem beginsWith_of_derives {x w : List σ} (ht : IsToken t)
    (h : Derives productions x (t :: w)) : BeginsWith productions IsToken t x := by
  induction h using Relation.ReflTransGen.head_induction_on with
  | refl => exact Or.inl (.self ht)
  | head hstep _ ih =>
    obtain ⟨u, v, hp⟩ := hstep
    rw [List.append_assoc, beginsWith_append, beginsWith_append] at ih
    rw [beginsWith_append]
    refine ih.imp_right fun ⟨hu, ih⟩ => ⟨hu, ih.imp (fun hbody => ?_) fun ⟨hbody, hv⟩ => ?_⟩
    · obtain ⟨u', s, v', hsplit, hnull, hfirst⟩ := hbody.exists_split
      exact .rule hp hsplit hnull hfirst
    · exact ⟨.rule hp hbody, hv⟩

theorem first_iff : First productions IsToken t s ↔
    IsToken t ∧ ∃ w, Derives productions [s] (t :: w) := by
  constructor
  · exact fun h => ⟨h.isToken, h.derives⟩
  · rintro ⟨ht, w, hw⟩
    exact (beginsWith_of_derives ht hw).resolve_right fun h => h.2

/-! ## Productive symbols -/

/-- A string of symbols that derive such tokens derives such tokens. -/
theorem exists_derives_of_forall {T : σ → Prop} {x : List σ}
    (h : ∀ s ∈ x, ∃ w, (∀ t ∈ w, T t) ∧ Derives productions [s] w) :
    ∃ w, (∀ t ∈ w, T t) ∧ Derives productions x w := by
  induction x with
  | nil => exact ⟨[], List.forall_mem_nil _, .refl⟩
  | cons s x ih =>
    obtain ⟨⟨w, hw, hs⟩, hx⟩ := List.forall_mem_cons.1 h
    obtain ⟨w', hw', hx⟩ := ih hx
    refine ⟨w ++ w', List.forall_mem_append.2 ⟨hw, hw'⟩, ?_⟩
    have hlater := hx.append w []
    rw [List.append_nil, List.append_nil] at hlater
    exact (hs.append [] x).trans hlater

/-- Every symbol of a body is a token, or the head of a later production of the
list. -/
def Grounded {α : Type*} (T : α → Prop) : List (Production α) → Prop
  | [] => True
  | p :: rest => (∀ s ∈ p.body, T s ∨ s ∈ rest.map Production.head) ∧ Grounded T rest

instance decidableGrounded {α : Type*} [DecidableEq α] (T : α → Prop) [DecidablePred T] :
    (ps : List (Production α)) → Decidable (Grounded T ps)
  | [] => isTrue trivial
  | p :: rest =>
    have := decidableGrounded T rest
    inferInstanceAs (Decidable ((∀ s ∈ p.body, T s ∨ s ∈ rest.map Production.head) ∧
      Grounded T rest))

/-- The heads of a grounded list derive tokens, under any names. -/
theorem Grounded.exists_derives {α : Type*} {T : α → Prop} {f : α → σ}
    {ps : List (Production α)} (h : Grounded T ps)
    (hps : ∀ p ∈ ps, ⟨f p.head, p.body.map f⟩ ∈ productions) :
    ∀ a ∈ ps.map Production.head,
      ∃ w, (∀ t ∈ w, ∃ b, T b ∧ t = f b) ∧ Derives productions [f a] w := by
  induction ps with
  | nil => exact List.forall_mem_nil _
  | cons p ps ih =>
    obtain ⟨hbody, hrest⟩ := h
    obtain ⟨hp, hps⟩ := List.forall_mem_cons.1 hps
    have hlater := ih hrest hps
    refine List.forall_mem_cons.2 ⟨?_, hlater⟩
    have hsymbols : ∀ s ∈ p.body.map f,
        ∃ w, (∀ t ∈ w, ∃ b, T b ∧ t = f b) ∧ Derives productions [s] w := by
      refine List.forall_mem_map.2 fun s hs => ?_
      rcases hbody s hs with ht | hhead
      · exact ⟨[f s], List.forall_mem_singleton.2 ⟨s, ht, rfl⟩, .refl⟩
      · exact hlater s hhead
    obtain ⟨w, hw, hderives⟩ := exists_derives_of_forall hsymbols
    exact ⟨w, hw, (derives_of_mem hp).trans hderives⟩

end Grammar

end LogSurgeon.Lib
