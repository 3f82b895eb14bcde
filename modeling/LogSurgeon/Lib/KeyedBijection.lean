import Mathlib.Data.List.Count
import Mathlib.Data.Set.Card
import Mathlib.Tactic.Common

/-!
# Bijections that keep a key

Two lists without duplicates have a bijection that keeps a key of their elements
exactly when every key occurs equally often in both
(`exists_bijOn_iff_countP`).
-/

namespace LogSurgeon.Lib

variable {α κ : Type*} {key : α → κ}

/-- Bijections between the elements of each key are parts of one bijection. -/
theorem exists_bijOn_of_keys {s t : Set α}
    (h : ∀ k, ∃ g, Set.BijOn g {a ∈ s | key a = k} {b ∈ t | key b = k}) :
    ∃ f, Set.BijOn f s t ∧ ∀ a ∈ s, key (f a) = key a := by
  choose g hg using h
  have hmaps : ∀ a ∈ s, g (key a) a ∈ t ∧ key (g (key a) a) = key a :=
    fun a ha => (hg (key a)).mapsTo ⟨ha, rfl⟩
  refine ⟨fun a => g (key a) a, ⟨fun a ha => (hmaps a ha).1, ?_, ?_⟩,
    fun a ha => (hmaps a ha).2⟩
  · intro a ha b hb heq
    have heq : g (key a) a = g (key b) b := heq
    have hkey : key b = key a := by
      rw [← (hmaps a ha).2, ← (hmaps b hb).2, heq]
    rw [hkey] at heq
    exact (hg (key a)).injOn ⟨ha, rfl⟩ ⟨hb, hkey⟩ heq
  · intro b hb
    obtain ⟨a, ⟨ha, hkey⟩, heq⟩ := (hg (key b)).surjOn ⟨hb, rfl⟩
    refine ⟨a, ha, ?_⟩
    show g (key a) a = b
    rw [hkey, heq]

variable [DecidableEq κ] {l l' : List α}

/-- The number of elements of a key. -/
theorem encard_key (hl : l.Nodup) (k : κ) :
    {a | a ∈ l ∧ key a = k}.encard = l.countP (key · = k) := by
  classical
  have hset : {a | a ∈ l ∧ key a = k} = ((l.filter (key · = k)).toFinset : Set α) := by
    ext a
    simp
  rw [hset, Set.encard_coe_eq_coe_finsetCard, List.toFinset_card_of_nodup (hl.filter _),
    ← List.countP_eq_length_filter]

theorem exists_bijOn_iff_countP (hl : l.Nodup) (hl' : l'.Nodup) :
    (∃ f, Set.BijOn f {a | a ∈ l} {a | a ∈ l'} ∧ ∀ a ∈ l, key (f a) = key a) ↔
      ∀ k, l.countP (key · = k) = l'.countP (key · = k) := by
  constructor
  · intro h k
    obtain ⟨f, hf, hkey⟩ := h
    have himage : {b | b ∈ l' ∧ key b = k} = f '' {a | a ∈ l ∧ key a = k} := by
      ext b
      constructor
      · intro hb
        obtain ⟨a, ha, rfl⟩ := hf.surjOn hb.1
        exact ⟨a, ⟨ha, (hkey a ha).symm.trans hb.2⟩, rfl⟩
      · intro hb
        obtain ⟨a, ⟨ha, hk⟩, rfl⟩ := hb
        exact ⟨hf.mapsTo ha, (hkey a ha).trans hk⟩
    have hinj : Set.InjOn f {a | a ∈ l ∧ key a = k} := hf.injOn.mono fun a ha => ha.1
    have hcard := hinj.encard_image
    rw [← himage, encard_key hl', encard_key hl] at hcard
    exact_mod_cast hcard.symm
  · intro h
    apply exists_bijOn_of_keys
    intro k
    have hcard : {a | a ∈ l ∧ key a = k}.encard = {b | b ∈ l' ∧ key b = k}.encard := by
      rw [encard_key hl, encard_key hl', h k]
    cases isEmpty_or_nonempty α with
    | inl hempty =>
      refine ⟨id, ?_⟩
      rw [Set.eq_empty_of_isEmpty {a | a ∈ {a | a ∈ l} ∧ key a = k},
        Set.eq_empty_of_isEmpty {b | b ∈ {a | a ∈ l'} ∧ key b = k}]
      exact Set.bijOn_empty id
    | inr hnonempty =>
      apply Set.Finite.exists_bijOn_of_encard_eq _ hcard
      exact (List.finite_toSet l).subset fun a ha => ha.1

end LogSurgeon.Lib
