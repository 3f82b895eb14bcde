import LogSurgeon.Lib.LangGraph

/-!
# Histories of walks

A walk on a graph has a history, the word that it has spelt so far.  A family of
predicates on histories, one for every state, holds along all walks if every
edge keeps it (`Carried` and `Walk.carried`).

`LastAt` says where the last letter with a given key stands in a word, and what
happens to it when the word grows.
-/

namespace LogSurgeon.Lib

namespace LangGraph

variable {σ α : Type*} {E E' : LangGraph σ α} {S : Set σ} {H H' : σ → List α → Prop} {p q : σ}

/-- Every edge takes the histories of its source to histories of its target. -/
def Carried (E : LangGraph σ α) (H : σ → List α → Prop) : Prop :=
  ∀ p q u, u ∈ E p q → ∀ w, H p w → H q (w ++ u)

/-- So does every walk. -/
theorem Walk.carried (hE : Carried E H) {u : List α} (h : Walk E p u q) {w : List α}
    (hw : H p w) : H q (w ++ u) := by
  induction h generalizing w with
  | nil => rwa [List.append_nil]
  | cons hedge _ ih =>
    rw [← List.append_assoc]
    exact ih (hE _ _ _ hedge w hw)

theorem Carried.sup (h : Carried E H) (h' : Carried E' H) : Carried (E ⊔ E') H := by
  intro p q u hu
  rcases hu with hu | hu
  · exact h p q u hu
  · exact h' p q u hu

theorem Carried.mono (h : Carried E' H) (hle : ∀ p q u, u ∈ E p q → u ∈ E' p q) : Carried E H :=
  fun p q u hu => h p q u (hle p q u hu)

theorem carried_edge {L : Language α} (h : ∀ u ∈ L, ∀ w, H p w → H q (w ++ u)) :
    Carried (edge p q L) H := by
  rintro x y u ⟨rfl, rfl, hu⟩
  exact h u hu

/-- Only the predicates of the states that have edges matter. -/
theorem Carried.congr (h : Carried E H) (hE : SupportedOn S E) (hagree : ∀ p ∈ S, H' p = H p) :
    Carried E H' := by
  intro p q u hu
  obtain ⟨hp, hq⟩ := hE p q u hu
  rw [hagree p hp, hagree q hq]
  exact h p q u hu

end LangGraph

/-! ## The last letter with a key -/

section LastAt

variable {α κ : Type*} {key : α → κ} {u v : List α} {i : Nat} {a : α}

/-- The last letter of the word with the key of `a` is `a`, at position `i`. -/
structure LastAt (key : α → κ) (u : List α) (i : Nat) (a : α) : Prop where
  getElem? : u[i]? = some a
  later : ∀ j b, i < j → u[j]? = some b → key b ≠ key a

theorem LastAt.lt_length (h : LastAt key u i a) : i < u.length :=
  (List.getElem?_eq_some_iff.1 h.getElem?).1

/-- Letters with other keys do not matter. -/
theorem LastAt.append (h : LastAt key u i a) (hv : ∀ b ∈ v, key b ≠ key a) :
    LastAt key (u ++ v) i a := by
  refine ⟨?_, fun j b hj hb => ?_⟩
  · rw [List.getElem?_append_left h.lt_length]
    exact h.getElem?
  · rcases Nat.lt_or_ge j u.length with hlt | hge
    · rw [List.getElem?_append_left hlt] at hb
      exact h.later j b hj hb
    · rw [List.getElem?_append_right hge] at hb
      exact hv b (List.mem_of_getElem? hb)

theorem lastAt_append_right (h : LastAt key v i a) : LastAt key (u ++ v) (u.length + i) a := by
  refine ⟨?_, fun j b hj hb => ?_⟩
  · rw [List.getElem?_append_right (by omega), Nat.add_sub_cancel_left]
    exact h.getElem?
  · rw [List.getElem?_append_right (by omega)] at hb
    exact h.later (j - u.length) b (by omega) hb

theorem lastAt_append_singleton (u : List α) (a : α) : LastAt key (u ++ [a]) u.length a := by
  refine ⟨List.getElem?_concat_length, fun j b hj hb => ?_⟩
  rw [List.getElem?_eq_none (by simp; omega)] at hb
  cases hb

/-- A key that occurs occurs last somewhere. -/
theorem exists_lastAt {k : κ} (h : ∃ b ∈ u, key b = k) : ∃ i a, LastAt key u i a ∧ key a = k := by
  classical
  induction u using List.reverseRecOn with
  | nil =>
    obtain ⟨b, hb, -⟩ := h
    cases hb
  | append_singleton u c ih =>
    by_cases hc : key c = k
    · exact ⟨u.length, c, lastAt_append_singleton u c, hc⟩
    · obtain ⟨b, hb, hk⟩ := h
      have hmem : b ∈ u := by
        rcases List.mem_append.1 hb with hb | hb
        · exact hb
        · rw [List.mem_singleton.1 hb] at hk
          exact absurd hk hc
      obtain ⟨i, a, hlast, ha⟩ := ih ⟨b, hmem, hk⟩
      refine ⟨i, a, hlast.append fun d hd => ?_, ha⟩
      rw [List.mem_singleton.1 hd, ha]
      exact hc

end LastAt

end LogSurgeon.Lib
