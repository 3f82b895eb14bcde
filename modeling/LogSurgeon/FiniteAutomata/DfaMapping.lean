import LogSurgeon.FiniteAutomata.Dfa

/-!
# What a mapping between two sets means

`tryGetMapping lhs rhs` pairs every configuration of `lhs` with the first
configuration of `rhs` that has the same NFA state and lookahead, and renames
the registers in between.  `Renames` says what this is for a relation between
registers.  `tryGetMapping_sound` says that a mapping is such a renaming, and
`tryGetMapping_complete` that it is found whenever some one-to-one relation
renames the registers.

Two configurations of `lhs` may be paired with the same one of `rhs`, so `rhs`
can have configurations that none of `lhs` corresponds to.
-/

namespace LogSurgeon.Dfa

open Lib

/-- The relation `R` takes the registers of `c` to those of `c'`, for the tags
without an operation in the lookahead. -/
def RenamesRegisters (R : Nat → Nat → Prop) (c c' : DeterminizationConfiguration) : Prop :=
  ∀ t l, c.tagIdToRegIds.find? t = some l → c.getTagLookahead t = none →
    ∃ r, c'.tagIdToRegIds.find? t = some r ∧ R l r

/-- The first configuration of `rhs` that is comparable to `c`. -/
def firstComparable (rhs : ConfigurationSet) (c : DeterminizationConfiguration) :
    Option DeterminizationConfiguration :=
  rhs.toList.find? fun c' => Comparable c c'

theorem firstComparable_mem {rhs : ConfigurationSet} {c c' : DeterminizationConfiguration}
    (h : firstComparable rhs c = some c') : c' ∈ rhs ∧ Comparable c c' :=
  ⟨List.mem_of_find?_eq_some h, by simpa using List.find?_some h⟩

/-- Comparable configurations have the same first comparable configuration. -/
theorem firstComparable_congr {rhs : ConfigurationSet} {c d : DeterminizationConfiguration}
    (h : Comparable c d) : firstComparable rhs c = firstComparable rhs d := by
  unfold firstComparable
  congr 1
  funext c'
  rw [decide_eq_decide, Comparable, Comparable, h.1, h.2]

/-- The relation `R` takes every configuration of `lhs` to the first comparable
one of `rhs`. -/
def Renames (R : Nat → Nat → Prop) (lhs : List DeterminizationConfiguration)
    (rhs : ConfigurationSet) : Prop :=
  ∀ c ∈ lhs, ∃ c', firstComparable rhs c = some c' ∧ RenamesRegisters R c c'

/-- Neither side of the relation is paired twice. -/
structure OneToOne (R : Nat → Nat → Prop) : Prop where
  right_unique : ∀ l r r', R l r → R l r' → r = r'
  left_unique : ∀ l l' r, R l r → R l' r → l = l'

namespace RegMaps

/-- The pairs of the mapping. -/
def Rel (maps : RegMaps) (l r : Nat) : Prop := maps.lhsToRhs.lookup l = some r

/-- Both directions hold the same pairs. -/
def Consistent (maps : RegMaps) : Prop :=
  ∀ l r, maps.lhsToRhs.lookup l = some r ↔ maps.rhsToLhs.lookup r = some l

theorem consistent_empty : ({} : RegMaps).Consistent := by
  intro l r
  simp

theorem Consistent.oneToOne {maps : RegMaps} (h : maps.Consistent) : OneToOne maps.Rel where
  right_unique _ _ _ hr hr' := Option.some.inj (hr.symm.trans hr')
  left_unique l l' r hr hr' :=
    Option.some.inj (((h l r).1 hr).symm.trans ((h l' r).1 hr'))

theorem lookup_append_singleton {l k v x : Nat} {list : List (Nat × Nat)}
    (hnone : list.lookup k = none) :
    (list ++ [(k, v)]).lookup l = some x ↔ list.lookup l = some x ∨ l = k ∧ x = v := by
  rw [List.lookup_append]
  by_cases hl : l = k
  · subst hl
    simp [hnone, eq_comm]
  · cases list.lookup l with
    | none => simp [hl]
    | some y => simp [hl]

/-- A pair that is added to the mapping. -/
theorem match_spec {maps maps' : RegMaps} {l r : Nat} (hcons : maps.Consistent)
    (h : maps.match l r = some maps') :
    maps'.Consistent ∧ ∀ x y, maps'.Rel x y ↔ maps.Rel x y ∨ x = l ∧ y = r := by
  unfold RegMaps.match at h
  split at h
  · rename_i hl hr
    cases h
    have hadd : ∀ x y, (maps.lhsToRhs ++ [(l, r)]).lookup x = some y ↔
        maps.lhsToRhs.lookup x = some y ∨ x = l ∧ y = r :=
      fun x y => lookup_append_singleton hl
    refine ⟨fun x y => ?_, hadd⟩
    show (maps.lhsToRhs ++ [(l, r)]).lookup x = some y ↔
      (maps.rhsToLhs ++ [(r, l)]).lookup y = some x
    rw [hadd, lookup_append_singleton hr, hcons, and_comm]
  · rename_i rhs lhs hl hr
    split at h
    · rename_i heq
      obtain ⟨rfl, rfl⟩ := heq
      cases h
      refine ⟨hcons, fun x y => ⟨Or.inl, ?_⟩⟩
      rintro (hxy | ⟨rfl, rfl⟩)
      · exact hxy
      · exact hl
    · cases h
  · cases h

/-- A pair of a one-to-one relation that holds the mapping can be added. -/
theorem exists_match {R : Nat → Nat → Prop} (hR : OneToOne R) {maps : RegMaps} {l r : Nat}
    (hcons : maps.Consistent) (hsub : ∀ x y, maps.Rel x y → R x y) (hlr : R l r) :
    ∃ maps', maps.match l r = some maps' := by
  unfold RegMaps.match
  cases hl : maps.lhsToRhs.lookup l with
  | none =>
    cases hr : maps.rhsToLhs.lookup r with
    | none => exact ⟨_, rfl⟩
    | some x =>
      have hx : maps.Rel x r := (hcons x r).2 hr
      rw [hR.left_unique x l r (hsub x r hx) hlr] at hx
      have hl' : maps.lhsToRhs.lookup l = some r := hx
      rw [hl] at hl'
      cases hl'
  | some y =>
    have hy : y = r := hR.right_unique l y r (hsub l y hl) hlr
    subst hy
    have hr : maps.rhsToLhs.lookup y = some l := (hcons l y).1 hl
    rw [hr]
    exact ⟨maps, by simp⟩

end RegMaps

/-- The loop over the tags of one configuration adds the pairs that it needs. -/
theorem matchRegisters_sound {c c' : DeterminizationConfiguration} {tags : List (Nat × Nat)}
    {maps maps' : RegMaps} (hcons : maps.Consistent)
    (h : matchRegisters c c' tags maps = some maps') :
    maps'.Consistent ∧ (∀ x y, maps.Rel x y → maps'.Rel x y) ∧
      ∀ t l, (t, l) ∈ tags → c.getTagLookahead t = none →
        ∃ r, c'.tagIdToRegIds.find? t = some r ∧ maps'.Rel l r := by
  induction tags generalizing maps with
  | nil =>
    cases h
    exact ⟨hcons, fun _ _ hxy => hxy, by simp⟩
  | cons tag tags ih =>
    obtain ⟨t₀, l₀⟩ := tag
    rw [matchRegisters] at h
    split at h
    · rename_i hlook
      obtain ⟨hcons', hsub, htags⟩ := ih hcons h
      refine ⟨hcons', hsub, ?_⟩
      intro t l hmem hnone
      rcases List.mem_cons.1 hmem with heq | hmem
      · cases heq
        rw [hnone] at hlook
        cases hlook
      · exact htags t l hmem hnone
    · split at h
      · rename_i r₀ hr₀
        split at h
        · rename_i mid hmid
          obtain ⟨hcons₁, hrel⟩ := RegMaps.match_spec hcons hmid
          obtain ⟨hcons', hsub, htags⟩ := ih hcons₁ h
          refine ⟨hcons', fun x y hxy => hsub x y ((hrel x y).2 (Or.inl hxy)), ?_⟩
          intro t l hmem hnone
          rcases List.mem_cons.1 hmem with heq | hmem
          · cases heq
            exact ⟨r₀, hr₀, hsub l₀ r₀ ((hrel l₀ r₀).2 (Or.inr ⟨rfl, rfl⟩))⟩
          · exact htags t l hmem hnone
        · cases h
      · cases h

theorem exists_matchRegisters {R : Nat → Nat → Prop} (hR : OneToOne R)
    {c c' : DeterminizationConfiguration} {tags : List (Nat × Nat)} {maps : RegMaps}
    (hcons : maps.Consistent) (hsub : ∀ x y, maps.Rel x y → R x y)
    (htags : ∀ t l, (t, l) ∈ tags → c.getTagLookahead t = none →
      ∃ r, c'.tagIdToRegIds.find? t = some r ∧ R l r) :
    ∃ maps', matchRegisters c c' tags maps = some maps' ∧ maps'.Consistent ∧
      ∀ x y, maps'.Rel x y → R x y := by
  induction tags generalizing maps with
  | nil => exact ⟨maps, rfl, hcons, hsub⟩
  | cons tag tags ih =>
    obtain ⟨t₀, l₀⟩ := tag
    have hrest : ∀ t l, (t, l) ∈ tags → c.getTagLookahead t = none →
        ∃ r, c'.tagIdToRegIds.find? t = some r ∧ R l r :=
      fun t l hmem => htags t l (List.mem_cons_of_mem _ hmem)
    rw [matchRegisters]
    split
    · exact ih hcons hsub hrest
    · rename_i hlook
      have hnone : c.getTagLookahead t₀ = none := by simpa using hlook
      obtain ⟨r₀, hr₀, hR₀⟩ := htags t₀ l₀ (by simp) hnone
      obtain ⟨mid, hmid⟩ := RegMaps.exists_match hR hcons hsub hR₀
      obtain ⟨hcons₁, hrel⟩ := RegMaps.match_spec hcons hmid
      rw [hr₀]
      simp only [hmid]
      refine ih hcons₁ ?_ hrest
      intro x y hxy
      rcases (hrel x y).1 hxy with hxy | ⟨rfl, rfl⟩
      · exact hsub x y hxy
      · exact hR₀

theorem matchConfigurations_sound {rhs : ConfigurationSet}
    {lhs : List DeterminizationConfiguration} {maps maps' : RegMaps}
    (hcons : maps.Consistent) (h : matchConfigurations rhs lhs maps = some maps') :
    maps'.Consistent ∧ (∀ x y, maps.Rel x y → maps'.Rel x y) ∧ Renames maps'.Rel lhs rhs := by
  induction lhs generalizing maps with
  | nil =>
    cases h
    exact ⟨hcons, fun _ _ hxy => hxy, by simp [Renames]⟩
  | cons c lhs ih =>
    rw [matchConfigurations] at h
    split at h
    · rename_i c' hc'
      split at h
      · rename_i mid hmid
        obtain ⟨hcons₁, hsub₁, hregs⟩ := matchRegisters_sound hcons hmid
        obtain ⟨hcons', hsub, hrest⟩ := ih hcons₁ h
        refine ⟨hcons', fun x y hxy => hsub x y (hsub₁ x y hxy), ?_⟩
        intro d hd
        rcases List.mem_cons.1 hd with rfl | hd
        · refine ⟨c', hc', ?_⟩
          intro t l hl hnone
          obtain ⟨r, hr, hlr⟩ := hregs t l (OrderedMap.mem_toList_iff.2 hl) hnone
          exact ⟨r, hr, hsub l r hlr⟩
        · exact hrest d hd
      · cases h
    · cases h

theorem exists_matchConfigurations {R : Nat → Nat → Prop} (hR : OneToOne R)
    {rhs : ConfigurationSet} {lhs : List DeterminizationConfiguration} {maps : RegMaps}
    (hcons : maps.Consistent) (hsub : ∀ x y, maps.Rel x y → R x y) (h : Renames R lhs rhs) :
    ∃ maps', matchConfigurations rhs lhs maps = some maps' := by
  induction lhs generalizing maps with
  | nil => exact ⟨maps, rfl⟩
  | cons c lhs ih =>
    obtain ⟨c', hc', hregs⟩ := h c (by simp)
    obtain ⟨mid, hmid, hcons', hsub'⟩ := exists_matchRegisters hR hcons hsub
      (fun t l (hmem : (t, l) ∈ c.tagIdToRegIds.toList) => hregs t l (OrderedMap.mem_toList_iff.1 hmem))
    obtain ⟨maps', hmaps'⟩ := ih hcons' hsub' fun d hd => h d (List.mem_cons_of_mem _ hd)
    refine ⟨maps', ?_⟩
    have hfirst : (rhs.toList.find? fun c' => Comparable c c') = some c' := hc'
    rw [matchConfigurations, hfirst]
    simp only [hmid]
    exact hmaps'

/-- A mapping is a one-to-one renaming of registers. -/
theorem tryGetMapping_sound {lhs rhs : ConfigurationSet} {regMap : List (Nat × Nat)}
    (h : tryGetMapping lhs rhs = some regMap) :
    lhs.size = rhs.size ∧ OneToOne (fun l r => regMap.lookup l = some r) ∧
      Renames (fun l r => regMap.lookup l = some r) lhs.toList rhs := by
  unfold tryGetMapping at h
  split at h
  · cases h
  · rename_i hsize
    obtain ⟨maps, hmaps, rfl⟩ := Option.map_eq_some_iff.1 h
    obtain ⟨hcons, -, hrenames⟩ := matchConfigurations_sound RegMaps.consistent_empty hmaps
    exact ⟨not_not.1 hsize, hcons.oneToOne, hrenames⟩

/-- A mapping is found if there is a one-to-one renaming of registers. -/
theorem tryGetMapping_complete {R : Nat → Nat → Prop} (hR : OneToOne R)
    {lhs rhs : ConfigurationSet} (hsize : lhs.size = rhs.size)
    (h : Renames R lhs.toList rhs) : ∃ regMap, tryGetMapping lhs rhs = some regMap := by
  obtain ⟨maps, hmaps⟩ := exists_matchConfigurations hR RegMaps.consistent_empty
    (by intro x y hxy; cases hxy) h
  exact ⟨maps.lhsToRhs, by rw [tryGetMapping, if_neg (not_not.2 hsize), hmaps]; rfl⟩

end LogSurgeon.Dfa
