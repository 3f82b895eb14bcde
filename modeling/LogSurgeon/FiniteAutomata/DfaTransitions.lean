import LogSurgeon.FiniteAutomata.Closure
import LogSurgeon.FiniteAutomata.Dfa

/-!
# What exploring a set of configurations does

`getTransitions_spec` describes the sets that `getTransitions` computes for the
bytes: a configuration of the explored set makes a byte step, its closure
is taken, and the tags with operations in the history get the registers of one
map for the whole exploration.  The registers of this map are new, and no two
tags share one.
-/

namespace LogSurgeon

open Lib

/-- A byte transition of the NFA. -/
def Nfa.ByteStep (nfa : Nfa) (p byte q : Nat) : Prop :=
  byte < cSizeOfByte ∧ ∃ s, nfa.state? p = some s ∧ q ∈ s.getByteTransitions byte

namespace Dfa

/-! ## New registers -/

/-- `m'` has the entries of `m`. -/
def Extends (m m' : TagIdWithOpToRegId) : Prop :=
  ∀ t r, m.find? t = some r → m'.find? t = some r

theorem Extends.refl (m : TagIdWithOpToRegId) : Extends m m := fun _ _ h => h

theorem Extends.trans {m m' m'' : TagIdWithOpToRegId} (h : Extends m m')
    (h' : Extends m' m'') : Extends m m'' := fun t r hr => h' t r (h t r hr)

/-- The registers of the map lie between `low` and `high`, and no two tags
share one. -/
structure Fresh (low high : Nat) (m : TagIdWithOpToRegId) : Prop where
  le : low ≤ high
  low_le : ∀ t r, m.find? t = some r → low ≤ r
  lt_high : ∀ t r, m.find? t = some r → r < high
  injective : ∀ t t' r, m.find? t = some r → m.find? t' = some r → t = t'

theorem Fresh.empty (low : Nat) : Fresh low low OrderedMap.empty where
  le := Nat.le_refl low
  low_le := by simp
  lt_high := by simp
  injective := by simp

/-- A map with a new register. -/
theorem Fresh.insertOrAssign {low high : Nat} {m : TagIdWithOpToRegId} (h : Fresh low high m)
    {t : Nat} (hnone : m.find? t = none) :
    Fresh low (high + 1) (m.insertOrAssign t high) ∧
      Extends m (m.insertOrAssign t high) := by
  have hfind : ∀ t' r, (m.insertOrAssign t high).find? t' = some r →
      t' = t ∧ r = high ∨ m.find? t' = some r := by
    intro t' r hr
    rw [OrderedMap.find?_insertOrAssign] at hr
    split at hr
    · rename_i heq
      exact Or.inl ⟨heq, (Option.some.inj hr).symm⟩
    · exact Or.inr hr
  refine ⟨⟨by have := h.le; omega, ?_, ?_, ?_⟩, ?_⟩
  · intro t' r hr
    rcases hfind t' r hr with ⟨_, rfl⟩ | hr
    · exact h.le
    · exact h.low_le t' r hr
  · intro t' r hr
    rcases hfind t' r hr with ⟨_, rfl⟩ | hr
    · exact Nat.lt_succ_self _
    · exact Nat.lt_succ_of_lt (h.lt_high t' r hr)
  · intro t₁ t₂ r h₁ h₂
    rcases hfind t₁ r h₁ with ⟨ht₁, hr₁⟩ | hold₁ <;>
      rcases hfind t₂ r h₂ with ⟨ht₂, hr₂⟩ | hold₂
    · rw [ht₁, ht₂]
    · have hlt := h.lt_high t₂ r hold₂
      omega
    · have hlt := h.lt_high t₁ r hold₁
      omega
    · exact h.injective t₁ t₂ r hold₁ hold₂
  · intro t' r hr
    rw [OrderedMap.find?_insertOrAssign]
    split
    · rename_i heq
      rw [heq, hnone] at hr
      cases hr
    · exact hr

/-- `c'` is `c` with the tags in `P` that have an operation in the history moved
to their registers in `m`. -/
structure Reassigned (P : Nat → Prop) (m : TagIdWithOpToRegId)
    (c c' : DeterminizationConfiguration) : Prop where
  nfaState : c'.nfaState = c.nfaState
  history : c'.history = c.history
  lookahead : c'.lookahead = c.lookahead
  moved : ∀ t, P t → c.getTagHistory t ≠ none →
    ∃ r, m.find? t = some r ∧ c'.tagIdToRegIds.find? t = some r
  kept : ∀ t, ¬ (P t ∧ c.getTagHistory t ≠ none) →
    c'.tagIdToRegIds.find? t = c.tagIdToRegIds.find? t

namespace Reassigned

variable {P : Nat → Prop} {m m' : TagIdWithOpToRegId}
variable {c c' c₁ c₂ : DeterminizationConfiguration}

theorem mono (h : Reassigned P m c c') (hext : Extends m m') : Reassigned P m' c c' where
  nfaState := h.nfaState
  history := h.history
  lookahead := h.lookahead
  moved t ht hop := by
    obtain ⟨r, hr, hc⟩ := h.moved t ht hop
    exact ⟨r, hext t r hr, hc⟩
  kept := h.kept

theorem getTagHistory (h : Reassigned P m c c') (t : Nat) :
    c'.getTagHistory t = c.getTagHistory t := by
  unfold DeterminizationConfiguration.getTagHistory
  rw [h.history]

theorem getTagLookahead (h : Reassigned P m c c') (t : Nat) :
    c'.getTagLookahead t = c.getTagLookahead t := by
  unfold DeterminizationConfiguration.getTagLookahead
  rw [h.lookahead]

/-- The registers determine the configuration. -/
theorem unique (h₁ : Reassigned P m c c₁) (h₂ : Reassigned P m c c₂) : c₁ = c₂ := by
  have hregs : c₁.tagIdToRegIds = c₂.tagIdToRegIds := by
    refine OrderedMap.ext fun t => ?_
    by_cases hop : P t ∧ c.getTagHistory t ≠ none
    · obtain ⟨r₁, hm₁, hr₁⟩ := h₁.moved t hop.1 hop.2
      obtain ⟨r₂, hm₂, hr₂⟩ := h₂.moved t hop.1 hop.2
      rw [hr₁, hr₂, ← hm₁, ← hm₂]
    · rw [h₁.kept t hop, h₂.kept t hop]
  have hstate := h₁.nfaState.trans h₂.nfaState.symm
  have hhistory := h₁.history.trans h₂.history.symm
  have hlookahead := h₁.lookahead.trans h₂.lookahead.symm
  cases c₁
  cases c₂
  simp_all

end Reassigned

namespace Assignment

/-- The state of an assignment that started with `low` registers. -/
def Good (low : Nat) (st : Assignment) : Prop :=
  Fresh low st.regHandler.getNumRegs st.tagIdWithOpToRegId

theorem getOrAddRegister_spec {low : Nat} {st : Assignment} (h : st.Good low) (t : Nat) :
    (st.getOrAddRegister t).1.Good low ∧
      Extends st.tagIdWithOpToRegId (st.getOrAddRegister t).1.tagIdWithOpToRegId ∧
      (st.getOrAddRegister t).1.tagIdWithOpToRegId.find? t =
        some (st.getOrAddRegister t).2 := by
  unfold getOrAddRegister
  split
  · rename_i r hr
    exact ⟨h, Extends.refl _, hr⟩
  · rename_i hnone
    obtain ⟨hfresh, hext⟩ := Fresh.insertOrAssign h hnone
    refine ⟨?_, hext, ?_⟩
    · show Fresh low st.regHandler.addRegister.1.getNumRegs _
      rw [RegisterHandler.getNumRegs_addRegister]
      exact hfresh
    · show (st.tagIdWithOpToRegId.insertOrAssign t _).find? t = _
      rw [OrderedMap.find?_insertOrAssign, if_pos rfl]

@[simp] theorem regHandler_addRegOp (st : Assignment) (r : Nat) (type : TagOperationType) :
    (st.addRegOp r type).regHandler = st.regHandler := by
  unfold addRegOp
  split
  · rfl
  · cases type <;> rfl

@[simp] theorem tagIdWithOpToRegId_addRegOp (st : Assignment) (r : Nat)
    (type : TagOperationType) :
    (st.addRegOp r type).tagIdWithOpToRegId = st.tagIdWithOpToRegId := by
  unfold addRegOp
  split
  · rfl
  · cases type <;> rfl

/-- One tag: the configuration moves to the register of the tag if its history
has an operation on it. -/
theorem assignTag_spec {low : Nat} {st : Assignment} (h : st.Good low)
    (config : DeterminizationConfiguration) (tag : Nat) :
    (assignTag (st, config) tag).1.Good low ∧
      Extends st.tagIdWithOpToRegId (assignTag (st, config) tag).1.tagIdWithOpToRegId ∧
      Reassigned (· = tag) (assignTag (st, config) tag).1.tagIdWithOpToRegId config
        (assignTag (st, config) tag).2 := by
  unfold assignTag
  cases hop : config.getTagHistory tag with
  | none =>
    refine ⟨h, Extends.refl _, rfl, rfl, rfl, ?_, fun _ _ => rfl⟩
    rintro t rfl hne
    exact absurd hop hne
  | some op =>
    obtain ⟨hgood, hext, hreg⟩ := getOrAddRegister_spec h tag
    generalize st.getOrAddRegister tag = added at hgood hext hreg ⊢
    refine ⟨?_, ?_, rfl, rfl, rfl, ?_, ?_⟩
    · unfold Good
      rw [regHandler_addRegOp, tagIdWithOpToRegId_addRegOp]
      exact hgood
    · rw [tagIdWithOpToRegId_addRegOp]
      exact hext
    · rintro t rfl _
      refine ⟨added.2, ?_, ?_⟩
      · rw [tagIdWithOpToRegId_addRegOp]
        exact hreg
      · show (config.tagIdToRegIds.insertOrAssign t added.2).find? t = _
        rw [OrderedMap.find?_insertOrAssign, if_pos rfl]
    · intro t ht
      have hne : t ≠ tag := by
        rintro rfl
        exact ht ⟨rfl, by simp [hop]⟩
      show (config.tagIdToRegIds.insertOrAssign tag added.2).find? t = _
      rw [OrderedMap.find?_insertOrAssign, if_neg hne]

/-- The tags of a list, one after the other. -/
theorem foldl_assignTag_spec {low : Nat} {st : Assignment} (h : st.Good low)
    (config : DeterminizationConfiguration) (tags : List Nat) :
    (tags.foldl assignTag (st, config)).1.Good low ∧
      Extends st.tagIdWithOpToRegId
        (tags.foldl assignTag (st, config)).1.tagIdWithOpToRegId ∧
      Reassigned (· ∈ tags) (tags.foldl assignTag (st, config)).1.tagIdWithOpToRegId config
        (tags.foldl assignTag (st, config)).2 := by
  induction tags generalizing st config with
  | nil => exact ⟨h, Extends.refl _, rfl, rfl, rfl, by simp, fun _ _ => rfl⟩
  | cons tag tags ih =>
    obtain ⟨hgood, hext, hfirst⟩ := assignTag_spec h config tag
    rw [List.foldl_cons]
    generalize assignTag (st, config) tag = mid at hgood hext hfirst ⊢
    obtain ⟨hgood', hext', hrest⟩ := ih hgood mid.2
    refine ⟨hgood', hext.trans hext', hrest.nfaState.trans hfirst.nfaState,
      hrest.history.trans hfirst.history, hrest.lookahead.trans hfirst.lookahead, ?_, ?_⟩
    · intro t ht hop
      by_cases hmem : t ∈ tags
      · exact hrest.moved t hmem (by rw [hfirst.getTagHistory]; exact hop)
      · obtain ⟨r, hr, hc⟩ := hfirst.moved t ((List.mem_cons.1 ht).resolve_right hmem) hop
        exact ⟨r, hext' t r hr, (hrest.kept t fun hboth => hmem hboth.1).trans hc⟩
    · intro t ht
      rw [hrest.kept t, hfirst.kept t]
      · exact fun hboth => ht ⟨List.mem_cons.2 (Or.inl hboth.1), hboth.2⟩
      · intro hboth
        rw [hfirst.getTagHistory] at hboth
        exact ht ⟨List.mem_cons_of_mem _ hboth.1, hboth.2⟩

theorem assignTags_spec {low : Nat} {st : Assignment} (h : st.Good low) (numTags : Nat)
    (config : DeterminizationConfiguration) :
    (assignTags numTags st config).1.Good low ∧
      Extends st.tagIdWithOpToRegId (assignTags numTags st config).1.tagIdWithOpToRegId ∧
      Reassigned (· < numTags) (assignTags numTags st config).1.tagIdWithOpToRegId config
        (assignTags numTags st config).2 := by
  have hspec := foldl_assignTag_spec h config (List.range numTags)
  simp only [List.mem_range] at hspec
  exact hspec

/-- The configurations of a closure, one after the other. -/
theorem assignConfigurations_spec {low : Nat} {st : Assignment} (h : st.Good low)
    (numTags : Nat) (closure : List DeterminizationConfiguration)
    (newClosure : ConfigurationSet) :
    (assignConfigurations numTags st closure newClosure).1.Good low ∧
      Extends st.tagIdWithOpToRegId
        (assignConfigurations numTags st closure newClosure).1.tagIdWithOpToRegId ∧
      (∀ c ∈ closure, ∃ x, Reassigned (· < numTags)
        (assignConfigurations numTags st closure newClosure).1.tagIdWithOpToRegId c x) ∧
      ∀ x, x ∈ (assignConfigurations numTags st closure newClosure).2 ↔
        x ∈ newClosure ∨ ∃ c ∈ closure, Reassigned (· < numTags)
          (assignConfigurations numTags st closure newClosure).1.tagIdWithOpToRegId c x := by
  induction closure generalizing st newClosure with
  | nil => exact ⟨h, Extends.refl _, by simp, by simp [assignConfigurations]⟩
  | cons c closure ih =>
    obtain ⟨hgood, hext, hfirst⟩ := assignTags_spec h numTags c
    have hstep : assignConfigurations numTags st (c :: closure) newClosure =
        assignConfigurations numTags (assignTags numTags st c).1 closure
          (newClosure.insert (assignTags numTags st c).2) := rfl
    rw [hstep]
    generalize assignTags numTags st c = mid at hgood hext hfirst ⊢
    obtain ⟨hgood', hext', hexists, hmem⟩ := ih hgood (newClosure.insert mid.2)
    refine ⟨hgood', hext.trans hext', ?_, fun x => ?_⟩
    · intro c' hc'
      rcases List.mem_cons.1 hc' with rfl | hc'
      · exact ⟨mid.2, hfirst.mono hext'⟩
      · exact hexists c' hc'
    rw [hmem, OrderedSet.mem_insert]
    constructor
    · rintro ((rfl | hx) | ⟨c', hc', hx⟩)
      · exact Or.inr ⟨c, by simp, hfirst.mono hext'⟩
      · exact Or.inl hx
      · exact Or.inr ⟨c', List.mem_cons_of_mem _ hc', hx⟩
    · rintro (hx | ⟨c', hc', hx⟩)
      · exact Or.inl (Or.inr hx)
      · rcases List.mem_cons.1 hc' with rfl | hc'
        · exact Or.inl (Or.inl (hx.unique (hfirst.mono hext')))
        · exact Or.inr ⟨c', hc', hx⟩

theorem assignTransitionRegOps_spec {low : Nat} {st : Assignment} (h : st.Good low)
    (numTags : Nat) (closure : ConfigurationSet) :
    (st.assignTransitionRegOps numTags closure).1.Good low ∧
      Extends st.tagIdWithOpToRegId
        (st.assignTransitionRegOps numTags closure).1.tagIdWithOpToRegId ∧
      (∀ c ∈ closure, ∃ x, Reassigned (· < numTags)
        (st.assignTransitionRegOps numTags closure).1.tagIdWithOpToRegId c x) ∧
      ∀ x, x ∈ (st.assignTransitionRegOps numTags closure).2 ↔
        ∃ c ∈ closure, Reassigned (· < numTags)
          (st.assignTransitionRegOps numTags closure).1.tagIdWithOpToRegId c x := by
  have hgood : ({ st with regOps := [] } : Assignment).Good low := h
  obtain ⟨hgood', hext, hexists, hmem⟩ :=
    assignConfigurations_spec hgood numTags closure.toList OrderedSet.empty
  refine ⟨hgood', hext, hexists, fun x => ?_⟩
  rw [assignTransitionRegOps, hmem, or_iff_right (OrderedSet.not_mem_empty x)]
  rfl

end Assignment

/-! ## The transitions of a set -/

/-- The configurations that the map holds for the byte. -/
def AsciiTransitionsMap.Dest (map : AsciiTransitionsMap) (byte : Nat)
    (x : DeterminizationConfiguration) : Prop :=
  ∃ ops D, map.find? byte = some (ops, D) ∧ x ∈ D

theorem addAsciiTransition_spec (map : AsciiTransitionsMap) (byte : Nat)
    (ops : List RegisterOperation) (closure : ConfigurationSet) (byte' : Nat) :
    (((addAsciiTransition map byte ops closure).find? byte').isSome ↔
        (map.find? byte').isSome ∨ byte' = byte) ∧
      ∀ x, (addAsciiTransition map byte ops closure).Dest byte' x ↔
        map.Dest byte' x ∨ byte' = byte ∧ x ∈ closure := by
  unfold AsciiTransitionsMap.Dest addAsciiTransition
  split
  · rename_i ops' D hfind
    simp only [OrderedMap.find?_insertOrAssign]
    by_cases hbyte : byte' = byte
    · subst hbyte
      simp [hfind]
      exact fun x => or_comm
    · simp [hbyte]
  · rename_i hfind
    simp only [OrderedMap.find?_insertOrAssign]
    by_cases hbyte : byte' = byte
    · subst hbyte
      simp [hfind]
    · simp [hbyte]

/-- `x` is a configuration behind the byte transition to `next`. -/
def Behind (nfa : Nfa) (m : TagIdWithOpToRegId) (c : DeterminizationConfiguration)
    (next : Nat) (x : DeterminizationConfiguration) : Prop :=
  ∃ y, DeterminizationConfiguration.LeadsTo nfa (nextConfiguration c next) y ∧
    Reassigned (· < nfa.numTags) m y x

theorem mem_transitionSteps {nfa : Nfa} {configSet : ConfigurationSet}
    {c : DeterminizationConfiguration} {byte next : Nat} :
    (c, byte, next) ∈ transitionSteps nfa configSet ↔
      c ∈ configSet ∧ nfa.ByteStep c.nfaState byte next := by
  unfold transitionSteps Nfa.ByteStep
  rw [List.mem_flatMap]
  constructor
  · rintro ⟨c', hc', hstep⟩
    split at hstep
    · rename_i s hs
      obtain ⟨byte', hbyte', hstep⟩ := List.mem_flatMap.1 hstep
      obtain ⟨next', hnext', heq⟩ := List.mem_map.1 hstep
      cases heq
      exact ⟨hc', List.mem_range.1 hbyte', s, hs, hnext'⟩
    · cases hstep
  · rintro ⟨hc, hbyte, s, hs, hnext⟩
    refine ⟨c, hc, ?_⟩
    rw [hs]
    exact List.mem_flatMap.2
      ⟨byte, List.mem_range.2 hbyte, List.mem_map.2 ⟨next, hnext, rfl⟩⟩

/-- The loops of `get_transitions`, from any point on. -/
theorem foldlM_transitionStep_spec {nfa : Nfa} {fuel low : Nat}
    {steps : List (DeterminizationConfiguration × Nat × Nat)}
    {st st' : Assignment × AsciiTransitionsMap} (hgood : st.1.Good low)
    (h : steps.foldlM (transitionStep nfa fuel nfa.numTags) st = some st') :
    st'.1.Good low ∧ Extends st.1.tagIdWithOpToRegId st'.1.tagIdWithOpToRegId ∧
      (∀ step ∈ steps, ∀ y,
        DeterminizationConfiguration.LeadsTo nfa (nextConfiguration step.1 step.2.2) y →
        ∃ x, Reassigned (· < nfa.numTags) st'.1.tagIdWithOpToRegId y x) ∧
      ∀ byte, ((st'.2.find? byte).isSome ↔
          (st.2.find? byte).isSome ∨ ∃ c next, (c, byte, next) ∈ steps) ∧
        ∀ x, st'.2.Dest byte x ↔ st.2.Dest byte x ∨
          ∃ c next, (c, byte, next) ∈ steps ∧
            Behind nfa st'.1.tagIdWithOpToRegId c next x := by
  induction steps generalizing st with
  | nil =>
    cases h
    exact ⟨hgood, Extends.refl _, by simp, by simp⟩
  | cons step steps ih =>
    obtain ⟨c, byte₀, next⟩ := step
    rw [List.foldlM_cons] at h
    obtain ⟨mid, hmid, hrest⟩ := Option.bind_eq_some_iff.1 h
    obtain ⟨closure, hclosure, hmid⟩ := Option.bind_eq_some_iff.1 hmid
    obtain ⟨hgood₁, hext₁, hexists₁, hmem₁⟩ :=
      Assignment.assignTransitionRegOps_spec hgood nfa.numTags closure
    generalize st.1.assignTransitionRegOps nfa.numTags closure = assigned
      at hmid hgood₁ hext₁ hexists₁ hmem₁
    have hmid : mid = (assigned.1,
        addAsciiTransition st.2 byte₀ assigned.1.regOps assigned.2) :=
      (Option.some.inj hmid).symm
    subst hmid
    obtain ⟨hgood', hext', hexists', hbytes⟩ := ih hgood₁ hrest
    refine ⟨hgood', hext₁.trans hext', ?_, fun byte => ?_⟩
    · intro step hstep y hy
      rcases List.mem_cons.1 hstep with rfl | hstep
      · obtain ⟨x, hx⟩ := hexists₁ y
          ((DeterminizationConfiguration.mem_spontaneousClosure hclosure y).2 hy)
        exact ⟨x, hx.mono hext'⟩
      · exact hexists' step hstep y hy
    obtain ⟨hsome, hdest⟩ := hbytes byte
    obtain ⟨hsome₁, hdest₁⟩ :=
      addAsciiTransition_spec st.2 byte₀ assigned.1.regOps assigned.2 byte
    -- the configurations of the first step, with the registers at the end
    have hfirst : ∀ x, x ∈ assigned.2 ↔ Behind nfa st'.1.tagIdWithOpToRegId c next x := by
      intro x
      rw [hmem₁]
      constructor
      · rintro ⟨y, hy, hyx⟩
        exact ⟨y, (DeterminizationConfiguration.mem_spontaneousClosure hclosure y).1 hy,
          hyx.mono hext'⟩
      · rintro ⟨y, hy, hyx⟩
        have hy := (DeterminizationConfiguration.mem_spontaneousClosure hclosure y).2 hy
        obtain ⟨x', hx'⟩ := hexists₁ y hy
        rw [hyx.unique (hx'.mono hext')]
        exact ⟨y, hy, hx'⟩
    simp only [List.mem_cons, Prod.mk.injEq]
    refine ⟨?_, fun x => ?_⟩
    · rw [hsome, hsome₁, or_assoc]
      refine or_congr_right ⟨?_, ?_⟩
      · rintro (rfl | ⟨c', next', hmem⟩)
        · exact ⟨c, next, Or.inl ⟨rfl, rfl, rfl⟩⟩
        · exact ⟨c', next', Or.inr hmem⟩
      · rintro ⟨c', next', ⟨_, rfl, _⟩ | hmem⟩
        · exact Or.inl rfl
        · exact Or.inr ⟨c', next', hmem⟩
    · rw [hdest, hdest₁, or_assoc]
      refine or_congr_right ⟨?_, ?_⟩
      · rintro (⟨rfl, hx⟩ | ⟨c', next', hmem, hx⟩)
        · exact ⟨c, next, Or.inl ⟨rfl, rfl, rfl⟩, (hfirst x).1 hx⟩
        · exact ⟨c', next', Or.inr hmem, hx⟩
      · rintro ⟨c', next', ⟨rfl, rfl, rfl⟩ | hmem, hx⟩
        · exact Or.inl ⟨rfl, (hfirst x).2 hx⟩
        · exact Or.inr ⟨c', next', hmem, hx⟩

/-- The sets behind the bytes, and the registers that the exploration adds. -/
theorem getTransitions_spec {nfa : Nfa} {fuel : Nat} {regHandler regHandler' : RegisterHandler}
    {configSet : ConfigurationSet} {transitions : AsciiTransitionsMap}
    (h : getTransitions nfa fuel nfa.numTags regHandler configSet =
      some (regHandler', transitions)) :
    ∃ m, Fresh regHandler.getNumRegs regHandler'.getNumRegs m ∧
      (∀ c ∈ configSet, ∀ byte next, nfa.ByteStep c.nfaState byte next → ∀ y,
        DeterminizationConfiguration.LeadsTo nfa (nextConfiguration c next) y →
        ∃ x, Reassigned (· < nfa.numTags) m y x) ∧
      ∀ byte, ((transitions.find? byte).isSome ↔
        ∃ c ∈ configSet, ∃ next, nfa.ByteStep c.nfaState byte next) ∧
      ∀ ops D, transitions.find? byte = some (ops, D) → ∀ x, x ∈ D ↔
        ∃ c ∈ configSet, ∃ next, nfa.ByteStep c.nfaState byte next ∧
          Behind nfa m c next x := by
  obtain ⟨st, hst, hresult⟩ := Option.bind_eq_some_iff.1 h
  cases hresult
  have hstart : ({ regHandler := regHandler, tagIdWithOpToRegId := OrderedMap.empty } :
      Assignment).Good regHandler.getNumRegs := Fresh.empty _
  obtain ⟨hgood, -, hexists, hbytes⟩ := foldlM_transitionStep_spec hstart hst
  refine ⟨st.1.tagIdWithOpToRegId, hgood, ?_, fun byte => ?_⟩
  · intro c hc byte next hstep y hy
    exact hexists (c, byte, next) (mem_transitionSteps.2 ⟨hc, hstep⟩) y hy
  obtain ⟨hsome, hdest⟩ := hbytes byte
  simp only [mem_transitionSteps] at hsome hdest
  refine ⟨?_, fun ops D hfind x => ?_⟩
  · rw [hsome]
    constructor
    · rintro (hfalse | ⟨c, next, hc, hstep⟩)
      · cases hfalse
      · exact ⟨c, hc, next, hstep⟩
    · rintro ⟨c, hc, next, hstep⟩
      exact Or.inr ⟨c, next, hc, hstep⟩
  · have hmem : x ∈ D ↔ st.2.Dest byte x := by
      constructor
      · intro hx
        exact ⟨ops, D, hfind, hx⟩
      · rintro ⟨ops', D', hfind', hx⟩
        rw [hfind] at hfind'
        cases hfind'
        exact hx
    rw [hmem, hdest]
    constructor
    · rintro (⟨_, _, hfalse, _⟩ | ⟨c, next, ⟨hc, hstep⟩, hx⟩)
      · cases hfalse
      · exact ⟨c, hc, next, hstep, hx⟩
    · rintro ⟨c, hc, next, hstep, hx⟩
      exact Or.inr ⟨c, next, ⟨hc, hstep⟩, hx⟩

/-- With enough steps for the closures, exploring a set ends. -/
theorem exists_getTransitions {nfa : Nfa} {fuel : Nat}
    (hclosure : ∀ config : DeterminizationConfiguration,
      ∃ closure, config.spontaneousClosure nfa fuel = some closure)
    (regHandler : RegisterHandler) (configSet : ConfigurationSet) :
    ∃ result, getTransitions nfa fuel nfa.numTags regHandler configSet = some result := by
  have hfold : ∀ (steps : List (DeterminizationConfiguration × Nat × Nat))
      (st : Assignment × AsciiTransitionsMap),
      ∃ st', steps.foldlM (transitionStep nfa fuel nfa.numTags) st = some st' := by
    intro steps
    induction steps with
    | nil => exact fun st => ⟨st, rfl⟩
    | cons step steps ih =>
      intro st
      obtain ⟨closure, hcl⟩ := hclosure (nextConfiguration step.1 step.2.2)
      obtain ⟨st', hst'⟩ := ih ((st.1.assignTransitionRegOps nfa.numTags closure).1,
        addAsciiTransition st.2 step.2.1
          (st.1.assignTransitionRegOps nfa.numTags closure).1.regOps
          (st.1.assignTransitionRegOps nfa.numTags closure).2)
      refine ⟨st', ?_⟩
      rw [List.foldlM_cons, transitionStep, hcl]
      exact hst'
  obtain ⟨st, hst⟩ := hfold (transitionSteps nfa configSet)
    ({ regHandler := regHandler, tagIdWithOpToRegId := OrderedMap.empty }, OrderedMap.empty)
  exact ⟨_, by rw [getTransitions, hst]; rfl⟩

end Dfa

end LogSurgeon
