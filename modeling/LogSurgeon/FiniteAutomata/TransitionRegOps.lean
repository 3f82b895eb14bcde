import LogSurgeon.FiniteAutomata.DfaTransitions
import LogSurgeon.FiniteAutomata.TrackedSets

/-!
# The operations of a transition

`getTransitions` collects the operations of a byte from the configurations that
step on it.  A configuration with pending operations adds, for every tag, the
first of them on the register of the tag (`historyRegOps`), and an operation
that the byte already has is not added again.  `getTransitions_regOps` says that
the list is what is left of all of these without the repetitions.
-/

namespace LogSurgeon

open Lib

/-! ## Lists without repetitions -/

namespace Lib

variable {α β : Type*} [DecidableEq α] [DecidableEq β]

theorem filter_eraseDups (p : α → Bool) (l : List α) :
    l.eraseDups.filter p = (l.filter p).eraseDups := by
  induction h : l.length using Nat.strong_induction_on generalizing l with
  | _ n ih =>
    cases l with
    | nil => rfl
    | cons a l =>
      have hlength : (l.filter fun b => !b == a).length < n := by
        have hle := List.length_filter_le (fun b => !b == a) l
        rw [List.length_cons] at h
        omega
      have hrest := ih _ hlength _ rfl
      rw [List.filter_filter] at hrest
      rw [List.eraseDups_cons, List.filter_cons, List.filter_cons, hrest]
      split
      · rw [List.eraseDups_cons, List.filter_filter]
        simp only [Bool.and_comm]
      · rename_i hp
        have hsame : (l.filter fun b => p b && !b == a) = l.filter p := by
          apply List.filter_congr
          intro b _
          by_cases hba : b = a
          · subst hba
            simp [hp]
          · simp [hba]
        rw [hsame]

theorem map_eraseDups {f : α → β} (hf : Function.Injective f) (l : List α) :
    (l.map f).eraseDups = l.eraseDups.map f := by
  induction h : l.length using Nat.strong_induction_on generalizing l with
  | _ n ih =>
    cases l with
    | nil => rfl
    | cons a l =>
      have hlength : (l.filter fun b => !b == a).length < n := by
        have hle := List.length_filter_le (fun b => !b == a) l
        rw [List.length_cons] at h
        omega
      have hsame : ((l.map f).filter fun b => !b == f a) =
          (l.filter fun b => !b == a).map f := by
        rw [List.filter_map]
        congr 1
        apply List.filter_congr
        intro b _
        simp [hf.eq_iff]
      rw [List.map_cons, List.eraseDups_cons, List.eraseDups_cons, hsame, ih _ hlength _ rfl,
        List.map_cons]

theorem eraseDups_of_nodup {l : List α} (h : l.Nodup) : l.eraseDups = l := by
  induction l with
  | nil => rfl
  | cons a l ih =>
    obtain ⟨ha, hl⟩ := List.nodup_cons.1 h
    have hsame : (l.filter fun b => !b == a) = l := by
      apply List.filter_eq_self.2
      intro b hb
      have hne : b ≠ a := by
        rintro rfl
        exact ha hb
      simpa using hne
    rw [List.eraseDups_cons, hsame, ih hl]

theorem nodup_eraseDups (l : List α) : l.eraseDups.Nodup := by
  induction h : l.length using Nat.strong_induction_on generalizing l with
  | _ n ih =>
    cases l with
    | nil => exact List.nodup_nil
    | cons a l =>
      have hlength : (l.filter fun b => !b == a).length < n := by
        have hle := List.length_filter_le (fun b => !b == a) l
        rw [List.length_cons] at h
        omega
      rw [List.eraseDups_cons, List.nodup_cons]
      refine ⟨fun hmem => ?_, ih _ hlength _ rfl⟩
      have hmem := (List.mem_filter.1 (List.mem_eraseDups.1 hmem)).2
      simp at hmem

end Lib

namespace Dfa

/-! ## The operations of one history -/

/-- The register operation for a tag operation of the type. -/
def regOpOf (regId : Nat) : TagOperationType → RegisterOperation
  | .set => .createSetOperation regId
  | .negate => .createNegateOperation regId

@[simp] theorem regId_regOpOf (regId : Nat) (type : TagOperationType) :
    (regOpOf regId type).regId = regId := by
  cases type <;> rfl

theorem regOpOf_injective (regId : Nat) : Function.Injective (regOpOf regId) := by
  intro type type' h
  cases type <;> cases type' <;> first | rfl | cases h

/-- The operation for the first operation of the history on the tag. -/
def tagRegOp (m : TagIdWithOpToRegId) (history : List TagOperation) (t : Nat) :
    Option RegisterOperation := do
  let tagOp ← history.find? (·.tagId = t)
  let regId ← m.find? t
  some (regOpOf regId tagOp.type)

/-- The operations for the tags of the history, in the order of the tags. -/
def historyRegOps (m : TagIdWithOpToRegId) (numTags : Nat) (history : List TagOperation) :
    List RegisterOperation :=
  (List.range numTags).filterMap (tagRegOp m history)

theorem find?_eq_none_iff_not_onTag {history : List TagOperation} {t : Nat} :
    history.find? (·.tagId = t) = none ↔ ¬ Nfa.OnTag history t := by
  simp [Nfa.OnTag]

theorem tagRegOp_eq_some_iff {m : TagIdWithOpToRegId} {history : List TagOperation} {t : Nat}
    {op : RegisterOperation} :
    tagRegOp m history t = some op ↔ ∃ tagOp regId, history.find? (·.tagId = t) = some tagOp ∧
      m.find? t = some regId ∧ regOpOf regId tagOp.type = op := by
  unfold tagRegOp
  simp only [Option.bind_eq_bind, Option.bind_eq_some_iff, Option.some.injEq]
  constructor
  · rintro ⟨tagOp, htagOp, regId, hregId, hop⟩
    exact ⟨tagOp, regId, htagOp, hregId, hop⟩
  · rintro ⟨tagOp, regId, htagOp, hregId, hop⟩
    exact ⟨tagOp, htagOp, regId, hregId, hop⟩

/-- The map has a register for every tag of the list with an operation. -/
def Covers (m : TagIdWithOpToRegId) (history : List TagOperation) (tags : List Nat) : Prop :=
  ∀ t ∈ tags, Nfa.OnTag history t → ∃ r, m.find? t = some r

theorem Covers.mono {m m' : TagIdWithOpToRegId} {history : List TagOperation} {tags : List Nat}
    (h : Covers m history tags) (hext : Extends m m') : Covers m' history tags := by
  intro t ht hon
  obtain ⟨r, hr⟩ := h t ht hon
  exact ⟨r, hext t r hr⟩

/-- Registers that are added later do not change the operations. -/
theorem Covers.filterMap_eq {m m' : TagIdWithOpToRegId} {history : List TagOperation}
    {tags : List Nat} (h : Covers m history tags) (hext : Extends m m') :
    tags.filterMap (tagRegOp m' history) = tags.filterMap (tagRegOp m history) := by
  apply List.filterMap_congr
  intro t ht
  unfold tagRegOp
  cases hop : history.find? (·.tagId = t) with
  | none => rfl
  | some tagOp =>
    have hon : Nfa.OnTag history t := by
      by_contra hnot
      rw [find?_eq_none_iff_not_onTag.2 hnot] at hop
      cases hop
    obtain ⟨r, hr⟩ := h t ht hon
    rw [hr, hext t r hr]

/-! ## One closure -/

namespace Assignment

/-- The operations collected so far are those of the history for the tags. -/
structure Collects (low : Nat) (history : List TagOperation) (tags : List Nat)
    (st : Assignment) : Prop where
  good : st.Good low
  covers : Covers st.tagIdWithOpToRegId history tags
  regOps : st.regOps = tags.filterMap (tagRegOp st.tagIdWithOpToRegId history)

variable {low : Nat} {history : List TagOperation} {tags : List Nat} {st : Assignment}

/-- A tag has an operation exactly when its register has. -/
theorem Collects.any_regOps (h : st.Collects low history tags) {t r : Nat}
    (hon : Nfa.OnTag history t) (hr : st.tagIdWithOpToRegId.find? t = some r) :
    st.regOps.any (·.regId = r) = true ↔ t ∈ tags := by
  rw [h.regOps, List.any_eq_true]
  constructor
  · rintro ⟨op, hop, hreg⟩
    obtain ⟨t', ht', hop⟩ := List.mem_filterMap.1 hop
    obtain ⟨tagOp, r', -, hr', rfl⟩ := tagRegOp_eq_some_iff.1 hop
    have hreg : r' = r := by simpa using hreg
    have hsame : t' = t := h.good.injective t' t r (hreg ▸ hr') hr
    exact hsame ▸ ht'
  · intro ht
    cases hop : history.find? (·.tagId = t) with
    | none => exact absurd hon (find?_eq_none_iff_not_onTag.1 hop)
    | some tagOp =>
      refine ⟨regOpOf r tagOp.type, List.mem_filterMap.2 ⟨t, ht, ?_⟩, by simp⟩
      exact tagRegOp_eq_some_iff.2 ⟨tagOp, r, hop, hr, rfl⟩

theorem regOps_addRegOp (st : Assignment) (r : Nat) (type : TagOperationType) :
    (st.addRegOp r type).regOps =
      if st.regOps.any (·.regId = r) then st.regOps else st.regOps ++ [regOpOf r type] := by
  unfold addRegOp
  split
  · rfl
  · cases type <;> rfl

theorem regOps_getOrAddRegister (st : Assignment) (t : Nat) :
    (st.getOrAddRegister t).1.regOps = st.regOps := by
  unfold getOrAddRegister
  split <;> rfl

/-- One tag is added to the list. -/
theorem Collects.assignTag (h : st.Collects low history tags)
    {config : DeterminizationConfiguration} (hhistory : config.history = history) (t : Nat) :
    (assignTag (st, config) t).1.Collects low history (if t ∈ tags then tags else tags ++ [t]) ∧
      (assignTag (st, config) t).2.history = history := by
  obtain ⟨hgood, hext, hreassigned⟩ := assignTag_spec h.good config t
  refine ⟨?_, hreassigned.history.trans hhistory⟩
  cases hop : config.getTagHistory t with
  | none =>
    have hsame : Assignment.assignTag (st, config) t = (st, config) := by
      unfold Assignment.assignTag
      rw [hop]
    rw [hsame]
    have hop : history.find? (·.tagId = t) = none := hhistory ▸ hop
    split
    · exact h
    · refine ⟨h.good, ?_, ?_⟩
      · intro t' ht' hon
        rcases List.mem_append.1 ht' with ht' | ht'
        · exact h.covers t' ht' hon
        · rw [List.mem_singleton.1 ht'] at hon
          exact absurd hon (find?_eq_none_iff_not_onTag.1 hop)
      · show st.regOps = _
        rw [h.regOps, List.filterMap_append]
        simp [tagRegOp, hop]
  | some tagOp =>
    have hop' : history.find? (·.tagId = t) = some tagOp := hhistory ▸ hop
    have hon : Nfa.OnTag history t := by
      by_contra hnot
      rw [find?_eq_none_iff_not_onTag.2 hnot] at hop'
      cases hop'
    obtain ⟨hgood', hext', hreg⟩ := getOrAddRegister_spec h.good t
    have hregOps := regOps_getOrAddRegister st t
    -- the tag has its register, and the operations are those of before
    have hmid : (st.getOrAddRegister t).1.Collects low history tags := by
      refine ⟨hgood', h.covers.mono hext', ?_⟩
      rw [hregOps, h.regOps, h.covers.filterMap_eq hext']
    have hstep : (Assignment.assignTag (st, config) t).1 =
        (st.getOrAddRegister t).1.addRegOp (st.getOrAddRegister t).2 tagOp.type := by
      unfold Assignment.assignTag
      rw [hop]
    rw [hstep] at hgood ⊢
    generalize st.getOrAddRegister t = added at hmid hreg hgood ⊢
    have hany := hmid.any_regOps hon hreg
    refine ⟨hgood, ?_, ?_⟩
    · rw [tagIdWithOpToRegId_addRegOp]
      intro t' ht' hon'
      split at ht'
      · exact hmid.covers t' ht' hon'
      · rcases List.mem_append.1 ht' with ht' | ht'
        · exact hmid.covers t' ht' hon'
        · rw [List.mem_singleton.1 ht']
          exact ⟨_, hreg⟩
    · rw [tagIdWithOpToRegId_addRegOp, regOps_addRegOp]
      by_cases ht : t ∈ tags
      · rw [if_pos (hany.2 ht), if_pos ht]
        exact hmid.regOps
      · rw [if_neg fun hreg => ht (hany.1 hreg), if_neg ht, List.filterMap_append, hmid.regOps]
        congr 1
        have hnew := tagRegOp_eq_some_iff.2 ⟨tagOp, _, hop', hreg, rfl⟩
        rw [List.filterMap_cons_some hnew]
        rfl

/-- The tags of a list are added one after the other. -/
theorem Collects.foldl_assignTag (h : st.Collects low history tags)
    {config : DeterminizationConfiguration} (hhistory : config.history = history)
    (newTags : List Nat) :
    (newTags.foldl Assignment.assignTag (st, config)).1.Collects low history
      (newTags.foldl (fun tags t => if t ∈ tags then tags else tags ++ [t]) tags) := by
  induction newTags generalizing st config tags with
  | nil => exact h
  | cons t newTags ih =>
    obtain ⟨hfirst, hhistory'⟩ := h.assignTag hhistory t
    rw [List.foldl_cons, List.foldl_cons]
    exact ih hfirst hhistory'

theorem foldl_addTag_of_subset {tags newTags : List Nat} (h : ∀ t ∈ newTags, t ∈ tags) :
    newTags.foldl (fun tags t => if t ∈ tags then tags else tags ++ [t]) tags = tags := by
  induction newTags with
  | nil => rfl
  | cons t newTags ih =>
    rw [List.foldl_cons, if_pos (h t List.mem_cons_self)]
    exact ih fun t' ht' => h t' (List.mem_cons_of_mem t ht')

theorem foldl_addTag_of_nodup {tags newTags : List Nat} (h : (tags ++ newTags).Nodup) :
    newTags.foldl (fun tags t => if t ∈ tags then tags else tags ++ [t]) tags =
      tags ++ newTags := by
  induction newTags generalizing tags with
  | nil => rw [List.foldl_nil, List.append_nil]
  | cons t newTags ih =>
    have hnotMem : t ∉ tags := fun ht =>
      (List.nodup_append.1 h).2.2 t ht t List.mem_cons_self rfl
    rw [List.append_cons] at h ⊢
    rw [List.foldl_cons, if_neg hnotMem, ih h]

/-- The first configuration of a closure collects the operations of the
history, and the others add nothing. -/
theorem collects_assignConfigurations {numTags : Nat}
    (closure : List DeterminizationConfiguration) (newClosure : ConfigurationSet)
    (hhistory : ∀ c ∈ closure, c.history = history)
    (h : st.Collects low history (List.range numTags)) :
    (assignConfigurations numTags st closure newClosure).1.Collects low history
      (List.range numTags) := by
  induction closure generalizing st newClosure with
  | nil => exact h
  | cons c closure ih =>
    have hfirst := h.foldl_assignTag (hhistory c List.mem_cons_self) (List.range numTags)
    rw [foldl_addTag_of_subset fun t ht => ht] at hfirst
    exact ih _ (fun c' hc' => hhistory c' (List.mem_cons_of_mem c hc')) hfirst

theorem collects_assignTransitionRegOps (h : st.Good low) {numTags : Nat}
    {closure : ConfigurationSet} (hne : closure.toList ≠ [])
    (hhistory : ∀ c ∈ closure, c.history = history) :
    (st.assignTransitionRegOps numTags closure).1.Collects low history
      (List.range numTags) := by
  have hstart : ({ st with regOps := [] } : Assignment).Collects low history [] :=
    ⟨h, fun _ ht => absurd ht List.not_mem_nil, rfl⟩
  unfold assignTransitionRegOps
  have hhistory : ∀ c ∈ closure.toList, c.history = history := hhistory
  cases hclosure : closure.toList with
  | nil => exact absurd hclosure hne
  | cons c rest =>
    rw [hclosure] at hhistory
    have hfirst := hstart.foldl_assignTag (hhistory c List.mem_cons_self) (List.range numTags)
    have htags := @foldl_addTag_of_nodup [] (List.range numTags) List.nodup_range
    rw [htags] at hfirst
    exact collects_assignConfigurations rest _
      (fun c' hc' => hhistory c' (List.mem_cons_of_mem c hc')) hfirst

end Assignment

/-! ## The operations of a byte -/

/-- Adding the operations that are new keeps the first of each. -/
theorem addRegOps_eraseDups (ops newOps : List RegisterOperation) :
    addRegOps ops.eraseDups newOps = (ops ++ newOps).eraseDups := by
  unfold addRegOps
  induction newOps generalizing ops with
  | nil => rw [List.foldl_nil, List.append_nil]
  | cons op newOps ih =>
    have hstep : (if op ∈ ops.eraseDups then ops.eraseDups else ops.eraseDups ++ [op]) =
        (ops ++ [op]).eraseDups := by
      rw [List.eraseDups_append]
      by_cases hop : op ∈ ops
      · rw [if_pos (List.mem_eraseDups.2 hop)]
        simp [List.removeAll, hop]
      · rw [if_neg fun hmem => hop (List.mem_eraseDups.1 hmem)]
        simp [List.removeAll, hop, List.eraseDups_cons]
    rw [List.foldl_cons, hstep, ih, List.append_assoc, List.singleton_append]

/-- The operations that the steps on the byte add, with repetitions. -/
def byteRegOps (m : TagIdWithOpToRegId) (numTags : Nat)
    (steps : List (DeterminizationConfiguration × Nat × Nat)) (byte : Nat) :
    List RegisterOperation :=
  (steps.filter (·.2.1 = byte)).flatMap fun step => historyRegOps m numTags step.1.lookahead

theorem nodup_historyRegOps {low high : Nat} {m : TagIdWithOpToRegId} (h : Fresh low high m)
    (numTags : Nat) (history : List TagOperation) : (historyRegOps m numTags history).Nodup := by
  refine List.Nodup.filterMap ?_ List.nodup_range
  intro t t' op hop hop'
  obtain ⟨tagOp, r, -, hr, rfl⟩ := tagRegOp_eq_some_iff.1 hop
  obtain ⟨tagOp', r', -, hr', heq⟩ := tagRegOp_eq_some_iff.1 hop'
  have hregs : r' = r := by
    have := congrArg RegisterOperation.regId heq
    simpa using this
  exact h.injective t t' r hr (hregs ▸ hr')

/-- The map has a register for every operation that the steps add. -/
def CoversSteps (m : TagIdWithOpToRegId) (numTags : Nat)
    (steps : List (DeterminizationConfiguration × Nat × Nat)) : Prop :=
  ∀ step ∈ steps, Covers m step.1.lookahead (List.range numTags)

theorem CoversSteps.byteRegOps_eq {m m' : TagIdWithOpToRegId} {numTags : Nat}
    {steps : List (DeterminizationConfiguration × Nat × Nat)} (h : CoversSteps m numTags steps)
    (hext : Extends m m') (byte : Nat) :
    byteRegOps m' numTags steps byte = byteRegOps m numTags steps byte := by
  unfold byteRegOps
  apply List.flatMap_congr
  intro step hstep
  exact (h step (List.mem_filter.1 hstep).1).filterMap_eq hext

/-- What the loops of `get_transitions` have collected after some steps. -/
structure CollectsSteps (low numTags : Nat)
    (steps : List (DeterminizationConfiguration × Nat × Nat))
    (st : Assignment × AsciiTransitionsMap) : Prop where
  good : st.1.Good low
  covers : CoversSteps st.1.tagIdWithOpToRegId numTags steps
  regOps : ∀ byte ops D, st.2.find? byte = some (ops, D) →
    ops = (byteRegOps st.1.tagIdWithOpToRegId numTags steps byte).eraseDups
  missing : ∀ byte, st.2.find? byte = none → ∀ step ∈ steps, step.2.1 ≠ byte

theorem find?_addAsciiTransition (map : AsciiTransitionsMap) (byte : Nat)
    (newRegOps : List RegisterOperation) (closure : ConfigurationSet) (byte' : Nat) :
    ((addAsciiTransition map byte newRegOps closure).find? byte').map Prod.fst =
      if byte' = byte then
        some (((map.find? byte).map fun old => addRegOps old.1 newRegOps).getD newRegOps)
      else (map.find? byte').map Prod.fst := by
  unfold addAsciiTransition
  cases hold : map.find? byte with
  | none =>
    dsimp only
    rw [OrderedMap.find?_insertOrAssign]
    split <;> rfl
  | some old =>
    dsimp only
    rw [OrderedMap.find?_insertOrAssign]
    split <;> rfl

variable {nfa : Nfa} {fuel low : Nat}

theorem CollectsSteps.transitionStep
    {steps : List (DeterminizationConfiguration × Nat × Nat)}
    {st st' : Assignment × AsciiTransitionsMap} (h : CollectsSteps low nfa.numTags steps st)
    {step : DeterminizationConfiguration × Nat × Nat}
    (hstep : transitionStep nfa fuel nfa.numTags st step = some st') :
    CollectsSteps low nfa.numTags (steps ++ [step]) st' := by
  obtain ⟨c, byte, next⟩ := step
  obtain ⟨closure, hclosure, hst'⟩ := Option.bind_eq_some_iff.1 hstep
  have hmem := DeterminizationConfiguration.mem_spontaneousClosure hclosure
  have hne : closure.toList ≠ [] := by
    have hself : nextConfiguration c next ∈ closure :=
      (hmem _).2 (.refl _)
    exact List.ne_nil_of_mem hself
  have hhistory : ∀ y ∈ closure, y.history = c.lookahead := by
    intro y hy
    obtain ⟨ops, q, -, rfl⟩ := (hmem y).1 hy
    rfl
  have hcollects : (st.1.assignTransitionRegOps nfa.numTags closure).1.Collects low c.lookahead
      (List.range nfa.numTags) := Assignment.collects_assignTransitionRegOps h.good hne hhistory
  obtain ⟨-, hext, -, -⟩ := Assignment.assignTransitionRegOps_spec h.good nfa.numTags closure
  generalize st.1.assignTransitionRegOps nfa.numTags closure = assigned at hst' hcollects hext
  obtain rfl : (assigned.1, addAsciiTransition st.2 byte assigned.1.regOps assigned.2) = st' :=
    Option.some.inj hst'
  have hold : ∀ byte', byteRegOps assigned.1.tagIdWithOpToRegId nfa.numTags steps byte' =
      byteRegOps st.1.tagIdWithOpToRegId nfa.numTags steps byte' := h.covers.byteRegOps_eq hext
  have hfind := find?_addAsciiTransition st.2 byte assigned.1.regOps assigned.2
  refine ⟨hcollects.good, ?_, ?_, ?_⟩
  · intro step hstep
    rcases List.mem_append.1 hstep with hstep | hstep
    · exact (h.covers step hstep).mono hext
    · rw [List.mem_singleton.1 hstep]
      exact hcollects.covers
  · intro byte' ops D hops
    have hfind := hfind byte'
    rw [hops, Option.map_some] at hfind
    have happend : byteRegOps assigned.1.tagIdWithOpToRegId nfa.numTags
        (steps ++ [(c, byte, next)]) byte' =
          byteRegOps st.1.tagIdWithOpToRegId nfa.numTags steps byte' ++
            if byte' = byte then assigned.1.regOps else [] := by
      rw [← hold, hcollects.regOps]
      unfold byteRegOps
      rw [List.filter_append, List.flatMap_append]
      congr 1
      by_cases hbyte : byte' = byte
      · subst hbyte
        simp [historyRegOps]
      · simp [hbyte, Ne.symm hbyte]
    rw [happend]
    by_cases hbyte : byte' = byte
    · subst hbyte
      rw [if_pos rfl, Option.some.injEq] at hfind
      rw [if_pos rfl]
      refine hfind.trans ?_
      cases hprevious : st.2.find? byte' with
      | none =>
        have hempty : byteRegOps st.1.tagIdWithOpToRegId nfa.numTags steps byte' = [] := by
          unfold byteRegOps
          rw [List.filter_eq_nil_iff.2 (by simpa using h.missing byte' hprevious)]
          rfl
        rw [hempty, List.nil_append, eraseDups_of_nodup]
        · rfl
        · rw [hcollects.regOps]
          exact nodup_historyRegOps hcollects.good _ _
      | some old =>
        obtain ⟨oldOps, oldD⟩ := old
        rw [← addRegOps_eraseDups, ← h.regOps byte' oldOps oldD hprevious]
        rfl
    · rw [if_neg hbyte] at hfind ⊢
      obtain ⟨⟨oldOps, oldD⟩, hprevious, heq⟩ := Option.map_eq_some_iff.1 hfind.symm
      obtain rfl : oldOps = ops := heq
      rw [List.append_nil]
      exact h.regOps byte' oldOps oldD hprevious
  · intro byte' hnone step hstep
    have hfind := hfind byte'
    rw [hnone, Option.map_none] at hfind
    by_cases hbyte : byte' = byte
    · rw [if_pos hbyte] at hfind
      cases hfind
    · rw [if_neg hbyte] at hfind
      rcases List.mem_append.1 hstep with hstep | hstep
      · exact h.missing byte' (Option.map_eq_none_iff.1 hfind.symm) step hstep
      · rw [List.mem_singleton.1 hstep]
        exact Ne.symm hbyte

theorem CollectsSteps.foldlM {steps steps' : List (DeterminizationConfiguration × Nat × Nat)}
    {st st' : Assignment × AsciiTransitionsMap} (h : CollectsSteps low nfa.numTags steps st)
    (hrun : steps'.foldlM (Dfa.transitionStep nfa fuel nfa.numTags) st = some st') :
    CollectsSteps low nfa.numTags (steps ++ steps') st' := by
  induction steps' generalizing steps st with
  | nil =>
    obtain rfl := Option.some.inj hrun
    rw [List.append_nil]
    exact h
  | cons step steps' ih =>
    rw [List.foldlM_cons] at hrun
    obtain ⟨mid, hmid, hrest⟩ := Option.bind_eq_some_iff.1 hrun
    rw [List.append_cons]
    exact ih (h.transitionStep hmid) hrest

/-- The transitions of a set, with the new registers of the tags. -/
structure TransitionsOf (nfa : Nfa) (S : ConfigurationSet) (low high : Nat)
    (m : TagIdWithOpToRegId) (transitions : AsciiTransitionsMap) : Prop where
  fresh : Fresh low high m
  exists_behind : ∀ c ∈ S, ∀ byte next, nfa.ByteStep c.nfaState byte next →
    ∃ x, Behind nfa m c next x
  regOps : ∀ byte ops D, transitions.find? byte = some (ops, D) →
    ops = (byteRegOps m nfa.numTags (transitionSteps nfa S) byte).eraseDups
  mem_iff : ∀ byte ops D, transitions.find? byte = some (ops, D) → ∀ x,
    x ∈ D ↔ ∃ c ∈ S, ∃ next, nfa.ByteStep c.nfaState byte next ∧ Behind nfa m c next x

/-- What exploring a set computes. -/
theorem getTransitions_regOps {regHandler regHandler' : RegisterHandler}
    {S : ConfigurationSet} {transitions : AsciiTransitionsMap}
    (h : getTransitions nfa fuel nfa.numTags regHandler S = some (regHandler', transitions)) :
    ∃ m, TransitionsOf nfa S regHandler.getNumRegs regHandler'.getNumRegs m transitions := by
  obtain ⟨st, hst, hresult⟩ := Option.bind_eq_some_iff.1 h
  cases hresult
  have hgood : ({ regHandler := regHandler, tagIdWithOpToRegId := OrderedMap.empty } :
      Assignment).Good regHandler.getNumRegs := Fresh.empty _
  have hstart : CollectsSteps regHandler.getNumRegs nfa.numTags []
      (({ regHandler := regHandler, tagIdWithOpToRegId := OrderedMap.empty } : Assignment),
        OrderedMap.empty) := by
    refine ⟨hgood, fun _ hstep => absurd hstep List.not_mem_nil, fun byte ops D hfind => ?_,
      fun _ _ _ hstep => absurd hstep List.not_mem_nil⟩
    rw [OrderedMap.find?_empty] at hfind
    cases hfind
  have hcollects := hstart.foldlM hst
  obtain ⟨-, -, hexists, hbytes⟩ := foldlM_transitionStep_spec hgood hst
  refine ⟨st.1.tagIdWithOpToRegId, hcollects.good, ?_, hcollects.regOps, ?_⟩
  · intro c hc byte next hstep
    have hself : DeterminizationConfiguration.LeadsTo nfa (nextConfiguration c next)
        (nextConfiguration c next) := .refl _
    obtain ⟨x, hx⟩ := hexists (c, byte, next) (mem_transitionSteps.2 ⟨hc, hstep⟩) _ hself
    exact ⟨x, _, hself, hx⟩
  · intro byte ops D hfind x
    have hdest := (hbytes byte).2 x
    simp only [mem_transitionSteps] at hdest
    have hmem : x ∈ D ↔ st.2.Dest byte x := by
      constructor
      · exact fun hx => ⟨ops, D, hfind, hx⟩
      · rintro ⟨ops', D', hfind', hx⟩
        rw [hfind] at hfind'
        cases hfind'
        exact hx
    rw [hmem, hdest]
    constructor
    · rintro (⟨_, _, hfalse, -⟩ | ⟨c, next, ⟨hc, hstep⟩, hx⟩)
      · cases hfalse
      · exact ⟨c, hc, next, hstep, hx⟩
    · rintro ⟨c, hc, next, hstep, hx⟩
      exact Or.inr ⟨c, next, ⟨hc, hstep⟩, hx⟩

end Dfa

end LogSurgeon
