import LogSurgeon.FiniteAutomata.DfaWorklist
import LogSurgeon.FiniteAutomata.DfaSimulation

/-!
# The registers of a generated DFA

Every register operation of a generated DFA uses registers that exist, so
running the operations does not throw (`exists_processRegOps`).

* `Within` is the invariant of the register handler at run time: the registers
  point into the prefix tree, whose positions are bounded.
* `Bounded` is the invariant of the generation: the sets and the operations use
  registers below a bound.
-/

namespace LogSurgeon

open Lib

/-! ## The register handler at run time -/

namespace RegisterHandler

/-- No register holds a position. -/
structure Unused (handler : RegisterHandler) : Prop where
  prefixTree : handler.prefixTree = PrefixTree.new
  registers : ∀ r ∈ handler.registers, r = PrefixTree.cRootId

theorem unused_new : Unused new := ⟨rfl, by simp [new]⟩

theorem Unused.addRegister {handler : RegisterHandler} (h : handler.Unused) :
    handler.addRegister.1.Unused := by
  refine ⟨h.prefixTree, fun r hr => ?_⟩
  rcases List.mem_append.1 hr with hr | hr
  · exact h.registers r hr
  · exact List.mem_singleton.1 hr

theorem Unused.addRegisters {handler : RegisterHandler} (h : handler.Unused) (count : Nat) :
    (handler.addRegisters count).Unused := by
  induction count generalizing handler with
  | zero => exact h
  | succ count ih => exact ih h.addRegister

/-- The registers point into the tree, and no position is above `limit`. -/
structure Within (limit : Int) (handler : RegisterHandler) : Prop where
  lt_length : ∀ r ∈ handler.registers, r < handler.prefixTree.nodes.length
  position_le : ∀ n ∈ handler.prefixTree.nodes, n.position ≤ limit

variable {handler : RegisterHandler} {limit : Int}

theorem Unused.within (h : handler.Unused) (hlimit : 0 ≤ limit) : handler.Within limit := by
  constructor
  · intro r hr
    rw [h.registers r hr, h.prefixTree]
    exact Nat.zero_lt_one
  · intro n hn
    rw [h.prefixTree] at hn
    rw [List.mem_singleton.1 hn]
    show (-1 : Int) ≤ limit
    omega

theorem Within.mono {limit' : Int} (h : handler.Within limit) (hle : limit ≤ limit') :
    handler.Within limit' :=
  ⟨h.lt_length, fun n hn => (h.position_le n hn).trans hle⟩

theorem Within.appendPosition (h : handler.Within limit) {regId : Nat} {position : Int}
    (hreg : regId < handler.getNumRegs) (hposition : position ≤ limit) :
    ∃ handler', handler.appendPosition regId position = some handler' ∧
      handler'.getNumRegs = handler.getNumRegs ∧ handler'.Within limit := by
  have hnode : handler.registers[regId]? = some handler.registers[regId] :=
    List.getElem?_eq_getElem hreg
  have hlt := h.lt_length _ (List.getElem_mem hreg)
  unfold RegisterHandler.appendPosition PrefixTree.insert
  rw [hnode]
  simp only [Option.bind_eq_bind, Option.bind_some, dif_pos hlt]
  refine ⟨_, rfl, by simp [getNumRegs], ?_, ?_⟩
  · intro r hr
    rw [List.length_append, List.length_singleton]
    rcases List.mem_or_eq_of_mem_set hr with hr | rfl
    · have := h.lt_length r hr
      omega
    · omega
  · intro n hn
    rcases List.mem_append.1 hn with hn | hn
    · exact h.position_le n hn
    · rw [List.mem_singleton.1 hn]
      exact hposition

theorem Within.copyRegister (h : handler.Within limit) {destRegId sourceRegId : Nat}
    (hdest : destRegId < handler.getNumRegs) (hsource : sourceRegId < handler.getNumRegs) :
    ∃ handler', handler.copyRegister destRegId sourceRegId = some handler' ∧
      handler'.getNumRegs = handler.getNumRegs ∧ handler'.Within limit := by
  have hnode : handler.registers[sourceRegId]? = some handler.registers[sourceRegId] :=
    List.getElem?_eq_getElem hsource
  unfold RegisterHandler.copyRegister
  rw [hnode]
  simp only [Option.bind_eq_bind, Option.bind_some]
  rw [if_pos (show destRegId < handler.registers.length from hdest)]
  refine ⟨_, rfl, by simp [getNumRegs], ?_, h.position_le⟩
  intro r hr
  rcases List.mem_or_eq_of_mem_set hr with hr | rfl
  · exact h.lt_length r hr
  · exact h.lt_length _ (List.getElem_mem hsource)

theorem Within.le_of_mem_reversedPositionsFrom (h : handler.Within limit) {fuel id : Nat}
    {position : Int}
    (hmem : position ∈ PrefixTree.reversedPositionsFrom handler.prefixTree.nodes fuel id) :
    position ≤ limit := by
  induction fuel generalizing id with
  | zero => cases hmem
  | succ fuel ih =>
    unfold PrefixTree.reversedPositionsFrom at hmem
    split at hmem
    · rename_i hnode
      rcases List.mem_cons.1 hmem with rfl | hmem
      · exact h.position_le _ (List.mem_of_getElem? hnode)
      · exact ih hmem
    · cases hmem

/-- A register that exists can be read, and its positions are bounded. -/
theorem Within.getReversedPositions (h : handler.Within limit) {regId : Nat}
    (hreg : regId < handler.getNumRegs) :
    ∃ positions, handler.getReversedPositions regId = some positions ∧
      ∀ position ∈ positions, position ≤ limit := by
  have hnode : handler.registers[regId]? = some handler.registers[regId] :=
    List.getElem?_eq_getElem hreg
  have hlt := h.lt_length _ (List.getElem_mem hreg)
  unfold RegisterHandler.getReversedPositions PrefixTree.getReversedPositions
  rw [hnode]
  simp only [Option.bind_eq_bind, Option.bind_some, if_pos hlt]
  exact ⟨_, rfl, fun position hmem => h.le_of_mem_reversedPositionsFrom hmem⟩

end RegisterHandler

namespace Dfa

/-- The operations use registers below `n`, and copies have a source. -/
def OpsBelow (n : Nat) (ops : List RegisterOperation) : Prop :=
  ∀ op ∈ ops, op.regId < n ∧ (op.type = .copy → ∃ src < n, op.copyRegId = some src)

theorem OpsBelow.mono {n n' : Nat} {ops : List RegisterOperation} (h : OpsBelow n ops)
    (hle : n ≤ n') : OpsBelow n' ops := by
  intro op hop
  refine ⟨(h op hop).1.trans_le hle, fun hcopy => ?_⟩
  obtain ⟨src, hsrc, hid⟩ := (h op hop).2 hcopy
  exact ⟨src, hsrc.trans_le hle, hid⟩

theorem opsBelow_nil (n : Nat) : OpsBelow n [] := by simp [OpsBelow]

theorem OpsBelow.append {n : Nat} {ops ops' : List RegisterOperation} (h : OpsBelow n ops)
    (h' : OpsBelow n ops') : OpsBelow n (ops ++ ops') := by
  intro op hop
  rcases List.mem_append.1 hop with hop | hop
  · exact h op hop
  · exact h' op hop

/-- Operations on registers that exist do not throw. -/
theorem exists_processRegOps {limit : Int} {handler : RegisterHandler}
    (hwithin : handler.Within limit) {ops : List RegisterOperation} {currPos : Nat}
    (hops : OpsBelow handler.getNumRegs ops) (hpos : toPosition currPos ≤ limit)
    (hlimit : 0 ≤ limit) :
    ∃ handler', processRegOps ops currPos handler = some handler' ∧
      handler'.getNumRegs = handler.getNumRegs ∧ handler'.Within limit := by
  induction ops generalizing handler with
  | nil => exact ⟨handler, rfl, rfl, hwithin⟩
  | cons op ops ih =>
    obtain ⟨hreg, hcopy⟩ := hops op (by simp)
    have hstep : ∃ handler', processRegOp currPos handler op = some handler' ∧
        handler'.getNumRegs = handler.getNumRegs ∧ handler'.Within limit := by
      unfold processRegOp
      cases htype : op.type with
      | set => exact hwithin.appendPosition hreg hpos
      | negate => exact hwithin.appendPosition hreg (by omega)
      | copy =>
        obtain ⟨src, hsrc, hid⟩ := hcopy htype
        rw [hid]
        exact hwithin.copyRegister hreg hsrc
    obtain ⟨mid, hmid, hnum, hwithin'⟩ := hstep
    have hrest : OpsBelow mid.getNumRegs ops := by
      rw [hnum]
      exact fun op' hop' => hops op' (List.mem_cons_of_mem _ hop')
    obtain ⟨handler', hrun, hnum', hwithin''⟩ := ih hwithin' hrest
    refine ⟨handler', ?_, hnum'.trans hnum, hwithin''⟩
    unfold processRegOps at hrun ⊢
    rw [List.foldlM_cons, hmid]
    exact hrun

/-! ## The operations of an explored set -/

namespace Assignment

/-- The registers are new ones, and the operations use them. -/
structure Sound (st : Assignment) : Prop where
  unused : st.regHandler.Unused
  tags : ∀ t r, st.tagIdWithOpToRegId.find? t = some r → r < st.regHandler.getNumRegs
  ops : OpsBelow st.regHandler.getNumRegs st.regOps

/-- `st'` has all the registers of `st` and is sound again. -/
def Follows (st st' : Assignment) : Prop :=
  st.regHandler.getNumRegs ≤ st'.regHandler.getNumRegs ∧ st'.Sound

theorem Follows.trans {st st' st'' : Assignment} (h : Follows st st') (h' : Follows st' st'') :
    Follows st st'' := ⟨h.1.trans h'.1, h'.2⟩

theorem Sound.getOrAddRegister {st : Assignment} (h : st.Sound) (tagId : Nat) :
    Follows st (st.getOrAddRegister tagId).1 ∧
      (st.getOrAddRegister tagId).2 <
        (st.getOrAddRegister tagId).1.regHandler.getNumRegs := by
  unfold Assignment.getOrAddRegister
  split
  · rename_i r hr
    exact ⟨⟨Nat.le_refl _, h⟩, h.tags tagId r hr⟩
  · have hnum := RegisterHandler.getNumRegs_addRegister st.regHandler
    refine ⟨⟨?_, h.unused.addRegister, ?_, ?_⟩, ?_⟩
    · show _ ≤ st.regHandler.addRegister.1.getNumRegs
      omega
    · intro t r hr
      show r < st.regHandler.addRegister.1.getNumRegs
      have hr : (st.tagIdWithOpToRegId.insertOrAssign tagId _).find? t = some r := hr
      rw [OrderedMap.find?_insertOrAssign] at hr
      split at hr
      · cases hr
        rw [hnum, RegisterHandler.addRegister_snd]
        omega
      · have := h.tags t r hr
        omega
    · refine h.ops.mono ?_
      show _ ≤ st.regHandler.addRegister.1.getNumRegs
      omega
    · show st.regHandler.addRegister.2 < st.regHandler.addRegister.1.getNumRegs
      rw [hnum, RegisterHandler.addRegister_snd]
      omega

theorem Sound.addRegOp {st : Assignment} (h : st.Sound) {regId : Nat}
    (hreg : regId < st.regHandler.getNumRegs) (type : TagOperationType) :
    Follows st (st.addRegOp regId type) := by
  refine ⟨by rw [regHandler_addRegOp], ?_, ?_, ?_⟩
  · rw [regHandler_addRegOp]
    exact h.unused
  · rw [regHandler_addRegOp, tagIdWithOpToRegId_addRegOp]
    exact h.tags
  · rw [regHandler_addRegOp]
    unfold Assignment.addRegOp
    split
    · exact h.ops
    · cases type with
      | set =>
        refine h.ops.append fun op hop => ?_
        rw [List.mem_singleton.1 hop]
        exact ⟨hreg, fun hcopy => by cases hcopy⟩
      | negate =>
        refine h.ops.append fun op hop => ?_
        rw [List.mem_singleton.1 hop]
        exact ⟨hreg, fun hcopy => by cases hcopy⟩

theorem Sound.assignTag {st : Assignment} (h : st.Sound)
    (config : DeterminizationConfiguration) (tagId : Nat) :
    Follows st (assignTag (st, config) tagId).1 := by
  unfold Assignment.assignTag
  split
  · obtain ⟨hfollows, hreg⟩ := h.getOrAddRegister tagId
    exact hfollows.trans (hfollows.2.addRegOp hreg _)
  · exact ⟨Nat.le_refl _, h⟩

theorem Sound.assignTags {st : Assignment} (h : st.Sound) (numTags : Nat)
    (config : DeterminizationConfiguration) :
    Follows st (assignTags numTags st config).1 := by
  unfold Assignment.assignTags
  generalize List.range numTags = tags
  induction tags generalizing st config with
  | nil => exact ⟨Nat.le_refl _, h⟩
  | cons tag tags ih =>
    have hfirst := h.assignTag config tag
    exact hfirst.trans (ih hfirst.2 _)

theorem Sound.assignTransitionRegOps {st : Assignment} (h : st.Sound) (numTags : Nat)
    (closure : ConfigurationSet) :
    Follows st (st.assignTransitionRegOps numTags closure).1 := by
  unfold Assignment.assignTransitionRegOps assignConfigurations
  have hstart : ({ st with regOps := [] } : Assignment).Sound :=
    ⟨h.unused, h.tags, opsBelow_nil _⟩
  have hfold : ∀ (configs : List DeterminizationConfiguration)
      (mid : Assignment × ConfigurationSet), mid.1.Sound →
      Follows mid.1 (configs.foldl
        (fun st config => ((st.1.assignTags numTags config).1,
          st.2.insert (st.1.assignTags numTags config).2)) mid).1 := by
    intro configs
    induction configs with
    | nil => exact fun mid hmid => ⟨Nat.le_refl _, hmid⟩
    | cons config configs ih =>
      intro mid hmid
      have hfirst := hmid.assignTags numTags config
      exact hfirst.trans (ih ((mid.1.assignTags numTags config).1,
        mid.2.insert (mid.1.assignTags numTags config).2) hfirst.2)
  exact hfold closure.toList (_, OrderedSet.empty) hstart

end Assignment

theorem OpsBelow.addRegOps {n : Nat} {ops newOps : List RegisterOperation} (h : OpsBelow n ops)
    (h' : OpsBelow n newOps) : OpsBelow n (addRegOps ops newOps) := by
  unfold Dfa.addRegOps
  induction newOps generalizing ops with
  | nil => exact h
  | cons op newOps ih =>
    have hrest : OpsBelow n newOps := fun op' hop' => h' op' (List.mem_cons_of_mem _ hop')
    refine ih ?_ hrest
    show OpsBelow n (if op ∈ ops then ops else ops ++ [op])
    split
    · exact h
    · refine h.append fun op' hop' => ?_
      rw [List.mem_singleton.1 hop']
      exact h' op (by simp)

/-- The operations that exploring a set computes use registers that exist. -/
theorem opsBelow_of_getTransitions {nfa : Nfa} {fuel : Nat}
    {regHandler regHandler' : RegisterHandler} {S : ConfigurationSet}
    {transitions : AsciiTransitionsMap} (hunused : regHandler.Unused)
    (h : getTransitions nfa fuel nfa.numTags regHandler S = some (regHandler', transitions)) :
    regHandler'.Unused ∧ regHandler.getNumRegs ≤ regHandler'.getNumRegs ∧
      ∀ byte ops D, transitions.find? byte = some (ops, D) →
        OpsBelow regHandler'.getNumRegs ops := by
  obtain ⟨st, hst, hresult⟩ := Option.bind_eq_some_iff.1 h
  cases hresult
  have hfold : ∀ (steps : List (DeterminizationConfiguration × Nat × Nat))
      (st st' : Assignment × AsciiTransitionsMap),
      steps.foldlM (transitionStep nfa fuel nfa.numTags) st = some st' → st.1.Sound →
      (∀ byte ops D, st.2.find? byte = some (ops, D) →
        OpsBelow st.1.regHandler.getNumRegs ops) →
      Assignment.Follows st.1 st'.1 ∧ ∀ byte ops D, st'.2.find? byte = some (ops, D) →
        OpsBelow st'.1.regHandler.getNumRegs ops := by
    intro steps
    induction steps with
    | nil =>
      intro st st' hrun hsound hmap
      cases hrun
      exact ⟨⟨Nat.le_refl _, hsound⟩, hmap⟩
    | cons step steps ih =>
      intro st st' hrun hsound hmap
      rw [List.foldlM_cons] at hrun
      obtain ⟨mid, hmid, hrest⟩ := Option.bind_eq_some_iff.1 hrun
      obtain ⟨closure, -, hmid⟩ := Option.bind_eq_some_iff.1 hmid
      have hfirst := hsound.assignTransitionRegOps nfa.numTags closure
      generalize st.1.assignTransitionRegOps nfa.numTags closure = assigned at hmid hfirst
      obtain rfl : (assigned.1,
        addAsciiTransition st.2 step.2.1 assigned.1.regOps assigned.2) = mid :=
        Option.some.inj hmid
      have hmap' : ∀ byte ops D,
          (addAsciiTransition st.2 step.2.1 assigned.1.regOps assigned.2).find? byte =
            some (ops, D) → OpsBelow assigned.1.regHandler.getNumRegs ops := by
        intro byte ops D hfind
        unfold addAsciiTransition at hfind
        split at hfind
        · rename_i ops' D' hold
          rw [OrderedMap.find?_insertOrAssign] at hfind
          split at hfind
          · cases hfind
            exact ((hmap _ _ _ hold).mono hfirst.1).addRegOps hfirst.2.ops
          · exact (hmap byte ops D hfind).mono hfirst.1
        · rw [OrderedMap.find?_insertOrAssign] at hfind
          split at hfind
          · cases hfind
            exact hfirst.2.ops
          · exact (hmap byte ops D hfind).mono hfirst.1
      obtain ⟨hfollows, hresult⟩ := ih _ _ hrest hfirst.2 hmap'
      exact ⟨hfirst.trans hfollows, hresult⟩
  have hstart : ({ regHandler := regHandler, tagIdWithOpToRegId := OrderedMap.empty } :
      Assignment).Sound := by
    refine ⟨hunused, fun t r hr => ?_, opsBelow_nil _⟩
    rw [OrderedMap.find?_empty] at hr
    cases hr
  obtain ⟨hfollows, hmap⟩ := hfold _ _ _ hst hstart (by
    intro byte ops D hfind
    rw [OrderedMap.find?_empty] at hfind
    cases hfind)
  exact ⟨hfollows.2.unused, hfollows.1, hmap⟩

/-! ## The operations of a mapped set -/

/-- Two configurations have the registers for the same tag. -/
def SameTag (lhs rhs : ConfigurationSet) (l r : Nat) : Prop :=
  ∃ t, (∃ c ∈ lhs, c.tagIdToRegIds.find? t = some l) ∧
    ∃ c ∈ rhs, c.tagIdToRegIds.find? t = some r

section

variable {lhs rhs : ConfigurationSet} {Q : RegMaps → Prop}

theorem matchRegisters_induction
    (hQ : ∀ maps maps' l r, SameTag lhs rhs l r → RegMaps.match maps l r = some maps' →
      Q maps → Q maps')
    {c c' : DeterminizationConfiguration} (hc : c ∈ lhs) (hc' : c' ∈ rhs)
    {tags : List (Nat × Nat)} (htags : ∀ e ∈ tags, c.tagIdToRegIds.find? e.1 = some e.2)
    {maps maps' : RegMaps} (hmaps : Q maps)
    (hmatch : matchRegisters c c' tags maps = some maps') : Q maps' := by
  induction tags generalizing maps with
  | nil =>
    cases hmatch
    exact hmaps
  | cons e tags ih =>
    have hrest : ∀ e' ∈ tags, c.tagIdToRegIds.find? e'.1 = some e'.2 :=
      fun e' he' => htags e' (List.mem_cons_of_mem _ he')
    unfold matchRegisters at hmatch
    split at hmatch
    · exact ih hrest hmaps hmatch
    · split at hmatch
      · rename_i r hr
        split at hmatch
        · rename_i mid hmid
          have hsame : SameTag lhs rhs e.2 r :=
            ⟨e.1, ⟨c, hc, htags e List.mem_cons_self⟩, c', hc', hr⟩
          exact ih hrest (hQ maps mid e.2 r hsame hmid hmaps) hmatch
        · cases hmatch
      · cases hmatch

theorem matchConfigurations_induction
    (hQ : ∀ maps maps' l r, SameTag lhs rhs l r → RegMaps.match maps l r = some maps' →
      Q maps → Q maps')
    {configs : List DeterminizationConfiguration} (hconfigs : ∀ c ∈ configs, c ∈ lhs)
    {maps maps' : RegMaps} (hmaps : Q maps)
    (hmatch : matchConfigurations rhs configs maps = some maps') : Q maps' := by
  induction configs generalizing maps with
  | nil =>
    cases hmatch
    exact hmaps
  | cons c configs ih =>
    unfold matchConfigurations at hmatch
    split at hmatch
    · rename_i c' hc'
      split at hmatch
      · rename_i mid hmid
        have hfirst : Q mid := matchRegisters_induction hQ (hconfigs c List.mem_cons_self)
          (List.mem_of_find?_eq_some hc') (fun e he => OrderedMap.mem_toList_iff.1 he) hmaps hmid
        exact ih (fun d hd => hconfigs d (List.mem_cons_of_mem _ hd)) hfirst hmatch
      · cases hmatch
    · cases hmatch

/-- What holds of the empty mapping and is kept by every pair that is added
holds of a mapping between two sets. -/
theorem tryGetMapping_induction (hempty : Q {})
    (hQ : ∀ maps maps' l r, SameTag lhs rhs l r → RegMaps.match maps l r = some maps' →
      Q maps → Q maps')
    {regMap : List (Nat × Nat)} (h : tryGetMapping lhs rhs = some regMap) :
    ∃ maps : RegMaps, maps.lhsToRhs = regMap ∧ Q maps := by
  unfold tryGetMapping at h
  split at h
  · cases h
  · obtain ⟨maps, hmaps, hregMap⟩ := Option.map_eq_some_iff.1 h
    exact ⟨maps, hregMap, matchConfigurations_induction hQ (fun _ hc => hc) hempty hmaps⟩

end

theorem RegMaps.match_cases {maps maps' : RegMaps} {l r : Nat}
    (h : maps.match l r = some maps') :
    maps' = maps ∨ maps.lhsToRhs.lookup l = none ∧ maps.rhsToLhs.lookup r = none ∧
      maps' = ⟨maps.lhsToRhs ++ [(l, r)], maps.rhsToLhs ++ [(r, l)]⟩ := by
  unfold RegMaps.match at h
  split at h
  · rename_i hl hr
    exact Or.inr ⟨hl, hr, (Option.some.inj h).symm⟩
  · split at h
    · exact Or.inl (Option.some.inj h).symm
    · cases h
  · cases h

/-- A mapping renames the registers of a tag to registers of the same tag. -/
theorem tryGetMapping_regs {lhs rhs : ConfigurationSet} {regMap : List (Nat × Nat)}
    (h : tryGetMapping lhs rhs = some regMap) : ∀ e ∈ regMap, SameTag lhs rhs e.1 e.2 := by
  have hstep : ∀ (maps maps' : RegMaps) (l r : Nat), SameTag lhs rhs l r →
      maps.match l r = some maps' → (∀ e ∈ maps.lhsToRhs, SameTag lhs rhs e.1 e.2) →
      ∀ e ∈ maps'.lhsToRhs, SameTag lhs rhs e.1 e.2 := by
    intro maps maps' l r hsame hmatch hmaps e he
    rcases RegMaps.match_cases hmatch with rfl | ⟨-, -, rfl⟩
    · exact hmaps e he
    · rcases List.mem_append.1 he with he | he
      · exact hmaps e he
      · rw [List.mem_singleton.1 he]
        exact hsame
  have hempty : ∀ e ∈ ({} : RegMaps).lhsToRhs, SameTag lhs rhs e.1 e.2 :=
    fun e he => absurd he List.not_mem_nil
  obtain ⟨maps, rfl, hmaps⟩ :=
    @tryGetMapping_induction lhs rhs (fun maps => ∀ e ∈ maps.lhsToRhs, SameTag lhs rhs e.1 e.2)
      hempty hstep _ h
  exact hmaps

namespace Determinization

theorem opsBelow_reassign {n : Nat} {ops : List RegisterOperation}
    {regMap : List (Nat × Nat)} (h : OpsBelow n ops)
    (hmap : ∀ e ∈ regMap, e.1 < n ∧ e.2 < n) :
    OpsBelow n (reassignTransitionRegOps regMap ops) := by
  unfold reassignTransitionRegOps
  induction regMap generalizing ops with
  | nil => exact h
  | cons e regMap ih =>
    obtain ⟨hold, hnew⟩ := hmap e (by simp)
    refine ih ?_ fun e' he' => hmap e' (List.mem_cons_of_mem _ he')
    unfold reassignRegOp
    split
    · exact h
    · split
      · intro op hop
        obtain ⟨i, hi⟩ := List.mem_iff_getElem?.1 hop
        rw [List.getElem?_modify] at hi
        obtain ⟨op', hop', hi⟩ := Option.map_eq_some_iff.1 hi
        have hbelow := h op' (List.mem_of_getElem? hop')
        split at hi
        · obtain rfl : op'.setRegId e.2 = op := hi
          exact ⟨hnew, hbelow.2⟩
        · obtain rfl : op' = op := hi
          exact hbelow
      · refine h.append fun op hop => ?_
        rw [List.mem_singleton.1 hop]
        exact ⟨hnew, fun _ => ⟨e.1, hold, rfl⟩⟩

/-! ## The generation -/

/-- The sets and the transitions use registers below `n`. -/
structure Bounded (n : Nat) (g : Determinization) : Prop where
  sets : ∀ S i, g.dfaStates.find? S = some i → RegsBelow n S
  transitions : ∀ p byte t, g.dfa.transition? p byte = some t → OpsBelow n t.regOps

variable {nfa : Nfa} {regMapOrder : List (Nat × Nat) → List (Nat × Nat)} {fuel n : Nat}
variable {g g' : Determinization}

theorem Bounded.mono {n' : Nat} (h : Bounded n g) (hle : n ≤ n') : Bounded n' g :=
  ⟨fun S i hS c hc t r hr => (h.sets S i hS c hc t r hr).trans_le hle,
    fun p byte t ht => (h.transitions p byte t ht).mono hle⟩

theorem Bounded.setTransition (h : Bounded n g) {source byte : Nat} {t : DfaTransition}
    (ht : OpsBelow n t.regOps) : Bounded n (g.setTransition source byte t) := by
  refine ⟨h.sets, fun p byte' t' ht' => ?_⟩
  by_cases hsource : source < g.dfa.states.length
  · rw [transition?_setTransition hsource] at ht'
    split at ht'
    · cases ht'
      exact ht
    · exact h.transitions p byte' t' ht'
  · refine h.transitions p byte' t' ?_
    have heq : (g.setTransition source byte t).dfa.states = g.dfa.states := by
      show g.dfa.states.modify source _ = g.dfa.states
      exact List.modify_eq_self (by omega)
    unfold transition? Dfa.state? at ht' ⊢
    rwa [heq] at ht'

theorem Bounded.addState (h : Bounded n g) {D : ConfigurationSet} (hD : RegsBelow n D) :
    Bounded n (g.addState nfa D) := by
  refine ⟨fun S i hS => ?_, fun p byte t ht => ?_⟩
  · rw [find?_addState] at hS
    split at hS
    · rename_i heq
      rw [heq]
      exact hD
    · exact h.sets S i hS
  · rw [transition?_addState] at ht
    exact h.transitions p byte t ht

theorem Bounded.addTransition (horder : ∀ regMap, (regMapOrder regMap).Perm regMap)
    (h : Bounded n g) (source : Nat) {byte : Nat} {ops : List RegisterOperation}
    {D : ConfigurationSet} (hops : OpsBelow n ops) (hD : RegsBelow n D) :
    Bounded n (addTransition nfa regMapOrder source g (byte, ops, D)) := by
  rcases addTransition_cases nfa regMapOrder source g byte ops D with
    ⟨t, ⟨R, hR, hleads⟩, heq⟩ | ⟨-, -, heq⟩
  · rw [heq]
    refine h.setTransition ?_
    rcases hleads with ⟨-, hregOps⟩ | ⟨regMap, hregMap, hregOps⟩
    · rw [hregOps]
      exact hops
    · rw [hregOps]
      refine opsBelow_reassign hops fun e he => ?_
      obtain ⟨t, ⟨c, hc, ht⟩, c', hc', ht'⟩ :=
        tryGetMapping_regs hregMap e ((horder regMap).mem_iff.1 he)
      exact ⟨hD c hc t _ ht, h.sets R _ hR c' hc' t _ ht'⟩
  · rw [heq]
    exact (h.addState hD).setTransition hops

theorem regHandler_addTransition (source : Nat)
    (e : Nat × List RegisterOperation × ConfigurationSet) :
    (addTransition nfa regMapOrder source g e).dfa.regHandler = g.dfa.regHandler := by
  obtain ⟨byte, ops, D⟩ := e
  rcases addTransition_cases nfa regMapOrder source g byte ops D with
    ⟨t, -, heq⟩ | ⟨-, -, heq⟩
  · rw [heq]
    rfl
  · rw [heq]
    rfl

/-- What holds of the registers between two sets. -/
structure RegistersSound (numTags : Nat) (g : Determinization) : Prop where
  unused : g.dfa.regHandler.Unused
  bounded : Bounded g.dfa.regHandler.getNumRegs g
  final_le : 2 * numTags ≤ g.dfa.regHandler.getNumRegs

theorem RegistersSound.explore (horder : ∀ regMap, (regMapOrder regMap).Perm regMap)
    {S : ConfigurationSet} (h : RegistersSound nfa.numTags g)
    (hexplore : explore nfa regMapOrder fuel g S = some g') :
    RegistersSound nfa.numTags g' := by
  obtain ⟨source, hS, hexplore⟩ := Option.bind_eq_some_iff.1 hexplore
  obtain ⟨⟨regHandler, ts⟩, hts, hexplore⟩ := Option.bind_eq_some_iff.1 hexplore
  obtain ⟨hunused, hle, hops⟩ := opsBelow_of_getTransitions h.unused hts
  have hregs := h.bounded.sets S source hS
  have hfold : ∀ (entries : List (Nat × List RegisterOperation × ConfigurationSet))
      (g₁ : Determinization), g₁.dfa.regHandler = regHandler →
      Bounded regHandler.getNumRegs g₁ →
      (∀ e ∈ entries, OpsBelow regHandler.getNumRegs e.2.1 ∧
        RegsBelow regHandler.getNumRegs e.2.2) →
      (entries.foldl (addTransition nfa regMapOrder source) g₁).dfa.regHandler = regHandler ∧
        Bounded regHandler.getNumRegs
          (entries.foldl (addTransition nfa regMapOrder source) g₁) := by
    intro entries
    induction entries with
    | nil => exact fun g₁ hg₁ hbounded _ => ⟨hg₁, hbounded⟩
    | cons e entries ih =>
      intro g₁ hg₁ hbounded hentries
      obtain ⟨heops, heregs⟩ := hentries e (by simp)
      exact ih _ ((regHandler_addTransition source e).trans hg₁)
        (hbounded.addTransition horder source heops heregs)
        fun e' he' => hentries e' (List.mem_cons_of_mem _ he')
  obtain ⟨hhandler, hbounded⟩ := hfold ts.toList
    { g with dfa := { g.dfa with regHandler := regHandler } } rfl
    ⟨(h.bounded.mono hle).sets, (h.bounded.mono hle).transitions⟩ (by
      rintro ⟨byte, ops, D⟩ he
      have hfind := OrderedMap.mem_toList_iff.1 he
      exact ⟨hops byte ops D hfind, regsBelow_of_getTransitions hregs hts hfind⟩)
  cases hexplore
  refine ⟨by rw [hhandler]; exact hunused, by rw [hhandler]; exact hbounded, ?_⟩
  rw [hhandler]
  exact h.final_le.trans hle

theorem RegistersSound.loop (horder : ∀ regMap, (regMapOrder regMap).Perm regMap) {steps : Nat}
    (h : RegistersSound nfa.numTags g)
    (hloop : loop nfa regMapOrder fuel steps g = some g') : RegistersSound nfa.numTags g' := by
  induction steps generalizing g with
  | zero =>
    unfold Determinization.loop at hloop
    split at hloop
    · cases hloop
      exact h
    · cases hloop
    · rename_i hzero
      cases hzero
  | succ steps ih =>
    unfold Determinization.loop at hloop
    split at hloop
    · cases hloop
      exact h
    · rename_i hzero
      cases hzero
    · rename_i S rest steps' hqueue hsteps
      cases hsteps
      obtain ⟨g₁, hexplore, hrest⟩ := Option.bind_eq_some_iff.1 hloop
      have hstart : RegistersSound nfa.numTags { g with unexploredSets := rest } :=
        ⟨h.unused, ⟨h.bounded.sets, h.bounded.transitions⟩, h.final_le⟩
      exact ih (hstart.explore horder hexplore) hrest

end Determinization

open Determinization

theorem find?_initialTagIdToFinalRegId (numTags t : Nat) :
    (initialTagIdToFinalRegId numTags).find? t =
      if t < numTags then some (numTags + t) else none := by
  have hfold : ∀ n, ((List.range n).foldl (fun map i => map.insert i (numTags + i))
      (OrderedMap.empty : OrderedMap Nat Nat)).find? t =
        if t < n then some (numTags + t) else none := by
    intro n
    induction n with
    | zero => rfl
    | succ n ih =>
      rw [List.range_succ, List.foldl_append, List.foldl_cons, List.foldl_nil,
        OrderedMap.find?_insert]
      by_cases ht : t = n
      · subst ht
        rw [if_pos rfl, ih, if_neg (Nat.lt_irrefl t), if_pos (Nat.lt_succ_self t)]
        rfl
      · rw [if_neg ht, ih]
        by_cases hlt : t < n
        · rw [if_pos hlt, if_pos (by omega)]
        · rw [if_neg hlt, if_neg (by omega)]
  exact hfold numTags

/-- The operations of a new state copy registers of the set to final
registers. -/
theorem opsBelow_newState {nfa : Nfa} {final : OrderedMap Nat Nat} {S : ConfigurationSet}
    {n : Nat} (hfinal : ∀ t r, final.find? t = some r → r < n) (hS : RegsBelow n S) :
    OpsBelow n (newState nfa final S).acceptingOps := by
  have hstep : ∀ (s : DfaState) (c : DeterminizationConfiguration), c ∈ S →
      OpsBelow n s.acceptingOps →
      OpsBelow n (addConfiguration nfa final s c).acceptingOps := by
    intro s c hc hs
    unfold addConfiguration
    split
    · split
      · rw [addAcceptingOps_eq]
        refine hs.append fun op hop => ?_
        obtain ⟨⟨t, r⟩, ht, hop⟩ := List.mem_filterMap.1 hop
        have hr := hfinal t r (OrderedMap.mem_toList_iff.1 ht)
        unfold acceptingOp at hop
        split at hop
        · split at hop
          · cases hop
            exact ⟨hr, fun hcopy => by cases hcopy⟩
          · cases hop
            exact ⟨hr, fun hcopy => by cases hcopy⟩
        · obtain ⟨src, hsrc, hop⟩ := Option.map_eq_some_iff.1 hop
          subst hop
          exact ⟨hr, fun _ => ⟨src, hS c hc t src hsrc, rfl⟩⟩
      · exact hs
    · exact hs
  have hfold : ∀ (configs : List DeterminizationConfiguration) (s : DfaState),
      (∀ c ∈ configs, c ∈ S) → OpsBelow n s.acceptingOps →
      OpsBelow n (configs.foldl (addConfiguration nfa final) s).acceptingOps := by
    intro configs
    induction configs with
    | nil => exact fun s _ hs => hs
    | cons c configs ih =>
      intro s hsub hs
      exact ih _ (fun c' hc' => hsub c' (List.mem_cons_of_mem _ hc'))
        (hstep s c (hsub c (by simp)) hs)
  exact hfold S.toList {} (fun c hc => hc) (opsBelow_nil n)

/-- The registers of a DFA that is used for lexing: they are new, and every
operation and every final register is one of them. -/
structure WellFormedRegisters (dfa : Dfa) : Prop where
  unused : dfa.regHandler.Unused
  transitions : ∀ p byte t, dfa.transition? p byte = some t →
    OpsBelow dfa.regHandler.getNumRegs t.regOps
  accepting : ∀ p s, dfa.state? p = some s → OpsBelow dfa.regHandler.getNumRegs s.acceptingOps
  final : ∀ t r, dfa.tagIdToFinalRegId.find? t = some r → r < dfa.regHandler.getNumRegs

theorem wellFormedRegisters_of_generate {nfa : Nfa}
    {regMapOrder : List (Nat × Nat) → List (Nat × Nat)} {fuel : Nat} {dfa : Dfa}
    (horder : ∀ regMap, (regMapOrder regMap).Perm regMap)
    (h : generate nfa regMapOrder fuel = some dfa) : dfa.WellFormedRegisters := by
  obtain ⟨g, hg, rfl⟩ := Option.map_eq_some_iff.1 h
  obtain ⟨S₀, hS₀, hinv, -⟩ := determinize_spec hg
  obtain ⟨S₀', hS₀', hloop⟩ := Option.bind_eq_some_iff.1 hg
  obtain rfl : S₀ = S₀' := Option.some.inj (hS₀.symm.trans hS₀')
  obtain ⟨hinit, hone, hqueue⟩ := @initialDeterminization_spec nfa regMapOrder fuel S₀ hS₀
  have hnum : (initialDeterminization nfa S₀).dfa.regHandler.getNumRegs = 2 * nfa.numTags := by
    show (RegisterHandler.new.addRegisters (2 * nfa.numTags)).getNumRegs = _
    rw [RegisterHandler.getNumRegs_addRegisters, RegisterHandler.getNumRegs_new, Nat.zero_add]
  have hstart : RegistersSound nfa.numTags (initialDeterminization nfa S₀) := by
    refine ⟨RegisterHandler.unused_new.addRegisters _, ⟨hinit.registers, ?_⟩, hnum.ge⟩
    intro p byte t ht
    have hlt := transition?_lt ht
    obtain ⟨S, hS⟩ := hinit.setOfState p hlt
    obtain ⟨i, hi, hnone⟩ := hinit.queued S (by
      rcases hinit.complete S p hS with hq | hc
      · exact hq
      · obtain rfl : p = 0 := by omega
        rw [hinit.injective S S₀ 0 hS hinit.root, hqueue]
        simp)
    obtain rfl : p = i := Option.some.inj (hS.symm.trans hi)
    rw [hnone] at ht
    cases ht
  obtain ⟨hunused, hbounded, hfinal⟩ := hstart.loop horder hloop
  have hfinal' : ∀ t r, g.dfa.tagIdToFinalRegId.find? t = some r →
      r < g.dfa.regHandler.getNumRegs := by
    intro t r hr
    rw [hinv.final, find?_initialTagIdToFinalRegId] at hr
    split at hr
    · cases hr
      omega
    · cases hr
  refine ⟨hunused, hbounded.transitions, fun p s hs => ?_, hfinal'⟩
  obtain ⟨S, hS⟩ := hinv.setOfState p (List.getElem?_eq_some_iff.1 hs).1
  obtain ⟨s', hs', -, hops⟩ := hinv.stateOfSet S p hS
  obtain rfl : s = s' := Option.some.inj (hs.symm.trans hs')
  rw [hops]
  exact opsBelow_newState hfinal' (hbounded.sets S p hS)

end Dfa

end LogSurgeon
