import LogSurgeon.FiniteAutomata.DfaReached
import LogSurgeon.FiniteAutomata.RegisterStore

/-!
# Operations and histories

The operations of a transition should leave the current position in the
registers of the tags that a configuration set, and `-1` in those of the tags
that it negated.

Only the first pending operation on a tag adds a register operation, and all
configurations that step on one byte share the register of the tag.  So the
operation that is executed last is the right one exactly when all of them end
with an operation of its type (`HistoriesAgree`).
-/

namespace LogSurgeon.Dfa

open Lib

/-! ## The statement -/

/-- The last operation on the tag. -/
def lastTagOp (history : List TagOperation) (t : Nat) : Option TagOperation :=
  history.reverse.find? (·.tagId = t)

/-- The position that stands for an operation at the current position. -/
def tagPosition (currPos : Nat) : TagOperationType → Int
  | .set => toPosition currPos
  | .negate => -1

/-- The registers of the configurations hold what their histories say, and the
registers of the other tags are as before. -/
def RealisesHistories (numTags : Nat) (D : ConfigurationSet) (currPos : Nat)
    (handler handler' : RegisterHandler) : Prop :=
  ∀ c ∈ D, ∀ t < numTags, ∃ r, c.tagIdToRegIds.find? t = some r ∧
    (∀ tagOp, lastTagOp c.history t = some tagOp →
      handler'.mostRecentPosition r = some (tagPosition currPos tagOp.type)) ∧
    (lastTagOp c.history t = none →
      handler'.getReversedPositions r = handler.getReversedPositions r)

/-- The types of the first pending operations on the tag, for the steps on the
byte in their order. -/
def pendingTypes (nfa : Nfa) (S : ConfigurationSet) (byte t : Nat) : List TagOperationType :=
  ((transitionSteps nfa S).filter (·.2.1 = byte)).filterMap fun step =>
    (step.1.getTagLookahead t).map (·.type)

/-- The type of the operation on the tag that is executed last. -/
def executedType (nfa : Nfa) (S : ConfigurationSet) (byte t : Nat) : Option TagOperationType :=
  (pendingTypes nfa S byte t).eraseDups.getLast?

/-- The pending operations of every step on the byte end with one of the type
that is executed last. -/
def HistoriesAgree (nfa : Nfa) (S : ConfigurationSet) (byte : Nat) : Prop :=
  ∀ step ∈ transitionSteps nfa S, step.2.1 = byte → ∀ t < nfa.numTags,
    ∀ tagOp, lastTagOp step.1.lookahead t = some tagOp →
      executedType nfa S byte t = some tagOp.type

/-! ## The operations on the register of a tag -/

theorem lastTagOp_eq_none_iff {history : List TagOperation} {t : Nat} :
    lastTagOp history t = none ↔ ¬ Nfa.OnTag history t := by
  simp [lastTagOp, Nfa.OnTag]

theorem filterMap_of_unique {α β : Type*} {l : List α} {a : α} {f : α → Option β}
    (hl : l.Nodup) (ha : a ∈ l) (hf : ∀ b ∈ l, b ≠ a → f b = none) :
    l.filterMap f = (f a).toList := by
  induction l with
  | nil => cases ha
  | cons b l ih =>
    obtain ⟨hb, hl⟩ := List.nodup_cons.1 hl
    by_cases hba : b = a
    · subst hba
      have hrest : l.filterMap f = [] := by
        apply List.filterMap_eq_nil_iff.2
        intro b' hb'
        refine hf b' (List.mem_cons_of_mem b hb') ?_
        rintro rfl
        exact hb hb'
      cases hfb : f b with
      | none => rw [List.filterMap_cons_none hfb, hrest, Option.toList_none]
      | some x => rw [List.filterMap_cons_some hfb, hrest, Option.toList_some]
    · have ha : a ∈ l := (List.mem_cons.1 ha).resolve_left (Ne.symm hba)
      rw [List.filterMap_cons_none (hf b List.mem_cons_self hba)]
      exact ih hl ha fun b' hb' => hf b' (List.mem_cons_of_mem b hb')

variable {nfa : Nfa} {m : TagIdWithOpToRegId} {low high : Nat} {S : ConfigurationSet}

/-- The operations of a history on the register of a tag. -/
theorem filter_historyRegOps (hfresh : Fresh low high m) {numTags t r : Nat} (ht : t < numTags)
    (hr : m.find? t = some r) (history : List TagOperation) :
    (historyRegOps m numTags history).filter (·.regId = r) =
      ((history.find? (·.tagId = t)).map fun tagOp => regOpOf r tagOp.type).toList := by
  unfold historyRegOps
  rw [List.filter_filterMap, filterMap_of_unique List.nodup_range (List.mem_range.2 ht)]
  · congr 1
    unfold tagRegOp
    rw [hr]
    cases history.find? (·.tagId = t) with
    | none => rfl
    | some tagOp => simp [Option.filter]
  · intro t' _ hne
    cases hop : tagRegOp m history t' with
    | none => rfl
    | some op =>
      obtain ⟨tagOp, r', -, hr', rfl⟩ := tagRegOp_eq_some_iff.1 hop
      have hregs : r' ≠ r := by
        rintro rfl
        exact hne (hfresh.injective t' t r' hr' hr)
      simp [Option.filter, hregs]

/-- The operations of a transition on the register of a tag. -/
theorem filter_byteRegOps (hfresh : Fresh low high m) {t r : Nat} (ht : t < nfa.numTags)
    (hr : m.find? t = some r) (byte : Nat) :
    (byteRegOps m nfa.numTags (transitionSteps nfa S) byte).eraseDups.filter (·.regId = r) =
      (pendingTypes nfa S byte t).eraseDups.map (regOpOf r) := by
  rw [filter_eraseDups, ← map_eraseDups (regOpOf_injective r)]
  congr 1
  unfold byteRegOps pendingTypes
  rw [List.filter_flatMap, List.map_filterMap]
  simp only [filter_historyRegOps hfresh ht hr, Option.map_map]
  rw [List.filterMap_eq_flatMap_toList]
  rfl

theorem mem_byteRegOps {byte : Nat} {op : RegisterOperation} {numTags : Nat}
    {steps : List (DeterminizationConfiguration × Nat × Nat)}
    (h : op ∈ (byteRegOps m numTags steps byte).eraseDups) :
    ∃ t r type, m.find? t = some r ∧ op = regOpOf r type := by
  obtain ⟨step, -, hop⟩ := List.mem_flatMap.1 (List.mem_eraseDups.1 h)
  obtain ⟨t, -, hop⟩ := List.mem_filterMap.1 hop
  obtain ⟨tagOp, r, -, hr, rfl⟩ := tagRegOp_eq_some_iff.1 hop
  exact ⟨t, r, tagOp.type, hr, rfl⟩

theorem type_regOpOf_ne_copy (r : Nat) (type : TagOperationType) :
    (regOpOf r type).type ≠ .copy := by
  cases type <;> exact RegisterOperationType.noConfusion

@[simp] theorem writtenPosition_regOpOf (currPos r : Nat) (type : TagOperationType) :
    (regOpOf r type).writtenPosition currPos = some (tagPosition currPos type) := by
  cases type <;> rfl

/-- The operations are no copies, and they use the new registers. -/
theorem byteRegOps_spec (hfresh : Fresh low high m) (numTags : Nat)
    (steps : List (DeterminizationConfiguration × Nat × Nat)) (byte : Nat) :
    ∀ op ∈ (byteRegOps m numTags steps byte).eraseDups,
      op.type ≠ .copy ∧ low ≤ op.regId ∧ op.regId < high := by
  intro op hop
  obtain ⟨t, r, type, hr, rfl⟩ := mem_byteRegOps hop
  rw [regId_regOpOf]
  exact ⟨type_regOpOf_ne_copy r type, hfresh.low_le t r hr, hfresh.lt_high t r hr⟩

/-- What the operations of a transition leave in the register of a tag. -/
theorem runRegOps_byteRegOps (hfresh : Fresh low high m) {t r : Nat} (ht : t < nfa.numTags)
    (hr : m.find? t = some r) (byte currPos : Nat) (store : Nat → Option Int) :
    runRegOps (byteRegOps m nfa.numTags (transitionSteps nfa S) byte).eraseDups currPos store r =
      ((executedType nfa S byte t).map fun type =>
        some (tagPosition currPos type)).getD (store r) := by
  have hplain := byteRegOps_spec hfresh nfa.numTags (transitionSteps nfa S) byte
  rw [runRegOps_eq_getD fun op hop => (hplain op hop).1, filter_byteRegOps hfresh ht hr,
    List.getLast?_map, Option.map_map]
  congr 2
  funext type
  exact writtenPosition_regOpOf currPos r type

theorem opsBelow_of_plain {n : Nat} {ops : List RegisterOperation}
    (h : ∀ op ∈ ops, op.type ≠ .copy ∧ low ≤ op.regId ∧ op.regId < high) (hle : high ≤ n) :
    OpsBelow n ops := by
  intro op hop
  obtain ⟨hcopy, -, hlt⟩ := h op hop
  exact ⟨hlt.trans_le hle, fun htype => absurd htype hcopy⟩

theorem tagPosition_zero_injective : Function.Injective (tagPosition 0) := by
  intro type type' h
  cases type <;> cases type' <;> first | rfl | exact absurd h (by decide)

/-! ## When the registers hold the histories -/

variable {regMapOrder : List (Nat × Nat) → List (Nat × Nat)} {fuel : Nat}
  {g : Determinization} {regHandler : RegisterHandler} {transitions : AsciiTransitionsMap}

/-- A configuration behind a byte has the pending operations of the one in
front as its history.  The tags with an operation have their new registers, and
the others keep the old ones. -/
theorem Behind.registers {c x : DeterminizationConfiguration} {next : Nat}
    (h : Behind nfa m c next x) :
    x.history = c.lookahead ∧ ∀ t < nfa.numTags,
      (Nfa.OnTag x.history t → ∃ r, m.find? t = some r ∧ x.tagIdToRegIds.find? t = some r) ∧
      (¬ Nfa.OnTag x.history t → x.tagIdToRegIds.find? t = c.tagIdToRegIds.find? t) := by
  obtain ⟨y, ⟨ops, q, -, rfl⟩, hyx⟩ := h
  have hhistory : x.history = c.lookahead := hyx.history
  refine ⟨hhistory, fun t ht => ?_⟩
  obtain ⟨hmoved, hkept⟩ := hyx.find?_follow t
  rw [hhistory]
  exact ⟨fun hon => hmoved ⟨ht, hon⟩, fun hnot => hkept fun hon => hnot hon.2⟩

/-- The operations of a transition leave the registers of a tag as the pending
operations say when they agree. -/
theorem realisesHistories_of_agree {D : ConfigurationSet} {ops : List RegisterOperation}
    {byte : Nat} (h : Explores nfa regMapOrder fuel g S regHandler transitions)
    (hbyte : transitions.find? byte = some (ops, D)) (hagree : HistoriesAgree nfa S byte)
    {handler : RegisterHandler} (hpointed : handler.Pointed)
    (hnum : regHandler.getNumRegs ≤ handler.getNumRegs) (currPos : Nat) :
    ∃ handler', processRegOps ops currPos handler = some handler' ∧
      RealisesHistories nfa.numTags D currPos handler handler' := by
  obtain ⟨owner, m, hm, -, -, hbytes⟩ := h.exists_owner
  have howned := hbytes byte ops D hbyte
  have hD := hm.mem_iff byte ops D hbyte
  obtain rfl := hm.regOps byte ops D hbyte
  have hbelow := h.regsBelow.2
  have hplain := byteRegOps_spec hm.fresh nfa.numTags (transitionSteps nfa S) byte
  have hops := opsBelow_of_plain hplain hnum
  obtain ⟨limit, hlimit, hpos, hwithin⟩ := hpointed.exists_within (toPosition currPos)
  obtain ⟨handler', hrun, -, -⟩ := exists_processRegOps hwithin hops hpos hlimit
  refine ⟨handler', hrun, fun x hx t ht => ?_⟩
  obtain ⟨c, hc, next, hstep, hbehind⟩ := (hD x).1 hx
  obtain ⟨hhistory, hregs⟩ := hbehind.registers
  obtain ⟨hmoved, hkept⟩ := hregs t ht
  obtain ⟨r, hr⟩ := howned.total x hx t ht
  refine ⟨r, hr, fun tagOp hlast => ?_, fun hlast => ?_⟩
  · have hon : Nfa.OnTag x.history t := by
      by_contra hnot
      rw [lastTagOp_eq_none_iff.2 hnot] at hlast
      cases hlast
    obtain ⟨r', hnew, hr'⟩ := hmoved hon
    rw [hr] at hr'
    cases hr'
    rw [mostRecentPosition_processRegOps hwithin hops hlimit hpos hrun,
      runRegOps_byteRegOps hm.fresh ht hnew]
    rw [hhistory] at hlast
    rw [hagree (c, byte, next) (mem_transitionSteps.2 ⟨hc, hstep⟩) rfl t ht tagOp hlast]
    rfl
  · have hold := hkept (lastTagOp_eq_none_iff.1 hlast)
    have hlt := hbelow c hc t r (hold ▸ hr)
    refine getReversedPositions_processRegOps hwithin hops hlimit hpos hrun fun op hop => ?_
    have hnew := (hplain op hop).2.1
    omega

/-- The pending operations agree when the registers hold the histories. -/
theorem agree_of_realisesHistories {D : ConfigurationSet} {ops : List RegisterOperation}
    {byte : Nat} (h : Explores nfa regMapOrder fuel g S regHandler transitions)
    (hbyte : transitions.find? byte = some (ops, D)) {handler handler' : RegisterHandler}
    (hpointed : handler.Pointed) (hnum : regHandler.getNumRegs ≤ handler.getNumRegs)
    (hrun : processRegOps ops 0 handler = some handler')
    (hrealises : RealisesHistories nfa.numTags D 0 handler handler') :
    HistoriesAgree nfa S byte := by
  obtain ⟨m, hm⟩ := getTransitions_regOps h.transitions
  have hD := hm.mem_iff byte ops D hbyte
  obtain rfl := hm.regOps byte ops D hbyte
  have hplain := byteRegOps_spec hm.fresh nfa.numTags (transitionSteps nfa S) byte
  have hops := opsBelow_of_plain hplain hnum
  obtain ⟨limit, hlimit, hpos, hwithin⟩ := hpointed.exists_within (toPosition 0)
  rintro ⟨c, byte', next⟩ hstep rfl t ht tagOp hlast
  have hmem := mem_transitionSteps.1 hstep
  obtain ⟨x, hbehind⟩ := hm.exists_behind c hmem.1 byte' next hmem.2
  obtain ⟨hhistory, hregs⟩ := hbehind.registers
  have hon : Nfa.OnTag x.history t := by
    by_contra hnot
    rw [hhistory] at hnot
    have hlast : lastTagOp c.lookahead t = some tagOp := hlast
    rw [lastTagOp_eq_none_iff.2 hnot] at hlast
    cases hlast
  obtain ⟨r, hnew, hr⟩ := (hregs t ht).1 hon
  obtain ⟨r', hr', hset, -⟩ := hrealises x ((hD x).2 ⟨c, hmem.1, next, hmem.2, hbehind⟩) t ht
  rw [hr] at hr'
  cases hr'
  have hvalue := hset tagOp (by rw [hhistory]; exact hlast)
  rw [mostRecentPosition_processRegOps hwithin hops hlimit hpos hrun,
    runRegOps_byteRegOps hm.fresh ht hnew] at hvalue
  -- the tag is pending, so an operation on it is executed
  cases hexecuted : executedType nfa S byte' t with
  | none =>
    have hempty := List.getLast?_eq_none_iff.1 hexecuted
    have hpending : ∃ type, type ∈ pendingTypes nfa S byte' t := by
      cases hop : c.getTagLookahead t with
      | none =>
        rw [hhistory] at hon
        exact absurd hon (getTagLookahead_eq_none_iff.1 hop)
      | some op =>
        refine ⟨op.type, List.mem_filterMap.2 ⟨(c, byte', next), ?_, ?_⟩⟩
        · exact List.mem_filter.2 ⟨hstep, decide_eq_true rfl⟩
        · rw [hop]
          rfl
    obtain ⟨type, htype⟩ := hpending
    have htype := List.mem_eraseDups.2 htype
    rw [hempty] at htype
    cases htype
  | some type =>
    rw [hexecuted] at hvalue
    exact congrArg some (tagPosition_zero_injective (Option.some.inj hvalue))

/-- Whatever the registers hold before the transition, they hold the histories
behind it, exactly when the pending operations agree. -/
theorem realisesHistories_iff_agree {nfa : Nfa}
    {regMapOrder : List (Nat × Nat) → List (Nat × Nat)} {fuel : Nat} {g : Determinization}
    {S : ConfigurationSet} {regHandler : RegisterHandler} {transitions : AsciiTransitionsMap}
    (h : Explores nfa regMapOrder fuel g S regHandler transitions) {byte : Nat}
    {ops : List RegisterOperation} {D : ConfigurationSet}
    (hbyte : transitions.find? byte = some (ops, D)) :
    (∀ handler : RegisterHandler, handler.Pointed →
      regHandler.getNumRegs ≤ handler.getNumRegs → ∀ currPos,
        ∃ handler', processRegOps ops currPos handler = some handler' ∧
          RealisesHistories nfa.numTags D currPos handler handler') ↔
      HistoriesAgree nfa S byte := by
  constructor
  · intro hrealises
    have hpointed := RegisterHandler.pointed_addRegisters regHandler.getNumRegs
    have hnum : regHandler.getNumRegs ≤
        (RegisterHandler.new.addRegisters regHandler.getNumRegs).getNumRegs := by
      rw [RegisterHandler.getNumRegs_addRegisters]
      omega
    obtain ⟨handler', hrun, hD⟩ := hrealises _ hpointed hnum 0
    exact agree_of_realisesHistories h hbyte hpointed hnum hrun hD
  · intro hagree handler hpointed hnum currPos
    exact realisesHistories_of_agree h hbyte hagree hpointed hnum currPos

/-! ### An ambiguous capture -/

/-- The rule `(?<x>a)c`. -/
def capturedRule : List LexicalRule :=
  [⟨0, .mkCat (.mkCapture (.mkLiteral 97) ⟨0, "x"⟩) (.mkLiteral 99)⟩]

/-- The rule `((?<x>a)|a)c`. -/
def ambiguousRule : List LexicalRule :=
  [⟨0, .mkCat (.mkOr (.mkCapture (.mkLiteral 97) ⟨0, "x"⟩) (.mkLiteral 97)) (.mkLiteral 99)⟩]

/-- The transition on `c` behind the capture. -/
theorem realisesHistories_iff_agree_capture :
    ∃ g S regHandler transitions ops D,
      Explores (Nfa.ofRules capturedRule) id 16 g S regHandler transitions ∧
      transitions.find? 99 = some (ops, D) ∧
      ((∀ handler : RegisterHandler, handler.Pointed →
        regHandler.getNumRegs ≤ handler.getNumRegs → ∀ currPos,
          ∃ handler', processRegOps ops currPos handler = some handler' ∧
            RealisesHistories (Nfa.ofRules capturedRule).numTags D currPos handler handler') ↔
        HistoriesAgree (Nfa.ofRules capturedRule) S 99) := by
  have hcheck : checkExplored (Nfa.ofRules capturedRule) 16 1
      fun _ _ _ transitions => (transitions.find? 99).isSome := by decide +kernel
  obtain ⟨g, S, regHandler, transitions, hexplores, hsome⟩ := exists_explores_of_check hcheck
  obtain ⟨⟨ops, D⟩, hbyte⟩ := Option.isSome_iff_exists.1 hsome
  exact ⟨g, S, regHandler, transitions, ops, D, hexplores, hbyte,
    realisesHistories_iff_agree hexplores hbyte⟩

/-- Behind `a`, one configuration has set the end of the capture and another has
negated it. -/
theorem not_realisesHistories_ambiguous :
    ∃ g S regHandler transitions ops D,
      Explores (Nfa.ofRules ambiguousRule) id 16 g S regHandler transitions ∧
      transitions.find? 99 = some (ops, D) ∧
      ¬ ∀ handler : RegisterHandler, handler.Pointed →
        regHandler.getNumRegs ≤ handler.getNumRegs → ∀ currPos,
          ∃ handler', processRegOps ops currPos handler = some handler' ∧
            RealisesHistories (Nfa.ofRules ambiguousRule).numTags D currPos handler handler' := by
  have hcheck : checkExplored (Nfa.ofRules ambiguousRule) 16 1
      fun _ S _ transitions => (transitions.find? 99).isSome &&
        decide (∃ step ∈ transitionSteps (Nfa.ofRules ambiguousRule) S, step.2.1 = 99 ∧
          lastTagOp step.1.lookahead 1 = some ⟨1, .negate⟩ ∧
          executedType (Nfa.ofRules ambiguousRule) S 99 1 = some .set) := by decide +kernel
  obtain ⟨g, S, regHandler, transitions, hexplores, hcheck⟩ := exists_explores_of_check hcheck
  rw [Bool.and_eq_true, decide_eq_true_eq] at hcheck
  obtain ⟨hsome, step, hstep, hbyte, hlast, hexecuted⟩ := hcheck
  obtain ⟨⟨ops, D⟩, hfind⟩ := Option.isSome_iff_exists.1 hsome
  refine ⟨g, S, regHandler, transitions, ops, D, hexplores, hfind, fun hrealises => ?_⟩
  have hpointed := RegisterHandler.pointed_addRegisters regHandler.getNumRegs
  have hnum : regHandler.getNumRegs ≤
      (RegisterHandler.new.addRegisters regHandler.getNumRegs).getNumRegs := by
    rw [RegisterHandler.getNumRegs_addRegisters]
    omega
  obtain ⟨handler', hrun, hD⟩ := hrealises _ hpointed hnum 0
  have hagree := agree_of_realisesHistories hexplores hfind hpointed hnum hrun hD
  have htype := hagree step hstep hbyte 1 (by decide +kernel) _ hlast
  rw [hexecuted] at htype
  cases htype

end LogSurgeon.Dfa
