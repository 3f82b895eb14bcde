import LogSurgeon.FiniteAutomata.AcceptingOps
import LogSurgeon.FiniteAutomata.DfaIntersect
import LogSurgeon.FiniteAutomata.TagHistories

/-!
# Final registers

The operations of a transition work on the registers of the configurations, and
those of an accepting state write the final registers and read the others.  So
the operations on the two kinds of registers do not meet: a match that is
recorded on the way (`LexStep.record`) leaves the registers of the
configurations as they are, and with them whatever a longer match records.

* `OpsAvoid` is what the worklist keeps of its transitions
  (`Reached.opsAvoid`).
* `stepPositions` is what one operation does to the positions of the registers.
  It gives equal positions when the registers that the operation reads have
  equal ones (`processRegOps_agree`).
* `wellFormedOps_of_generate` puts both together for a generated DFA.
-/

namespace LogSurgeon

/-- The operation copies the register. -/
def RegisterOperation.Reads (op : RegisterOperation) (r : Nat) : Prop :=
  op.type = .copy ∧ op.copyRegId = some r

namespace Dfa

open Lib Determinization RegisterHandler

/-! ## The transitions stay off the final registers -/

/-- The register is not among those of the final positions of the tags. -/
def NotFinal (numTags r : Nat) : Prop := r < numTags ∨ 2 * numTags ≤ r

/-- The operations neither write nor copy from a final register. -/
def OpsAvoid (numTags : Nat) (ops : List RegisterOperation) : Prop :=
  ∀ op ∈ ops, NotFinal numTags op.regId ∧ ∀ src, op.copyRegId = some src → NotFinal numTags src

variable {nfa : Nfa} {regMapOrder : List (Nat × Nat) → List (Nat × Nat)} {fuel numTags n : Nat}
variable {g g' : Determinization} {S D : ConfigurationSet} {ops : List RegisterOperation}

/-- A renaming between registers that are not final keeps the operations off the
final ones. -/
theorem opsAvoid_reassign {regMap : List (Nat × Nat)} (h : OpsAvoid numTags ops)
    (hmap : ∀ e ∈ regMap, NotFinal numTags e.1 ∧ NotFinal numTags e.2) :
    OpsAvoid numTags (reassignTransitionRegOps regMap ops) := by
  unfold reassignTransitionRegOps
  induction regMap generalizing ops with
  | nil => exact h
  | cons e regMap ih =>
    have hold := (hmap e List.mem_cons_self).1
    have hnew := (hmap e List.mem_cons_self).2
    refine ih ?_ fun e' he' => hmap e' (List.mem_cons_of_mem e he')
    unfold reassignRegOp
    split
    · exact h
    · split
      · intro op hop
        obtain ⟨i, hi⟩ := List.mem_iff_getElem?.1 hop
        rw [List.getElem?_modify] at hi
        obtain ⟨op', hop', hi⟩ := Option.map_eq_some_iff.1 hi
        have havoid := h op' (List.mem_of_getElem? hop')
        split at hi
        · obtain rfl : op'.setRegId e.2 = op := hi
          exact ⟨hnew, havoid.2⟩
        · obtain rfl : op' = op := hi
          exact havoid
      · intro op hop
        rcases List.mem_append.1 hop with hop | hop
        · exact h op hop
        · rw [List.mem_singleton.1 hop]
          refine ⟨hnew, fun src hsrc => ?_⟩
          obtain rfl : e.1 = src := Option.some.inj hsrc
          exact hold

/-- The operations that exploring a set computes are on new registers. -/
theorem TransitionsOf.opsAvoid {low high byte : Nat} {m : TagIdWithOpToRegId}
    {transitions : AsciiTransitionsMap} (h : TransitionsOf nfa S low high m transitions)
    (hlow : 2 * nfa.numTags ≤ low) (hbyte : transitions.find? byte = some (ops, D)) :
    OpsAvoid nfa.numTags ops := by
  intro op hop
  rw [h.regOps byte ops D hbyte] at hop
  obtain ⟨t, r, type, hr, rfl⟩ := mem_byteRegOps hop
  have hle := h.fresh.low_le t r hr
  constructor
  · rw [regId_regOpOf]
    exact Or.inr (hlow.trans hle)
  · intro src hsrc
    cases type with
    | set => cases hsrc
    | negate => cases hsrc

/-- The transitions of the worklist stay off the final registers when one is
added. -/
theorem opsAvoid_addTransition (horder : ∀ regMap, (regMapOrder regMap).Perm regMap)
    (hsets : ∀ R i, g.dfaStates.find? R = some i → AvoidsFinal numTags R)
    (h : ∀ p byte t, g.dfa.transition? p byte = some t → OpsAvoid numTags t.regOps)
    {source byte : Nat} (hops : OpsAvoid numTags ops) (hD : AvoidsFinal numTags D) :
    ∀ p byte' t,
      (addTransition nfa regMapOrder source g (byte, ops, D)).dfa.transition? p byte' = some t →
        OpsAvoid numTags t.regOps := by
  have hset : ∀ (g₁ : Determinization) (t₁ : DfaTransition), OpsAvoid numTags t₁.regOps →
      (∀ p byte t, g₁.dfa.transition? p byte = some t → OpsAvoid numTags t.regOps) →
      ∀ p byte' t, (g₁.setTransition source byte t₁).dfa.transition? p byte' = some t →
        OpsAvoid numTags t.regOps := by
    intro g₁ t₁ ht₁ hold p byte' t ht
    by_cases hsource : source < g₁.dfa.states.length
    · rw [transition?_setTransition hsource] at ht
      split at ht
      · cases ht
        exact ht₁
      · exact hold p byte' t ht
    · have hsame : (g₁.setTransition source byte t₁).dfa.states = g₁.dfa.states :=
        List.modify_eq_self (by omega)
      refine hold p byte' t ?_
      unfold transition? Dfa.state? at ht ⊢
      rwa [hsame] at ht
  rcases addTransition_cases nfa regMapOrder source g byte ops D with
    ⟨t, ⟨R, hR, hleads⟩, heq⟩ | ⟨-, -, heq⟩
  · rw [heq]
    refine hset g t ?_ h
    rcases hleads with ⟨-, hregOps⟩ | ⟨regMap, hregMap, hregOps⟩
    · rw [hregOps]
      exact hops
    · rw [hregOps]
      refine opsAvoid_reassign hops fun e he => ?_
      obtain ⟨t', ⟨c, hc, hfst⟩, c', hc', hsnd⟩ :=
        tryGetMapping_regs hregMap e ((horder regMap).mem_iff.1 he)
      exact ⟨hD c hc t' e.1 hfst, hsets R _ hR c' hc' t' e.2 hsnd⟩
  · rw [heq]
    refine hset (g.addState nfa D) _ hops fun p byte' t ht => ?_
    rw [transition?_addState] at ht
    exact h p byte' t ht

theorem opsAvoid_foldl_addTransition (horder : ∀ regMap, (regMapOrder regMap).Perm regMap)
    {source : Nat} {entries : List (Nat × List RegisterOperation × ConfigurationSet)}
    (hsets : ∀ R i, g.dfaStates.find? R = some i → AvoidsFinal numTags R)
    (h : ∀ p byte t, g.dfa.transition? p byte = some t → OpsAvoid numTags t.regOps)
    (hentries : ∀ e ∈ entries, OpsAvoid numTags e.2.1 ∧ AvoidsFinal numTags e.2.2) :
    ∀ p byte t,
      (entries.foldl (addTransition nfa regMapOrder source) g).dfa.transition? p byte = some t →
        OpsAvoid numTags t.regOps := by
  induction entries generalizing g with
  | nil => exact h
  | cons e entries ih =>
    have hfirst := hentries e List.mem_cons_self
    rw [List.foldl_cons]
    refine ih ?_ ?_ fun e' he' => hentries e' (List.mem_cons_of_mem e he')
    · have hone : ∀ e' ∈ [e], AvoidsFinal numTags e'.2.2 := by
        intro e' he'
        rw [List.mem_singleton.1 he']
        exact hfirst.2
      exact forall_sets_foldl_addTransition source hsets hone
    · exact opsAvoid_addTransition horder hsets h hfirst.1 hfirst.2

/-- The transitions of a reached worklist stay off the final registers. -/
theorem Reached.opsAvoid (horder : ∀ regMap, (regMapOrder regMap).Perm regMap)
    (h : Reached nfa regMapOrder fuel g) :
    ∀ p byte t, g.dfa.transition? p byte = some t → OpsAvoid nfa.numTags t.regOps := by
  induction h with
  | @start S₀ h =>
    intro p byte t ht
    have hinit := @initialDeterminization_spec nfa regMapOrder fuel S₀ h
    have hlt := transition?_lt ht
    obtain ⟨i, hi, hnone⟩ := hinit.1.queued S₀ (by rw [hinit.2.2]; exact List.mem_singleton_self S₀)
    have hp : p = i := by
      have hi' := hinit.1.lt_length hi
      omega
    rw [hp, hnone] at ht
    cases ht
  | @explore g g' S rest hreached hqueue hexplore ih =>
    obtain ⟨hnum, hsets⟩ := hreached.avoidsFinal
    obtain ⟨source, hsource, hexplore⟩ := Option.bind_eq_some_iff.1 hexplore
    obtain ⟨⟨regHandler, transitions⟩, htransitions, hexplore⟩ :=
      Option.bind_eq_some_iff.1 hexplore
    obtain ⟨m, hm⟩ := getTransitions_regOps htransitions
    rw [← Option.some.inj hexplore]
    refine opsAvoid_foldl_addTransition horder hsets ih fun e he => ?_
    obtain ⟨byte, ops, D⟩ := e
    have hfind := OrderedMap.mem_toList_iff.1 he
    exact ⟨hm.opsAvoid hnum hfind, (hsets S source hsource).behind hm hnum hfind⟩

/-! ## What an operation does to the positions -/

/-- The positions of the registers after an operation, as
`getReversedPositions` reports them. -/
def stepPositions (currPos : Nat) (op : RegisterOperation) (store : Nat → Option (List Int)) :
    Nat → Option (List Int) :=
  Function.update store op.regId
    (match op.type with
    | .set => (store op.regId).map (toPosition currPos :: ·)
    | .negate => (store op.regId).map (-1 :: ·)
    | .copy => op.copyRegId.bind store)

variable {handler handler' : RegisterHandler} {limit : Int} {currPos : Nat}

theorem getReversedPositions_processRegOp (hwithin : handler.Within limit)
    {op : RegisterOperation} (h : processRegOp currPos handler op = some handler') :
    handler'.getReversedPositions = stepPositions currPos op handler.getReversedPositions := by
  funext r
  unfold processRegOp at h
  unfold stepPositions
  rw [Function.update_apply]
  cases htype : op.type with
  | set =>
    rw [htype] at h
    exact getReversedPositions_appendPosition hwithin h r
  | negate =>
    rw [htype] at h
    exact getReversedPositions_appendPosition hwithin h r
  | copy =>
    rw [htype] at h
    obtain ⟨source, hsource, h⟩ := Option.bind_eq_some_iff.1 h
    rw [getReversedPositions_copyRegister h, hsource]
    rfl

/-- The positions of the registers after the operations. -/
theorem getReversedPositions_eq_foldl (hwithin : handler.Within limit)
    (hops : OpsBelow handler.getNumRegs ops) (hlimit : 0 ≤ limit)
    (hpos : toPosition currPos ≤ limit) (h : processRegOps ops currPos handler = some handler') :
    handler'.getReversedPositions =
      ops.foldl (fun store op => stepPositions currPos op store) handler.getReversedPositions := by
  induction ops generalizing handler with
  | nil =>
    obtain rfl := Option.some.inj h
    rfl
  | cons op ops ih =>
    obtain ⟨mid, hmid, hrest, hwithin', hbelow⟩ := processRegOps_cons hwithin hops hlimit hpos h
    rw [ih hwithin' hbelow hrest, getReversedPositions_processRegOp hwithin hmid]
    rfl

/-- Operations on registers that satisfy `P` do not see the others. -/
theorem foldl_stepPositions_agree {P : Nat → Prop} {store store' : Nat → Option (List Int)}
    (hops : ∀ op ∈ ops, P op.regId ∧ ∀ src, op.Reads src → P src)
    (h : ∀ r, P r → store r = store' r) :
    ∀ r, P r → ops.foldl (fun store op => stepPositions currPos op store) store r =
      ops.foldl (fun store op => stepPositions currPos op store) store' r := by
  induction ops generalizing store store' with
  | nil => exact h
  | cons op ops ih =>
    obtain ⟨hreg, hcopy⟩ := hops op List.mem_cons_self
    rw [List.foldl_cons, List.foldl_cons]
    refine ih (fun op' hop' => hops op' (List.mem_cons_of_mem op hop')) fun r hr => ?_
    unfold stepPositions
    rw [Function.update_apply, Function.update_apply, h r hr, h op.regId hreg]
    cases htype : op.type with
    | set => rfl
    | negate => rfl
    | copy =>
      have hsource : op.copyRegId.bind store = op.copyRegId.bind store' := by
        cases hsrc : op.copyRegId with
        | none => rfl
        | some src => exact h src (hcopy src ⟨htype, hsrc⟩)
      rw [hsource]

/-- Operations on other registers leave the positions as they are. -/
theorem foldl_stepPositions_frame {store : Nat → Option (List Int)} {r : Nat}
    (hr : ∀ op ∈ ops, op.regId ≠ r) :
    ops.foldl (fun store op => stepPositions currPos op store) store r = store r := by
  induction ops generalizing store with
  | nil => rfl
  | cons op ops ih =>
    rw [List.foldl_cons, ih fun op' hop' => hr op' (List.mem_cons_of_mem op hop')]
    exact Function.update_of_ne (Ne.symm (hr op List.mem_cons_self)) _ store

/-! ## Lexing with the DFA -/

/-- What the lexer does with the registers: it reads a byte, or records the
match that ends at the position. -/
inductive LexStep where
  | read (byte currPos : Nat)
  | record (currPos : Nat)

def LexStep.isRead : LexStep → Bool
  | read _ _ => true
  | record _ => false

/-- The state that the bytes lead to. -/
def walk (dfa : Dfa) : Nat → List LexStep → Option Nat
  | p, [] => some p
  | p, .read byte _ :: steps => (dfa.transition? p byte).bind fun t => dfa.walk t.destState steps
  | p, .record _ :: steps => dfa.walk p steps

/-- The registers after the steps.  An exception is `none`. -/
def walkRegisters (dfa : Dfa) : Nat → List LexStep → RegisterHandler → Option RegisterHandler
  | _, [], handler => some handler
  | p, .read byte currPos :: steps, handler => do
    let t ← dfa.transition? p byte
    let handler ← processRegOps t.regOps currPos handler
    dfa.walkRegisters t.destState steps handler
  | p, .record currPos :: steps, handler => do
    let s ← dfa.state? p
    let handler ← processRegOps s.acceptingOps currPos handler
    dfa.walkRegisters p steps handler

/-- The operations of a transition or of a state. -/
def HasOps (dfa : Dfa) (ops : List RegisterOperation) : Prop :=
  (∃ p byte t, dfa.transition? p byte = some t ∧ ops = t.regOps) ∨
    ∃ p s, dfa.state? p = some s ∧ ops = s.acceptingOps

/-- The handlers that the DFA goes through: the one it is generated with, the
ones that replace a released one, and what its operations make of them. -/
inductive Handles (dfa : Dfa) : RegisterHandler → Prop where
  | generated : Handles dfa dfa.regHandler
  | released : Handles dfa dfa.newRegHandler
  | processed {handler handler' : RegisterHandler} {ops : List RegisterOperation} {currPos : Nat}
      (h : Handles dfa handler) (hops : dfa.HasOps ops)
      (hrun : processRegOps ops currPos handler = some handler') : Handles dfa handler'

/-- The final register of a tag. -/
def IsFinal (dfa : Dfa) (r : Nat) : Prop := ∃ t, dfa.tagIdToFinalRegId.find? t = some r

/-- The operations are on registers that exist.  Those of the transitions stay
off the final registers, and those of the states write only final registers and
read only others. -/
structure WellFormedOps (dfa : Dfa) : Prop where
  exist : ∀ ops, dfa.HasOps ops → ∀ op ∈ ops, op.regId < dfa.regHandler.getNumRegs ∧
    (∀ r, op.Reads r → r < dfa.regHandler.getNumRegs) ∧
    (op.type = .copy → ∃ r, op.copyRegId = some r)
  transitions : ∀ p byte t, dfa.transition? p byte = some t → ∀ op ∈ t.regOps,
    ¬ dfa.IsFinal op.regId ∧ ∀ r, op.Reads r → ¬ dfa.IsFinal r
  accepting : ∀ p s, dfa.state? p = some s → ∀ op ∈ s.acceptingOps,
    dfa.IsFinal op.regId ∧ ∀ r, op.Reads r → ¬ dfa.IsFinal r

variable {dfa : Dfa} {handler handler' : RegisterHandler} {ops : List RegisterOperation}
variable {currPos : Nat}

/-- What holds of every handler of the DFA. -/
structure Fits (dfa : Dfa) (handler : RegisterHandler) : Prop where
  pointed : handler.Pointed
  numRegs : handler.getNumRegs = dfa.regHandler.getNumRegs

theorem WellFormedRegisters.opsBelow (h : dfa.WellFormedRegisters) (hops : dfa.HasOps ops) :
    OpsBelow dfa.regHandler.getNumRegs ops := by
  rcases hops with ⟨p, byte, t, ht, rfl⟩ | ⟨p, s, hs, rfl⟩
  · exact h.transitions p byte t ht
  · exact h.accepting p s hs

/-- The operations of the DFA run on a handler that fits, and it fits again. -/
theorem Fits.processRegOps (hfits : dfa.Fits handler) (h : dfa.WellFormedRegisters)
    (hops : dfa.HasOps ops) (currPos : Nat) :
    ∃ handler', processRegOps ops currPos handler = some handler' ∧ dfa.Fits handler' ∧
      handler'.getReversedPositions =
        ops.foldl (fun store op => stepPositions currPos op store)
          handler.getReversedPositions ∧
      handler'.mostRecentPosition = runRegOps ops currPos handler.mostRecentPosition := by
  obtain ⟨limit, hlimit, hpos, hwithin⟩ := hfits.pointed.exists_within (toPosition currPos)
  have hbelow : OpsBelow handler.getNumRegs ops := by
    rw [hfits.numRegs]
    exact h.opsBelow hops
  obtain ⟨handler', hrun, hnum, hwithin'⟩ := exists_processRegOps hwithin hbelow hpos hlimit
  refine ⟨handler', hrun, ⟨hwithin'.lt_length, hnum.trans hfits.numRegs⟩, ?_, ?_⟩
  · exact getReversedPositions_eq_foldl hwithin hbelow hlimit hpos hrun
  · exact mostRecentPosition_processRegOps hwithin hbelow hlimit hpos hrun

theorem Handles.fits (hhandles : dfa.Handles handler) (h : dfa.WellFormedRegisters) :
    dfa.Fits handler := by
  induction hhandles with
  | generated => exact ⟨(h.unused.within (Int.le_refl 0)).lt_length, rfl⟩
  | released =>
    refine ⟨pointed_addRegisters _, ?_⟩
    show (RegisterHandler.new.addRegisters dfa.regHandler.getNumRegs).getNumRegs = _
    simp
  | @processed handler handler' ops currPos _ hops hrun ih =>
    obtain ⟨handler'', hrun', hfits, -⟩ := ih.processRegOps h hops currPos
    obtain rfl : handler' = handler'' := Option.some.inj (hrun.symm.trans hrun')
    exact hfits

/-! ## A match on the way -/

/-- Both handlers have the same positions in all registers but the final ones. -/
def SameTracking (dfa : Dfa) (handler handler' : RegisterHandler) : Prop :=
  ∀ r, ¬ dfa.IsFinal r → handler.getReversedPositions r = handler'.getReversedPositions r

variable {other other' : RegisterHandler}

theorem SameTracking.read (hsame : dfa.SameTracking handler other) (hfits : dfa.Fits handler)
    (hother : dfa.Fits other) (hregs : dfa.WellFormedRegisters) (h : dfa.WellFormedOps)
    {p byte : Nat} {t : DfaTransition} (ht : dfa.transition? p byte = some t) (currPos : Nat) :
    ∃ handler' other', processRegOps t.regOps currPos handler = some handler' ∧
      processRegOps t.regOps currPos other = some other' ∧ dfa.Fits handler' ∧
      dfa.Fits other' ∧ dfa.SameTracking handler' other' := by
  have hops : dfa.HasOps t.regOps := Or.inl ⟨p, byte, t, ht, rfl⟩
  obtain ⟨handler', hrun, hfits', hpositions, -⟩ := hfits.processRegOps hregs hops currPos
  obtain ⟨other', hrun', hother', hpositions', -⟩ := hother.processRegOps hregs hops currPos
  refine ⟨handler', other', hrun, hrun', hfits', hother', fun r hr => ?_⟩
  rw [hpositions, hpositions']
  exact foldl_stepPositions_agree (h.transitions p byte t ht) hsame r hr

theorem SameTracking.record (hsame : dfa.SameTracking handler other) (hfits : dfa.Fits handler)
    (hregs : dfa.WellFormedRegisters) (h : dfa.WellFormedOps) {p : Nat} {s : DfaState}
    (hs : dfa.state? p = some s) (currPos : Nat) :
    ∃ handler', processRegOps s.acceptingOps currPos handler = some handler' ∧
      dfa.Fits handler' ∧ dfa.SameTracking handler' other := by
  have hops : dfa.HasOps s.acceptingOps := Or.inr ⟨p, s, hs, rfl⟩
  obtain ⟨handler', hrun, hfits', hpositions, -⟩ := hfits.processRegOps hregs hops currPos
  refine ⟨handler', hrun, hfits', fun r hr => ?_⟩
  rw [hpositions, foldl_stepPositions_frame]
  · exact hsame r hr
  · intro op hop heq
    rw [← heq] at hr
    exact hr (h.accepting p s hs op hop).1

/-- The steps run, and without the recorded matches the registers that are not
final get the same positions. -/
theorem SameTracking.walkRegisters (hregs : dfa.WellFormedRegisters) (h : dfa.WellFormedOps)
    (hstates : dfa.WellFormed) {steps : List LexStep} {p q : Nat}
    (hp : p < dfa.states.length) (hwalk : dfa.walk p steps = some q)
    (hsame : dfa.SameTracking handler other) (hfits : dfa.Fits handler)
    (hother : dfa.Fits other) :
    ∃ handler' other', dfa.walkRegisters p steps handler = some handler' ∧
      dfa.walkRegisters p (steps.filter (·.isRead)) other = some other' ∧
      dfa.Fits handler' ∧ dfa.Fits other' ∧ dfa.SameTracking handler' other' := by
  induction steps generalizing p handler other with
  | nil => exact ⟨handler, other, rfl, rfl, hfits, hother, hsame⟩
  | cons step steps ih =>
    cases step with
    | read byte currPos =>
      obtain ⟨t, ht, hrest⟩ := Option.bind_eq_some_iff.1 hwalk
      obtain ⟨mid, mid', hmid, hmid', hfits₁, hother₁, hsame₁⟩ :=
        hsame.read hfits hother hregs h ht currPos
      obtain ⟨handler', other', hrun, hrun', hspec⟩ :=
        ih (hstates.dest p byte t ht) hrest hsame₁ hfits₁ hother₁
      refine ⟨handler', other', ?_, ?_, hspec⟩
      · unfold Dfa.walkRegisters
        simp only [ht, hmid, hrun, Option.bind_eq_bind, Option.bind_some]
      · rw [List.filter_cons_of_pos rfl]
        unfold Dfa.walkRegisters
        simp only [ht, hmid', hrun', Option.bind_eq_bind, Option.bind_some]
    | record currPos =>
      have hs : dfa.state? p = some dfa.states[p] := List.getElem?_eq_getElem hp
      obtain ⟨mid, hmid, hfits₁, hsame₁⟩ := hsame.record hfits hregs h hs currPos
      obtain ⟨handler', other', hrun, hrun', hspec⟩ := ih hp hwalk hsame₁ hfits₁ hother
      refine ⟨handler', other', ?_, hrun', hspec⟩
      unfold Dfa.walkRegisters
      simp only [hs, hmid, hrun, Option.bind_eq_bind, Option.bind_some]

/-! ## The generated DFA -/

section Generation

variable {nfa : Nfa} {regMapOrder : List (Nat × Nat) → List (Nat × Nat)} {fuel : Nat}

/-- The operations of a state come from a set that assigns a register to each
tag. -/
theorem exists_set_of_generate (h : generate nfa regMapOrder fuel = some dfa) {p : Nat}
    {s : DfaState} (hs : dfa.state? p = some s) :
    ∃ S, AssignsTags nfa.numTags dfa.regHandler.getNumRegs S ∧
      s.matchingVariableIds =
        (newState nfa (initialTagIdToFinalRegId nfa.numTags) S).matchingVariableIds ∧
      s.acceptingOps = (newState nfa (initialTagIdToFinalRegId nfa.numTags) S).acceptingOps := by
  obtain ⟨g, hg, rfl⟩ := Option.map_eq_some_iff.1 h
  have hreached := reached_of_determinize hg
  obtain ⟨S₀, hinv⟩ := hreached.loopInvariant
  obtain ⟨S, hS⟩ := hinv.setOfState p (List.getElem?_eq_some_iff.1 hs).1
  obtain ⟨s', hs', hids, hops⟩ := hinv.stateOfSet S p hS
  obtain rfl : s = s' := Option.some.inj (hs.symm.trans hs')
  rw [hinv.final] at hids hops
  exact ⟨S, hreached.assignsTags hS, hids, hops⟩

theorem isFinal_iff_of_generate (h : generate nfa regMapOrder fuel = some dfa) {r : Nat} :
    dfa.IsFinal r ↔ ∃ t < nfa.numTags, r = nfa.numTags + t := by
  obtain ⟨g, hg, rfl⟩ := Option.map_eq_some_iff.1 h
  obtain ⟨S₀, hinv⟩ := (reached_of_determinize hg).loopInvariant
  unfold IsFinal
  rw [hinv.final]
  simp only [find?_initialTagIdToFinalRegId]
  constructor
  · intro hfinal
    obtain ⟨t, ht⟩ := hfinal
    split_ifs at ht with hlt
    exact ⟨t, hlt, (Option.some.inj ht).symm⟩
  · intro hr
    obtain ⟨t, hlt, rfl⟩ := hr
    exact ⟨t, if_pos hlt⟩

theorem not_isFinal_iff_of_generate (h : generate nfa regMapOrder fuel = some dfa) {r : Nat} :
    ¬ dfa.IsFinal r ↔ NotFinal nfa.numTags r := by
  rw [isFinal_iff_of_generate h]
  unfold NotFinal
  constructor
  · intro hno
    by_contra hr
    exact hno ⟨r - nfa.numTags, by omega, by omega⟩
  · intro hr hfinal
    obtain ⟨t, ht, heq⟩ := hfinal
    omega

theorem wellFormedOps_of_generate_nfa (horder : ∀ regMap, (regMapOrder regMap).Perm regMap)
    (h : generate nfa regMapOrder fuel = some dfa) : dfa.WellFormedOps := by
  have hregs := wellFormedRegisters_of_generate horder h
  have hnot := @not_isFinal_iff_of_generate dfa nfa regMapOrder fuel h
  constructor
  · intro ops hops op hop
    obtain ⟨hlt, hcopy⟩ := hregs.opsBelow hops op hop
    refine ⟨hlt, fun r hr => ?_, fun htype => ?_⟩
    · obtain ⟨src, hsrc, hid⟩ := hcopy hr.1
      obtain rfl : src = r := Option.some.inj (hid.symm.trans hr.2)
      exact hsrc
    · obtain ⟨src, -, hid⟩ := hcopy htype
      exact ⟨src, hid⟩
  · intro p byte t ht op hop
    obtain ⟨g, hg, rfl⟩ := Option.map_eq_some_iff.1 h
    obtain ⟨hreg, hsrc⟩ := (reached_of_determinize hg).opsAvoid horder p byte t ht op hop
    exact ⟨hnot.2 hreg, fun r hr => hnot.2 (hsrc r hr.2)⟩
  · intro p s hs op hop
    obtain ⟨S, hS, -, hops⟩ := exists_set_of_generate h hs
    rw [hops] at hop
    obtain ⟨c, hc, t, ht, hop⟩ := exists_of_mem_acceptingOps hop
    refine ⟨(isFinal_iff_of_generate h).2 ⟨t, ht, regId_acceptingOp hop⟩, fun r hr => ?_⟩
    have hinstruction : op.toInstruction 0 = .copy (nfa.numTags + t) r := by
      unfold RegisterOperation.toInstruction
      rw [hr.1, hr.2, regId_acceptingOp hop]
      rfl
    exact hnot.2 (hS.notFinal c hc t r (source_acceptingOp hop hinstruction))

/-- What a match leaves in the registers depends on those that are not final. -/
theorem SameTracking.mostRecentPosition (horder : ∀ regMap, (regMapOrder regMap).Perm regMap)
    (h : generate nfa regMapOrder fuel = some dfa) {p : Nat} {s : DfaState}
    (hs : dfa.state? p = some s) (haccepting : s.isAccepting)
    (hsame : dfa.SameTracking handler other) (hfits : dfa.Fits handler)
    (hother : dfa.Fits other) (currPos : Nat) :
    ∃ handler' other', processRegOps s.acceptingOps currPos handler = some handler' ∧
      processRegOps s.acceptingOps currPos other = some other' ∧
      handler'.mostRecentPosition = other'.mostRecentPosition := by
  have hregs := wellFormedRegisters_of_generate horder h
  have hops : dfa.HasOps s.acceptingOps := Or.inr ⟨p, s, hs, rfl⟩
  obtain ⟨handler', hrun, -, hpositions, hleft⟩ := hfits.processRegOps hregs hops currPos
  obtain ⟨other', hrun', -, hpositions', hleft'⟩ := hother.processRegOps hregs hops currPos
  refine ⟨handler', other', hrun, hrun', funext fun r => ?_⟩
  obtain ⟨S, hS, hids, hacceptingOps⟩ := exists_set_of_generate h hs
  by_cases hr : dfa.IsFinal r
  · obtain ⟨t, ht, rfl⟩ := (isFinal_iff_of_generate h).1 hr
    obtain ⟨last, hlast⟩ : ∃ last, (acceptingConfigurations nfa S).getLast? = some last := by
      apply Option.isSome_iff_exists.1
      rw [List.getLast?_isSome]
      intro hnil
      have hne : s.matchingVariableIds ≠ [] := of_decide_eq_true haccepting
      rw [hids, matchingVariableIds_newState] at hne
      apply hne
      rw [List.filterMap_eq_nil_iff]
      intro c hc
      have hnone := List.filter_eq_nil_iff.1 hnil c hc
      simpa using hnone
    have hmem : last ∈ S := (List.mem_filter.1 (List.mem_of_getLast? hlast)).1
    have hsource : prescribedPosition last t currPos handler.mostRecentPosition =
        prescribedPosition last t currPos other.mostRecentPosition := by
      unfold prescribedPosition
      cases last.getTagLookahead t with
      | some tagOp => rfl
      | none =>
        obtain ⟨src, hsrc⟩ := hS.total last hmem t ht
        have hnot := (not_isFinal_iff_of_generate h).2 (hS.notFinal last hmem t src hsrc)
        show (last.tagIdToRegIds.find? t).bind handler.mostRecentPosition =
          (last.tagIdToRegIds.find? t).bind other.mostRecentPosition
        rw [hsrc]
        show (handler.getReversedPositions src).bind List.head? =
          (other.getReversedPositions src).bind List.head?
        rw [hsame src hnot]
    rw [hleft, hleft', hacceptingOps, runRegOps_acceptingOps hS hlast ht,
      runRegOps_acceptingOps hS hlast ht, hsource]
  · have hframe : ∀ op ∈ s.acceptingOps, op.regId ≠ r := by
      intro op hop heq
      have hwrites := ((wellFormedOps_of_generate_nfa horder h).accepting p s hs op hop).1
      rw [heq] at hwrites
      exact hr hwrites
    unfold RegisterHandler.mostRecentPosition
    rw [hpositions, hpositions', foldl_stepPositions_frame hframe,
      foldl_stepPositions_frame hframe, hsame r hr]

end Generation

/-- Matches that are recorded on the way leave the positions of the registers that
are not final, and the positions that a match at the end records, as they are
without them. -/
def RecordsIndependently (dfa : Dfa) (handler : RegisterHandler) : Prop :=
  ∀ p q steps, p < dfa.states.length → dfa.walk p steps = some q →
    ∃ handler' other', dfa.walkRegisters p steps handler = some handler' ∧
      dfa.walkRegisters p (steps.filter (·.isRead)) handler = some other' ∧
      dfa.SameTracking handler' other' ∧
      ∀ s, dfa.state? q = some s → s.isAccepting → ∀ currPos, ∃ recorded recorded',
        processRegOps s.acceptingOps currPos handler' = some recorded ∧
        processRegOps s.acceptingOps currPos other' = some recorded' ∧
        recorded.mostRecentPosition = recorded'.mostRecentPosition

/-- The register operations of a generated DFA are well-formed, they never throw,
and a match that is recorded does not disturb a longer one. -/
theorem wellFormedOps_of_generate {rules : List LexicalRule}
    {regMapOrder : List (Nat × Nat) → List (Nat × Nat)} {fuel : Nat} {dfa : Dfa}
    (horder : ∀ regMap, (regMapOrder regMap).Perm regMap)
    (h : generate (Nfa.ofRules rules) regMapOrder fuel = some dfa) :
    dfa.WellFormedOps ∧
      ∀ handler, dfa.Handles handler →
        (∀ ops, dfa.HasOps ops → ∀ currPos, ∃ handler',
          processRegOps ops currPos handler = some handler') ∧
        dfa.RecordsIndependently handler := by
  have hregs := wellFormedRegisters_of_generate horder h
  have hops := wellFormedOps_of_generate_nfa horder h
  refine ⟨hops, fun handler hhandles => ⟨fun ops hasOps currPos => ?_, ?_⟩⟩
  · obtain ⟨handler', hrun, -⟩ := (hhandles.fits hregs).processRegOps hregs hasOps currPos
    exact ⟨handler', hrun⟩
  · intro p q steps hp hwalk
    have hfits := hhandles.fits hregs
    have hself : dfa.SameTracking handler handler := fun _ _ => rfl
    obtain ⟨handler', other', hrun, hrun', hfits', hother', hsame⟩ :=
      hself.walkRegisters hregs hops (wellFormed_of_generate h) hp hwalk hfits hfits
    exact ⟨handler', other', hrun, hrun', hsame, fun s hs haccepting currPos =>
      hsame.mostRecentPosition horder h hs haccepting hfits' hother' currPos⟩

/-- The DFA of the rules `(?<x>a)` and `a` has operations on both kinds of
registers. -/
theorem wellFormedOps_of_generate_overlapping :
    ∃ dfa, generate (Nfa.ofRules overlappingRules) id 16 = some dfa ∧
      (∃ p s, dfa.state? p = some s ∧ s.acceptingOps ≠ []) ∧
      dfa.WellFormedOps ∧
      ∀ handler, dfa.Handles handler →
        (∀ ops, dfa.HasOps ops → ∀ currPos, ∃ handler',
          processRegOps ops currPos handler = some handler') ∧
        dfa.RecordsIndependently handler := by
  have hcheck : ((generate (Nfa.ofRules overlappingRules) id 16).any
      fun dfa => (dfa.state? 1).any fun s => s.acceptingOps ≠ []) = true := by decide +kernel
  obtain ⟨dfa, hdfa, hstate⟩ := (Option.any_eq_true _ _).1 hcheck
  obtain ⟨s, hs, hops⟩ := (Option.any_eq_true _ _).1 hstate
  exact ⟨dfa, hdfa, ⟨1, s, hs, of_decide_eq_true hops⟩,
    wellFormedOps_of_generate (fun regMap => List.Perm.refl regMap) hdfa⟩

end Dfa

end LogSurgeon
