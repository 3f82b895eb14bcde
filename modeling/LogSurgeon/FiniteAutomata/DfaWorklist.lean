import LogSurgeon.FiniteAutomata.DfaTransitions
import LogSurgeon.FiniteAutomata.DfaMapping

/-!
# The worklist of the determinization

`Invariant` collects what holds of the DFA under construction after every
transition that is added: sets and states correspond, every transition leads to
the set that was computed for it or to one that it was mapped to, and no set
has a mapping to an earlier one.

Every state was created for a byte of an explored set.  `Spans` follows these
creations from the initial set on, so every set has a word that it was computed
for, byte by byte and without any mapping.
-/

namespace LogSurgeon.Dfa

open Lib

/-! ## Runs of the DFA -/

/-- The transition from state `p` on the byte. -/
def transition? (dfa : Dfa) (p byte : Nat) : Option DfaTransition :=
  (dfa.state? p).bind (·.getTransition byte)

/-- The state that the DFA reaches from `p` on the bytes. -/
def run (dfa : Dfa) : Nat → List UInt8 → Option Nat
  | p, [] => some p
  | p, b :: w => (dfa.transition? p b.toNat).bind fun t => dfa.run t.destState w

theorem run_cons (dfa : Dfa) (p : Nat) (b : UInt8) (w : List UInt8) :
    dfa.run p (b :: w) =
      (dfa.transition? p b.toNat).bind fun t => dfa.run t.destState w := rfl

theorem run_append (dfa : Dfa) (p : Nat) (v w : List UInt8) :
    dfa.run p (v ++ w) = (dfa.run p v).bind fun q => dfa.run q w := by
  induction v generalizing p with
  | nil => rfl
  | cons b v ih =>
    rw [List.cons_append, run_cons, run_cons, Option.bind_assoc]
    congr 1
    funext t
    exact ih t.destState

/-! ## New states -/

theorem addAcceptingOps_eq (s : DfaState) (ops : List RegisterOperation) :
    ops.foldl (·.addAcceptingOp) s = { s with acceptingOps := s.acceptingOps ++ ops } := by
  induction ops generalizing s with
  | nil => simp
  | cons op ops ih =>
    rw [List.foldl_cons, ih]
    simp [DfaState.addAcceptingOp]

/-- A new state has no transitions. -/
theorem bytesTransition_newState (nfa : Nfa) (final : OrderedMap Nat Nat)
    (configSet : ConfigurationSet) :
    (newState nfa final configSet).bytesTransition = OrderedMap.empty := by
  have hstep : ∀ (s : DfaState) (c : DeterminizationConfiguration),
      (addConfiguration nfa final s c).bytesTransition = s.bytesTransition := by
    intro s c
    unfold addConfiguration
    split
    · split
      · rw [addAcceptingOps_eq]
        rfl
      · rfl
    · rfl
  have hfold : ∀ (cs : List DeterminizationConfiguration) (s : DfaState),
      (cs.foldl (addConfiguration nfa final) s).bytesTransition = s.bytesTransition := by
    intro cs
    induction cs with
    | nil => exact fun s => rfl
    | cons c cs ih =>
      intro s
      rw [List.foldl_cons, ih, hstep]
  exact hfold _ _

namespace Determinization

/-! ## One transition -/

/-- The worklist with a state for the set. -/
def addState (nfa : Nfa) (g : Determinization) (configSet : ConfigurationSet) :
    Determinization where
  dfa := { g.dfa with
    states := g.dfa.states ++ [newState nfa g.dfa.tagIdToFinalRegId configSet] }
  dfaStates := g.dfaStates.insertOrAssign configSet g.dfa.states.length
  unexploredSets := g.unexploredSets ++ [configSet]

/-- The worklist with a transition. -/
def setTransition (g : Determinization) (source byte : Nat) (t : DfaTransition) :
    Determinization :=
  { g with dfa := { g.dfa with
      states := g.dfa.states.modify source (·.addByteTransition byte t) } }

/-- `t` leads to the set `D`, or to a set that `D` was mapped to. -/
def LeadsToSet (regMapOrder : List (Nat × Nat) → List (Nat × Nat)) (g : Determinization)
    (ops : List RegisterOperation) (D : ConfigurationSet) (t : DfaTransition) : Prop :=
  ∃ R, g.dfaStates.find? R = some t.destState ∧
    (R = D ∧ t.regOps = ops ∨
      ∃ regMap, tryGetMapping D R = some regMap ∧
        t.regOps = reassignTransitionRegOps (regMapOrder regMap) ops)

variable {nfa : Nfa} {regMapOrder : List (Nat × Nat) → List (Nat × Nat)} {fuel : Nat}
variable {g g' : Determinization}

/-- A transition leads to a set that is there, or to a new set that no set is
a mapping of. -/
theorem addTransition_cases (nfa : Nfa) (regMapOrder : List (Nat × Nat) → List (Nat × Nat))
    (source : Nat) (g : Determinization) (byte : Nat) (ops : List RegisterOperation)
    (D : ConfigurationSet) :
    (∃ t, LeadsToSet regMapOrder g ops D t ∧
      addTransition nfa regMapOrder source g (byte, ops, D) = g.setTransition source byte t) ∨
    (g.dfaStates.find? D = none ∧
      (∀ R i, g.dfaStates.find? R = some i → tryGetMapping D R = none) ∧
      addTransition nfa regMapOrder source g (byte, ops, D) =
        (g.addState nfa D).setTransition source byte ⟨ops, g.dfa.states.length⟩) := by
  cases hfind : g.dfaStates.find? D with
  | some i =>
    left
    refine ⟨⟨ops, i⟩, ⟨D, hfind, Or.inl ⟨rfl, rfl⟩⟩, ?_⟩
    simp only [addTransition, createOrGetDfaState, hfind]
    rfl
  | none =>
    cases hmap : g.dfaStates.toList.findSome? fun entry =>
        (tryGetMapping D entry.1).map fun regMap => (entry.2, regMap) with
    | some found =>
      left
      obtain ⟨⟨R, i⟩, hentry, hfound⟩ := List.exists_of_findSome?_eq_some hmap
      obtain ⟨regMap, hregMap, rfl⟩ := Option.map_eq_some_iff.1 hfound
      refine ⟨⟨reassignTransitionRegOps (regMapOrder regMap) ops, i⟩,
        ⟨R, OrderedMap.mem_toList_iff.1 hentry, Or.inr ⟨regMap, hregMap, rfl⟩⟩, ?_⟩
      simp only [addTransition, createOrGetDfaState, hfind, hmap]
      rfl
    | none =>
      right
      refine ⟨rfl, ?_, ?_⟩
      · intro R i hR
        have hnone := List.findSome?_eq_none_iff.1 hmap (R, i)
          (OrderedMap.mem_toList_iff.2 hR)
        exact Option.map_eq_none_iff.1 hnone
      · simp only [addTransition, createOrGetDfaState, hfind, hmap]
        rfl

/-! ## Transitions and sets of the changed worklist -/

theorem transition?_setTransition {source byte : Nat} {t : DfaTransition} {p byte' : Nat}
    (hsource : source < g.dfa.states.length) :
    (g.setTransition source byte t).dfa.transition? p byte' =
      if p = source ∧ byte' = byte then some t else g.dfa.transition? p byte' := by
  unfold transition? Dfa.state? setTransition
  simp only [List.getElem?_modify]
  by_cases hp : source = p
  · subst hp
    rw [List.getElem?_eq_getElem hsource]
    simp [DfaState.getTransition, DfaState.addByteTransition]
  · cases g.dfa.states[p]? <;> simp [hp, Ne.symm hp]

theorem transition?_addState (D : ConfigurationSet) (p byte : Nat) :
    (g.addState nfa D).dfa.transition? p byte = g.dfa.transition? p byte := by
  unfold transition? Dfa.state? addState
  rcases Nat.lt_trichotomy p g.dfa.states.length with hlt | rfl | hgt
  · rw [List.getElem?_append_left hlt]
  · rw [List.getElem?_concat_length, List.getElem?_eq_none_iff.2 (Nat.le_refl _)]
    show (newState _ _ _).bytesTransition.find? byte = none
    rw [bytesTransition_newState, OrderedMap.find?_empty]
  · rw [List.getElem?_eq_none_iff.2 (by simp; omega),
      List.getElem?_eq_none_iff.2 (by omega)]

theorem transition?_lt {dfa : Dfa} {p byte : Nat} {t : DfaTransition}
    (h : dfa.transition? p byte = some t) : p < dfa.states.length := by
  obtain ⟨s, hs, _⟩ := Option.bind_eq_some_iff.1 h
  exact (List.getElem?_eq_some_iff.1 hs).1

/-! ## The invariant -/

/-- The registers of the configurations are below `n`. -/
def RegsBelow (n : Nat) (S : ConfigurationSet) : Prop :=
  ∀ c ∈ S, ∀ t r, c.tagIdToRegIds.find? t = some r → r < n

/-- Exploring `S` computes the operations and the set for the byte.  `S` uses
registers below `low`, and the new registers start there. -/
def Computed (nfa : Nfa) (fuel low : Nat) (S : ConfigurationSet) (byte : Nat)
    (ops : List RegisterOperation) (D : ConfigurationSet) : Prop :=
  RegsBelow low S ∧ ∃ regHandler regHandler' transitions, regHandler.getNumRegs = low ∧
    getTransitions nfa fuel nfa.numTags regHandler S = some (regHandler', transitions) ∧
    transitions.find? byte = some (ops, D)

/-- `S`, `i` is a set with its state, and `D`, `j` was created from it byte by
byte along the word.  States are created after the state that they are created
for, so the states along the word are all different. -/
inductive Spans (nfa : Nfa) (fuel : Nat) (g : Determinization) (S : ConfigurationSet)
    (i : Nat) : List UInt8 → ConfigurationSet → Nat → Prop where
  | refl : Spans nfa fuel g S i [] S i
  | step {w : List UInt8} {b : UInt8} {R D : ConfigurationSet} {k low : Nat}
      {ops : List RegisterOperation} {t : DfaTransition} (h : Spans nfa fuel g S i w R k)
      (ht : g.dfa.transition? k b.toNat = some t) (hlt : k < t.destState)
      (hcomputed : Computed nfa fuel low R b.toNat ops D)
      (hD : g.dfaStates.find? D = some t.destState) :
      Spans nfa fuel g S i (w ++ [b]) D t.destState

/-- What holds of the worklist after every transition that is added. -/
structure Invariant (nfa : Nfa) (regMapOrder : List (Nat × Nat) → List (Nat × Nat))
    (fuel : Nat) (S₀ : ConfigurationSet) (g : Determinization) : Prop where
  root : g.dfaStates.find? S₀ = some 0
  final : g.dfa.tagIdToFinalRegId = initialTagIdToFinalRegId nfa.numTags
  stateOfSet : ∀ S i, g.dfaStates.find? S = some i →
    ∃ s, g.dfa.state? i = some s ∧
      s.matchingVariableIds =
        (newState nfa g.dfa.tagIdToFinalRegId S).matchingVariableIds ∧
      s.acceptingOps = (newState nfa g.dfa.tagIdToFinalRegId S).acceptingOps
  setOfState : ∀ i < g.dfa.states.length, ∃ S, g.dfaStates.find? S = some i
  injective : ∀ S S' i, g.dfaStates.find? S = some i → g.dfaStates.find? S' = some i → S = S'
  registers : ∀ S i, g.dfaStates.find? S = some i →
    RegsBelow g.dfa.regHandler.getNumRegs S
  transitions : ∀ S i byte t, g.dfaStates.find? S = some i →
    g.dfa.transition? i byte = some t →
    ∃ low ops D, Computed nfa fuel low S byte ops D ∧ LeadsToSet regMapOrder g ops D t ∧
      ∀ R j, g.dfaStates.find? R = some j → j ≤ i → RegsBelow low R
  unmapped : ∀ S S' i j, g.dfaStates.find? S = some i → g.dfaStates.find? S' = some j →
    j < i → tryGetMapping S S' = none
  queued : ∀ S ∈ g.unexploredSets, ∃ i, g.dfaStates.find? S = some i ∧
    ∀ byte, g.dfa.transition? i byte = none
  nodup : g.unexploredSets.Nodup

theorem Invariant.lt_length {S₀ : ConfigurationSet}
    (h : Invariant nfa regMapOrder fuel S₀ g) {S : ConfigurationSet} {i : Nat}
    (hS : g.dfaStates.find? S = some i) : i < g.dfa.states.length := by
  obtain ⟨s, hs, -⟩ := h.stateOfSet S i hS
  exact (List.getElem?_eq_some_iff.1 hs).1

/-- Every state was created along some word. -/
def Spanned (nfa : Nfa) (fuel : Nat) (S₀ : ConfigurationSet) (g : Determinization) : Prop :=
  ∀ S i, g.dfaStates.find? S = some i → ∃ w, Spans nfa fuel g S₀ 0 w S i

/-- Sets keep their states, and transitions stay. -/
structure Grows (g g' : Determinization) : Prop where
  sets : ∀ S i, g.dfaStates.find? S = some i → g'.dfaStates.find? S = some i
  transitions : ∀ p byte t, g.dfa.transition? p byte = some t →
    g'.dfa.transition? p byte = some t

theorem Grows.refl (g : Determinization) : Grows g g := ⟨fun _ _ h => h, fun _ _ _ h => h⟩

theorem Grows.trans {g'' : Determinization} (h : Grows g g') (h' : Grows g' g'') :
    Grows g g'' :=
  ⟨fun S i hS => h'.sets S i (h.sets S i hS),
    fun p byte t ht => h'.transitions p byte t (h.transitions p byte t ht)⟩

theorem LeadsToSet.mono {ops : List RegisterOperation} {D : ConfigurationSet}
    {t : DfaTransition} (h : LeadsToSet regMapOrder g ops D t) (hgrows : Grows g g') :
    LeadsToSet regMapOrder g' ops D t := by
  obtain ⟨R, hR, hops⟩ := h
  exact ⟨R, hgrows.sets R _ hR, hops⟩

/-- A set of the grown worklist whose state was there before was there itself. -/
theorem Grows.old {S₀ S₀' R : ConfigurationSet} {j : Nat} (hgrows : Grows g g')
    (h : Invariant nfa regMapOrder fuel S₀ g) (h' : Invariant nfa regMapOrder fuel S₀' g')
    (hR : g'.dfaStates.find? R = some j) (hj : j < g.dfa.states.length) :
    g.dfaStates.find? R = some j := by
  obtain ⟨R', hR'⟩ := h.setOfState j hj
  rw [h'.injective R R' j hR (hgrows.sets R' j hR')]
  exact hR'

theorem Spans.mono {S D : ConfigurationSet} {i j : Nat} {w : List UInt8}
    (h : Spans nfa fuel g S i w D j) (hgrows : Grows g g') : Spans nfa fuel g' S i w D j := by
  induction h with
  | refl => exact .refl
  | step _ ht hlt hcomputed hD ih =>
    exact .step ih (hgrows.transitions _ _ _ ht) hlt hcomputed (hgrows.sets _ _ hD)

/-- The word leads the DFA from the one state to the other. -/
theorem Spans.run {S D : ConfigurationSet} {i j : Nat} {w : List UInt8}
    (h : Spans nfa fuel g S i w D j) : g.dfa.run i w = some j := by
  induction h with
  | refl => rfl
  | step _ ht _ _ _ ih =>
    rw [run_append, ih]
    show (g.dfa.transition? _ _).bind _ = _
    rw [ht]
    rfl

theorem Spanned.mono {S₀ : ConfigurationSet} (h : Spanned nfa fuel S₀ g) {S : ConfigurationSet}
    {i : Nat} (hS : g.dfaStates.find? S = some i) (hgrows : Grows g g') :
    ∃ w, Spans nfa fuel g' S₀ 0 w S i := by
  obtain ⟨w, hw⟩ := h S i hS
  exact ⟨w, hw.mono hgrows⟩

theorem Computed.lt {S D : ConfigurationSet} {byte low : Nat} {ops : List RegisterOperation}
    (h : Computed nfa fuel low S byte ops D) : byte < cSizeOfByte := by
  obtain ⟨-, rh, rh', ts, -, hts, hfind⟩ := h
  obtain ⟨m, -, -, hbytes⟩ := getTransitions_spec hts
  obtain ⟨c, -, next, hstep⟩ := (hbytes byte).1.1 (by rw [hfind]; rfl)
  exact hstep.1

/-! ### A new state -/

theorem find?_addState (D S : ConfigurationSet) :
    (g.addState nfa D).dfaStates.find? S =
      if S = D then some g.dfa.states.length else g.dfaStates.find? S :=
  OrderedMap.find?_insertOrAssign D S _ _

theorem grows_addState {D : ConfigurationSet} (hD : g.dfaStates.find? D = none) :
    Grows g (g.addState nfa D) where
  sets S i hS := by
    have hne : S ≠ D := by
      rintro rfl
      rw [hD] at hS
      cases hS
    rw [find?_addState, if_neg hne, hS]
  transitions p byte t ht := by
    rw [transition?_addState, ht]

/-- A set without mapping to any other gets a state. -/
theorem Invariant.addState {S₀ D : ConfigurationSet}
    (h : Invariant nfa regMapOrder fuel S₀ g) (hD : g.dfaStates.find? D = none)
    (hregs : RegsBelow g.dfa.regHandler.getNumRegs D)
    (hunmapped : ∀ R i, g.dfaStates.find? R = some i → tryGetMapping D R = none) :
    Invariant nfa regMapOrder fuel S₀ (g.addState nfa D) := by
  have hgrows : Grows g (g.addState nfa D) := grows_addState hD
  have hold : ∀ S i, (g.addState nfa D).dfaStates.find? S = some i →
      S = D ∧ i = g.dfa.states.length ∨ S ≠ D ∧ g.dfaStates.find? S = some i := by
    intro S i hS
    rw [find?_addState] at hS
    split at hS
    · rename_i heq
      exact Or.inl ⟨heq, (Option.some.inj hS).symm⟩
    · rename_i hne
      exact Or.inr ⟨hne, hS⟩
  refine ⟨hgrows.sets _ _ h.root, h.final, ?_, ?_, ?_, ?_, ?_, ?_, ?_, ?_⟩
  · intro S i hS
    show ∃ s, (g.dfa.states ++ _)[i]? = some s ∧ _
    rcases hold S i hS with ⟨rfl, rfl⟩ | ⟨_, hS⟩
    · exact ⟨_, List.getElem?_concat_length, rfl, rfl⟩
    · obtain ⟨s, hs, hids⟩ := h.stateOfSet S i hS
      exact ⟨s, by rw [List.getElem?_append_left (h.lt_length hS)]; exact hs, hids⟩
  · intro i hi
    have hi : i < g.dfa.states.length + 1 := by simpa [Determinization.addState] using hi
    rcases Nat.lt_succ_iff_lt_or_eq.1 hi with hlt | rfl
    · obtain ⟨S, hS⟩ := h.setOfState i hlt
      exact ⟨S, hgrows.sets S i hS⟩
    · exact ⟨D, by rw [find?_addState, if_pos rfl]⟩
  · intro S S' i hS hS'
    rcases hold S i hS with ⟨hD₁, hi₁⟩ | ⟨-, hold₁⟩ <;>
      rcases hold S' i hS' with ⟨hD₂, hi₂⟩ | ⟨-, hold₂⟩
    · rw [hD₁, hD₂]
    · have hlt := h.lt_length hold₂
      omega
    · have hlt := h.lt_length hold₁
      omega
    · exact h.injective S S' i hold₁ hold₂
  · intro S i hS
    rcases hold S i hS with ⟨rfl, rfl⟩ | ⟨_, hS⟩
    · exact hregs
    · exact h.registers S i hS
  · intro S i byte t hS ht
    rw [transition?_addState] at ht
    rcases hold S i hS with ⟨rfl, rfl⟩ | ⟨_, hS⟩
    · exact absurd (transition?_lt ht) (Nat.lt_irrefl _)
    · obtain ⟨low, ops, D', hcomputed, hleads, hlow⟩ := h.transitions S i byte t hS ht
      refine ⟨low, ops, D', hcomputed, hleads.mono hgrows, fun R j hR hle => ?_⟩
      have hlt := h.lt_length hS
      rcases hold R j hR with ⟨-, rfl⟩ | ⟨-, hR⟩
      · omega
      · exact hlow R j hR hle
  · intro S S' i j hS hS' hlt
    rcases hold S i hS with ⟨hD₁, hi₁⟩ | ⟨-, hold₁⟩ <;>
      rcases hold S' j hS' with ⟨hD₂, hj₂⟩ | ⟨-, hold₂⟩
    · omega
    · rw [hD₁]
      exact hunmapped S' j hold₂
    · have hi := h.lt_length hold₁
      omega
    · exact h.unmapped S S' i j hold₁ hold₂ hlt
  · intro S hS
    rcases List.mem_append.1 hS with hS | hS
    · obtain ⟨i, hi, hnone⟩ := h.queued S hS
      exact ⟨i, hgrows.sets S i hi, fun byte => by rw [transition?_addState, hnone]⟩
    · rw [List.mem_singleton.1 hS]
      refine ⟨g.dfa.states.length, by rw [find?_addState, if_pos rfl], fun byte => ?_⟩
      rw [transition?_addState]
      cases ht : g.dfa.transition? g.dfa.states.length byte with
      | none => rfl
      | some t => exact absurd (transition?_lt ht) (Nat.lt_irrefl _)
  · refine List.nodup_append.2 ⟨h.nodup, List.nodup_singleton D, ?_⟩
    intro S hS S' hS' heq
    rw [List.mem_singleton.1 hS'] at heq
    obtain ⟨i, hi, -⟩ := h.queued S hS
    rw [heq, hD] at hi
    cases hi

/-! ### A new transition -/

theorem grows_setTransition {source byte : Nat} {t : DfaTransition}
    (hsource : source < g.dfa.states.length)
    (hnone : g.dfa.transition? source byte = none) :
    Grows g (g.setTransition source byte t) where
  sets _ _ hS := hS
  transitions p byte' t' ht := by
    rw [transition?_setTransition hsource]
    split
    · rename_i heq
      obtain ⟨rfl, rfl⟩ := heq
      rw [hnone] at ht
      cases ht
    · exact ht

/-- A set that is being explored gets the transition that was computed. -/
theorem Invariant.setTransition {S₀ S D : ConfigurationSet} {source byte low : Nat}
    {ops : List RegisterOperation} {t : DfaTransition}
    (h : Invariant nfa regMapOrder fuel S₀ g) (hS : g.dfaStates.find? S = some source)
    (hexplored : S ∉ g.unexploredSets) (hcomputed : Computed nfa fuel low S byte ops D)
    (hleads : LeadsToSet regMapOrder g ops D t)
    (hlow : ∀ R j, g.dfaStates.find? R = some j → j ≤ source → RegsBelow low R)
    (hnone : g.dfa.transition? source byte = none) :
    Invariant nfa regMapOrder fuel S₀ (g.setTransition source byte t) := by
  have hsource := h.lt_length hS
  have hgrows : Grows g (g.setTransition source byte t) := grows_setTransition hsource hnone
  have hlen : (g.setTransition source byte t).dfa.states.length = g.dfa.states.length := by
    simp [Determinization.setTransition]
  refine ⟨h.root, h.final, ?_, ?_, h.injective, h.registers, ?_, h.unmapped, ?_, h.nodup⟩
  · intro S' i hS'
    obtain ⟨s, hs, hids, hops⟩ := h.stateOfSet S' i hS'
    have hs : g.dfa.states[i]? = some s := hs
    show ∃ s, (g.dfa.states.modify source _)[i]? = some s ∧ _
    rw [List.getElem?_modify, hs]
    split
    · exact ⟨_, rfl, hids, hops⟩
    · exact ⟨s, rfl, hids, hops⟩
  · intro i hi
    rw [hlen] at hi
    exact h.setOfState i hi
  · intro S' i byte' t' hS' ht'
    rw [transition?_setTransition hsource] at ht'
    split at ht'
    · rename_i heq
      obtain ⟨rfl, rfl⟩ := heq
      cases ht'
      rw [h.injective S' S i hS' hS]
      exact ⟨low, ops, D, hcomputed, hleads.mono hgrows, hlow⟩
    · obtain ⟨low', ops', D', hcomputed', hleads', hlow'⟩ := h.transitions S' i byte' t' hS' ht'
      exact ⟨low', ops', D', hcomputed', hleads'.mono hgrows, hlow'⟩
  · intro S' hS'
    obtain ⟨i, hi, hnone'⟩ := h.queued S' hS'
    refine ⟨i, hi, fun byte' => ?_⟩
    have hne : i ≠ source := by
      rintro rfl
      rw [h.injective S' S i hi hS] at hS'
      exact hexplored hS'
    rw [transition?_setTransition hsource, if_neg (fun heq => hne heq.1), hnone']

/-! ### Adding the transitions of an explored set -/

/-- The sets of the worklist grow, and the new ones are queued. -/
structure Progress (g g' : Determinization) : Prop extends Grows g g' where
  balance : g'.dfa.states.length + g.unexploredSets.length =
    g.dfa.states.length + g'.unexploredSets.length
  queueKept : ∀ S ∈ g.unexploredSets, S ∈ g'.unexploredSets
  newQueued : ∀ S i, g'.dfaStates.find? S = some i →
    g.dfaStates.find? S = some i ∨ S ∈ g'.unexploredSets
  oldUnqueued : ∀ S i, g.dfaStates.find? S = some i → S ∉ g.unexploredSets →
    S ∉ g'.unexploredSets
  regHandler : g'.dfa.regHandler = g.dfa.regHandler

theorem Progress.refl (g : Determinization) : Progress g g :=
  ⟨Grows.refl g, rfl, fun _ hS => hS, fun _ _ hS => Or.inl hS, fun _ _ _ hS => hS, rfl⟩

theorem Progress.trans {g'' : Determinization} (h : Progress g g') (h' : Progress g' g'') :
    Progress g g'' where
  toGrows := h.toGrows.trans h'.toGrows
  balance := by
    have := h.balance
    have := h'.balance
    omega
  queueKept S hS := h'.queueKept S (h.queueKept S hS)
  newQueued S i hS := by
    rcases h'.newQueued S i hS with hS | hS
    · exact (h.newQueued S i hS).imp_right (h'.queueKept S)
    · exact Or.inr hS
  oldUnqueued S i hS hnot := h'.oldUnqueued S i (h.sets S i hS) (h.oldUnqueued S i hS hnot)
  regHandler := h'.regHandler.trans h.regHandler

theorem progress_setTransition {source byte : Nat} {t : DfaTransition}
    (hgrows : Grows g (g.setTransition source byte t)) :
    Progress g (g.setTransition source byte t) where
  toGrows := hgrows
  balance := by simp [setTransition]
  queueKept _ hS := hS
  newQueued _ _ hS := Or.inl hS
  oldUnqueued _ _ _ hS := hS
  regHandler := rfl

theorem progress_addState {D : ConfigurationSet} (hD : g.dfaStates.find? D = none) :
    Progress g (g.addState nfa D) where
  toGrows := grows_addState hD
  balance := by
    simp only [addState, List.length_append, List.length_singleton]
    omega
  queueKept S hS := List.mem_append_left _ hS
  newQueued S i hS := by
    rw [find?_addState] at hS
    split at hS
    · rename_i heq
      exact Or.inr (List.mem_append_right _ (List.mem_singleton.2 heq))
    · exact Or.inl hS
  oldUnqueued S i hS hnot hmem := by
    rcases List.mem_append.1 hmem with hmem | hmem
    · exact hnot hmem
    · rw [List.mem_singleton.1 hmem, hD] at hS
      cases hS
  regHandler := rfl

variable {S₀ : ConfigurationSet}

/-- One transition of an explored set. -/
theorem addTransition_spec {S D : ConfigurationSet} {source byte low : Nat}
    {ops : List RegisterOperation} (h : Invariant nfa regMapOrder fuel S₀ g)
    (hspanned : Spanned nfa fuel S₀ g) (hS : g.dfaStates.find? S = some source)
    (hexplored : S ∉ g.unexploredSets) (hcomputed : Computed nfa fuel low S byte ops D)
    (hlow : ∀ R j, g.dfaStates.find? R = some j → j ≤ source → RegsBelow low R)
    (hregs : RegsBelow g.dfa.regHandler.getNumRegs D)
    (hnone : g.dfa.transition? source byte = none) :
    ∃ g', addTransition nfa regMapOrder source g (byte, ops, D) = g' ∧
      Invariant nfa regMapOrder fuel S₀ g' ∧ Spanned nfa fuel S₀ g' ∧ Progress g g' ∧
      ∀ byte', (g'.dfa.transition? source byte').isSome ↔
        byte' = byte ∨ (g.dfa.transition? source byte').isSome := by
  have hsource := h.lt_length hS
  rcases addTransition_cases nfa regMapOrder source g byte ops D with
    ⟨t, hleads, heq⟩ | ⟨hD, hunmapped, heq⟩
  · have hgrows : Grows g (g.setTransition source byte t) := grows_setTransition hsource hnone
    refine ⟨_, heq, h.setTransition hS hexplored hcomputed hleads hlow hnone, ?_,
      progress_setTransition hgrows, fun byte' => ?_⟩
    · exact fun S' i hS' => hspanned.mono hS' hgrows
    · rw [transition?_setTransition hsource]
      split <;> simp_all
  · have hprogress₁ : Progress g (g.addState nfa D) := progress_addState hD
    have hinv₁ := h.addState hD hregs hunmapped
    have hS₁ := hprogress₁.sets S source hS
    have hnone₁ : (g.addState nfa D).dfa.transition? source byte = none := by
      rw [transition?_addState, hnone]
    have hsource₁ := hinv₁.lt_length hS₁
    have hnew : (g.addState nfa D).dfaStates.find? D = some g.dfa.states.length := by
      rw [find?_addState, if_pos rfl]
    have hgrows₂ : Grows (g.addState nfa D)
        ((g.addState nfa D).setTransition source byte ⟨ops, g.dfa.states.length⟩) :=
      grows_setTransition hsource₁ hnone₁
    have hgrows := hprogress₁.toGrows.trans hgrows₂
    have hlow₁ : ∀ R j, (g.addState nfa D).dfaStates.find? R = some j → j ≤ source →
        RegsBelow low R := fun R j hR hle =>
      hlow R j (hprogress₁.toGrows.old h hinv₁ hR (hle.trans_lt hsource)) hle
    refine ⟨_, heq, hinv₁.setTransition hS₁ (hprogress₁.oldUnqueued S source hS hexplored)
      hcomputed ⟨D, hnew, Or.inl ⟨rfl, rfl⟩⟩ hlow₁ hnone₁, ?_,
      hprogress₁.trans (progress_setTransition hgrows₂), fun byte' => ?_⟩
    · intro S' i hS'
      have hfind : (g.addState nfa D).dfaStates.find? S' = some i := hS'
      rw [find?_addState] at hfind
      split at hfind
      · rename_i hD'
        subst hD'
        obtain rfl : g.dfa.states.length = i := Option.some.inj hfind
        obtain ⟨w, hw⟩ := hspanned S source hS
        have htoNat : (UInt8.ofNat byte).toNat = byte := by
          simp only [UInt8.toNat_ofNat']
          exact Nat.mod_eq_of_lt hcomputed.lt
        refine ⟨w ++ [UInt8.ofNat byte], .step (t := ⟨ops, g.dfa.states.length⟩)
          (hw.mono hgrows) ?_ hsource (htoNat.symm ▸ hcomputed) hS'⟩
        rw [htoNat, transition?_setTransition hsource₁, if_pos ⟨rfl, rfl⟩]
      · exact hspanned.mono hfind hgrows
    · rw [transition?_setTransition hsource₁, transition?_addState]
      split <;> simp_all

/-- The transitions of an explored set, one after the other. -/
theorem foldl_addTransition_spec {S : ConfigurationSet} {source low : Nat}
    (entries : List (Nat × List RegisterOperation × ConfigurationSet))
    (h : Invariant nfa regMapOrder fuel S₀ g) (hspanned : Spanned nfa fuel S₀ g)
    (hS : g.dfaStates.find? S = some source) (hexplored : S ∉ g.unexploredSets)
    (hlow : ∀ R j, g.dfaStates.find? R = some j → j ≤ source → RegsBelow low R)
    (hentries : ∀ e ∈ entries, Computed nfa fuel low S e.1 e.2.1 e.2.2 ∧
      RegsBelow g.dfa.regHandler.getNumRegs e.2.2 ∧ g.dfa.transition? source e.1 = none)
    (hnodup : (entries.map Prod.fst).Nodup) :
    ∃ g', entries.foldl (addTransition nfa regMapOrder source) g = g' ∧
      Invariant nfa regMapOrder fuel S₀ g' ∧ Spanned nfa fuel S₀ g' ∧ Progress g g' ∧
      ∀ byte, (g'.dfa.transition? source byte).isSome ↔
        byte ∈ entries.map Prod.fst ∨ (g.dfa.transition? source byte).isSome := by
  induction entries generalizing g with
  | nil => exact ⟨g, rfl, h, hspanned, Progress.refl g, by simp⟩
  | cons e entries ih =>
    obtain ⟨byte, ops, D⟩ := e
    obtain ⟨hcomputed, hregs, hnone⟩ := hentries (byte, ops, D) (by simp)
    obtain ⟨hfresh, hnodup⟩ := List.nodup_cons.1 hnodup
    obtain ⟨g₁, hg₁, hinv₁, hspanned₁, hprogress₁, hbytes₁⟩ :=
      addTransition_spec h hspanned hS hexplored hcomputed hlow hregs hnone
    have hlow₁ : ∀ R j, g₁.dfaStates.find? R = some j → j ≤ source → RegsBelow low R :=
      fun R j hR hle =>
        hlow R j (hprogress₁.toGrows.old h hinv₁ hR (hle.trans_lt (h.lt_length hS))) hle
    obtain ⟨g', hg', hinv, hspanned', hprogress, hbytes⟩ := ih hinv₁ hspanned₁
      (hprogress₁.sets S source hS) (hprogress₁.oldUnqueued S source hS hexplored) hlow₁
      (by
        intro e he
        obtain ⟨hcomputed', hregs', hnone'⟩ := hentries e (List.mem_cons_of_mem _ he)
        refine ⟨hcomputed', by rw [hprogress₁.regHandler]; exact hregs', ?_⟩
        have hne : e.1 ≠ byte := by
          rintro heq
          exact hfresh (heq ▸ List.mem_map.2 ⟨e, he, rfl⟩)
        rw [← Option.not_isSome_iff_eq_none, hbytes₁, hnone']
        simpa using hne)
      hnodup
    refine ⟨g', by rw [List.foldl_cons, hg₁]; exact hg', hinv, hspanned',
      hprogress₁.trans hprogress, fun byte' => ?_⟩
    rw [hbytes, hbytes₁, List.map_cons, List.mem_cons]
    tauto

/-! ### Exploring a set -/

/-- Every byte step of the set has a transition. -/
def Complete (nfa : Nfa) (g : Determinization) (S : ConfigurationSet) (i : Nat) : Prop :=
  ∀ c ∈ S, ∀ byte next, nfa.ByteStep c.nfaState byte next →
    ∃ t, g.dfa.transition? i byte = some t

theorem Complete.mono {S : ConfigurationSet} {i : Nat} (h : Complete nfa g S i)
    (hgrows : Grows g g') : Complete nfa g' S i := by
  intro c hc byte next hstep
  obtain ⟨t, ht⟩ := h c hc byte next hstep
  exact ⟨t, hgrows.transitions i byte t ht⟩

/-- What holds of the worklist between two sets. -/
structure LoopInvariant (nfa : Nfa) (regMapOrder : List (Nat × Nat) → List (Nat × Nat))
    (fuel : Nat) (S₀ : ConfigurationSet) (g : Determinization) : Prop
    extends Invariant nfa regMapOrder fuel S₀ g where
  spanned : Spanned nfa fuel S₀ g
  complete : ∀ S i, g.dfaStates.find? S = some i →
    S ∈ g.unexploredSets ∨ Complete nfa g S i

/-- The computed sets use only registers that exist. -/
theorem regsBelow_of_getTransitions {regHandler regHandler' : RegisterHandler}
    {S D : ConfigurationSet} {transitions : AsciiTransitionsMap} {byte : Nat}
    {ops : List RegisterOperation} (hS : RegsBelow regHandler.getNumRegs S)
    (h : getTransitions nfa fuel nfa.numTags regHandler S = some (regHandler', transitions))
    (hfind : transitions.find? byte = some (ops, D)) :
    RegsBelow regHandler'.getNumRegs D := by
  obtain ⟨m, hfresh, -, hbytes⟩ := getTransitions_spec h
  intro x hx t r hr
  obtain ⟨c, hc, next, -, y, ⟨ops', q, -, rfl⟩, hyx⟩ := ((hbytes byte).2 ops D hfind x).1 hx
  by_cases hop : t < nfa.numTags ∧
      ((nextConfiguration c next).follow ops' q).getTagHistory t ≠ none
  · obtain ⟨r', hm, hr'⟩ := hyx.moved t hop.1 hop.2
    rw [hr] at hr'
    cases hr'
    exact hfresh.lt_high t r hm
  · rw [hyx.kept t hop] at hr
    exact (hS c hc t r hr).trans_le hfresh.le

/-- The set at the front of the queue is explored. -/
theorem explore_spec {S : ConfigurationSet} {rest : List ConfigurationSet}
    (h : LoopInvariant nfa regMapOrder fuel S₀ g)
    (hqueue : g.unexploredSets = S :: rest)
    (hexplore : explore nfa regMapOrder fuel { g with unexploredSets := rest } S = some g') :
    LoopInvariant nfa regMapOrder fuel S₀ g' ∧ Grows g g' ∧
      g'.dfa.states.length + rest.length = g.dfa.states.length + g'.unexploredSets.length := by
  obtain ⟨source, hS, hexplore⟩ := Option.bind_eq_some_iff.1 hexplore
  obtain ⟨⟨regHandler, ts⟩, hts, hexplore⟩ := Option.bind_eq_some_iff.1 hexplore
  have hS : g.dfaStates.find? S = some source := hS
  have hts : getTransitions nfa fuel nfa.numTags g.dfa.regHandler S =
    some (regHandler, ts) := hts
  have hg' := Option.some.inj hexplore
  obtain ⟨m, hfresh, -, hbytes⟩ := getTransitions_spec hts
  have hbelow := h.registers S source hS
  have hnodup := h.nodup
  rw [hqueue] at hnodup
  obtain ⟨hnotin, hnodup⟩ := List.nodup_cons.1 hnodup
  have hqueued : ∀ R ∈ S :: rest, ∃ i, g.dfaStates.find? R = some i ∧
      ∀ byte, g.dfa.transition? i byte = none := hqueue ▸ h.queued
  -- the worklist after the set has been taken off the queue
  let g₀ : Determinization :=
    { g with unexploredSets := rest, dfa := { g.dfa with regHandler := regHandler } }
  have hinv₀ : Invariant nfa regMapOrder fuel S₀ g₀ := by
    refine ⟨h.root, h.final, h.stateOfSet, h.setOfState, h.injective, ?_, h.transitions,
      h.unmapped, fun R hR => hqueued R (List.mem_cons_of_mem _ hR), hnodup⟩
    intro R i hR c hc t r hr
    exact (h.registers R i hR c hc t r hr).trans_le hfresh.le
  have hgrows₀ : Grows g g₀ := ⟨fun _ _ hR => hR, fun _ _ _ ht => ht⟩
  have hspanned₀ : Spanned nfa fuel S₀ g₀ := fun R j hR => h.spanned.mono hR hgrows₀
  obtain ⟨i, hi, hnone⟩ := hqueued S (by simp)
  obtain rfl : source = i := Option.some.inj (hS.symm.trans hi)
  obtain ⟨g₁, hg₁, hinv, hspanned, hprogress, htransitions⟩ :=
    foldl_addTransition_spec ts.toList hinv₀ hspanned₀ hS hnotin
      (fun R j hR _ => h.registers R j hR)
      (by
        rintro ⟨byte, ops, D⟩ he
        have hfind := OrderedMap.mem_toList_iff.1 he
        exact ⟨⟨hbelow, _, _, _, rfl, hts, hfind⟩,
          regsBelow_of_getTransitions hbelow hts hfind, hnone byte⟩)
      (by
        refine List.Pairwise.imp ?_ ts.increasing
        rintro a b hab rfl
        exact not_compare_self_lt hab)
  obtain rfl : g₁ = g' := hg₁.symm.trans hg'
  refine ⟨⟨hinv, hspanned, ?_⟩, hgrows₀.trans hprogress.toGrows, hprogress.balance⟩
  intro R j hR
  rcases hprogress.newQueued R j hR with hR | hR
  · have hR : g.dfaStates.find? R = some j := hR
    by_cases hRS : R = S
    · subst hRS
      obtain rfl : source = j := Option.some.inj (hS.symm.trans hR)
      right
      intro c hc byte next hstep
      have hsome := (hbytes byte).1.2 ⟨c, hc, next, hstep⟩
      obtain ⟨⟨ops, D⟩, hfind⟩ := Option.isSome_iff_exists.1 hsome
      refine Option.isSome_iff_exists.1 ((htransitions byte).2 (Or.inl ?_))
      exact List.mem_map.2 ⟨_, OrderedMap.mem_toList_iff.2 hfind, rfl⟩
    · rcases h.complete R j hR with hmem | hcomplete
      · rw [hqueue] at hmem
        exact Or.inl (hprogress.queueKept R ((List.mem_cons.1 hmem).resolve_left hRS))
      · exact Or.inr (Complete.mono (g := g₀) hcomplete hprogress.toGrows)
  · exact Or.inl hR

theorem loop_spec {steps : Nat} (h : LoopInvariant nfa regMapOrder fuel S₀ g)
    (hloop : loop nfa regMapOrder fuel steps g = some g') :
    LoopInvariant nfa regMapOrder fuel S₀ g' ∧ g'.unexploredSets = [] := by
  induction steps generalizing g with
  | zero =>
    unfold loop at hloop
    split at hloop
    · rename_i hempty
      cases hloop
      exact ⟨h, hempty⟩
    · cases hloop
    · rename_i hzero
      cases hzero
  | succ steps ih =>
    unfold loop at hloop
    split at hloop
    · rename_i hempty
      cases hloop
      exact ⟨h, hempty⟩
    · rename_i hzero
      cases hzero
    · rename_i S rest steps' hqueue hsteps
      cases hsteps
      obtain ⟨g₁, hexplore, hrest⟩ := Option.bind_eq_some_iff.1 hloop
      exact ih (explore_spec h hqueue hexplore).1 hrest

end Determinization

/-! ## The start and the end -/

theorem find?_tagIdToInitialRegId (numTags t : Nat) :
    (tagIdToInitialRegId numTags).find? t = if t < numTags then some t else none := by
  induction numTags generalizing t with
  | zero => rfl
  | succ n ih =>
    have hstep : tagIdToInitialRegId (n + 1) = (tagIdToInitialRegId n).insert n n := by
      rw [tagIdToInitialRegId, List.range_succ, List.foldl_append]
      rfl
    rw [hstep, OrderedMap.find?_insert, ih, ih, if_neg (Nat.lt_irrefl n)]
    by_cases ht : t = n
    · subst ht
      simp
    · rw [if_neg ht]
      by_cases hlt : t < n
      · rw [if_pos hlt, if_pos (by omega)]
      · rw [if_neg hlt, if_neg (by omega)]

open Determinization

variable {nfa : Nfa} {regMapOrder : List (Nat × Nat) → List (Nat × Nat)} {fuel : Nat}

theorem initialDeterminization_spec {S₀ : ConfigurationSet}
    (hS₀ : (initialConfiguration nfa).spontaneousClosure nfa fuel = some S₀) :
    LoopInvariant nfa regMapOrder fuel S₀ (initialDeterminization nfa S₀) ∧
      (initialDeterminization nfa S₀).dfa.states.length = 1 ∧
      (initialDeterminization nfa S₀).unexploredSets = [S₀] := by
  have hfind : ∀ S i, (initialDeterminization nfa S₀).dfaStates.find? S = some i ↔
      S = S₀ ∧ i = 0 := by
    intro S i
    have hcases : (initialDeterminization nfa S₀).dfaStates.find? S =
        if S = S₀ then some 0 else none :=
      OrderedMap.find?_insertOrAssign S₀ S 0 OrderedMap.empty
    rw [hcases]
    by_cases hS : S = S₀
    · simp [hS, eq_comm]
    · simp [hS]
  have htransition : ∀ i byte,
      (initialDeterminization nfa S₀).dfa.transition? i byte = none := by
    intro i byte
    rcases i with _ | i
    · show (newState _ _ _).bytesTransition.find? byte = none
      rw [bytesTransition_newState]
      rfl
    · rfl
  refine ⟨⟨⟨?_, rfl, ?_, ?_, ?_, ?_, ?_, ?_, ?_, ?_⟩, ?_, ?_⟩, rfl, rfl⟩
  · exact (hfind S₀ 0).2 ⟨rfl, rfl⟩
  · intro S i hS
    obtain ⟨rfl, rfl⟩ := (hfind S i).1 hS
    exact ⟨_, rfl, rfl, rfl⟩
  · intro i hi
    have hi : i < 1 := hi
    exact ⟨S₀, (hfind S₀ i).2 ⟨rfl, by omega⟩⟩
  · intro S S' i hS hS'
    rw [((hfind S i).1 hS).1, ((hfind S' i).1 hS').1]
  · intro S i hS c hc t r hr
    obtain ⟨rfl, -⟩ := (hfind S i).1 hS
    obtain ⟨ops, q, -, rfl⟩ :=
      (DeterminizationConfiguration.mem_spontaneousClosure hS₀ c).1 hc
    have hr : (tagIdToInitialRegId nfa.numTags).find? t = some r := hr
    rw [find?_tagIdToInitialRegId] at hr
    have hnum : (initialDeterminization nfa S).dfa.regHandler.getNumRegs =
        RegisterHandler.new.getNumRegs + 2 * nfa.numTags :=
      RegisterHandler.getNumRegs_addRegisters _ _
    rw [hnum, RegisterHandler.getNumRegs_new]
    split at hr
    · cases hr
      omega
    · cases hr
  · intro S i byte t _ ht
    rw [htransition] at ht
    cases ht
  · intro S S' i j hS hS' hlt
    have hi := ((hfind S i).1 hS).2
    omega
  · intro S hS
    refine ⟨0, ?_, htransition 0⟩
    exact (hfind S 0).2 ⟨List.mem_singleton.1 hS, rfl⟩
  · exact List.nodup_singleton S₀
  · intro S i hS
    obtain ⟨rfl, rfl⟩ := (hfind S i).1 hS
    exact ⟨[], .refl⟩
  · intro S i hS
    exact Or.inl (List.mem_singleton.2 ((hfind S i).1 hS).1)

/-- What holds of a determinization that has ended. -/
theorem determinize_spec {g : Determinization}
    (h : determinize nfa regMapOrder fuel = some g) :
    ∃ S₀, (initialConfiguration nfa).spontaneousClosure nfa fuel = some S₀ ∧
      Invariant nfa regMapOrder fuel S₀ g ∧ Spanned nfa fuel S₀ g ∧
      ∀ S i, g.dfaStates.find? S = some i → Complete nfa g S i := by
  obtain ⟨S₀, hS₀, hloop⟩ := Option.bind_eq_some_iff.1 h
  obtain ⟨hinv, hempty⟩ := loop_spec (initialDeterminization_spec hS₀).1 hloop
  refine ⟨S₀, hS₀, hinv.toInvariant, hinv.spanned, fun S i hS => ?_⟩
  refine (hinv.complete S i hS).resolve_left ?_
  rw [hempty]
  simp

end LogSurgeon.Dfa
