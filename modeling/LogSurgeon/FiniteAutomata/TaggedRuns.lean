import Mathlib.Data.Set.Finite.Lattice
import LogSurgeon.FiniteAutomata.DfaTransitions
import LogSurgeon.Lib.InfiniteWord

/-!
# Runs that remember the positions of the tags

A `TaggedRun` of the NFA remembers for every tag the position of the last
operation, and which operations are pending, that is, have been passed since the
last byte.  They are performed together with the next byte.

On one word, two runs may end in the same state with the same pending
operations, and disagree about a position.  A word without such runs is
`UnambiguousOn`.
-/

namespace LogSurgeon.Nfa

open Lib

/-- Some of the operations are on the tag. -/
def OnTag (ops : List TagOperation) (t : Nat) : Prop := ∃ op ∈ ops, op.tagId = t

instance (ops : List TagOperation) (t : Nat) : Decidable (OnTag ops t) :=
  inferInstanceAs (Decidable (∃ op ∈ ops, _))

/-- Where a run is.  `history` and `lookahead` hold the operations before and
after the last byte. -/
structure TaggedState where
  nfaState : Nat
  positions : Nat → Option Nat
  history : List TagOperation
  lookahead : List TagOperation

/-- The positions after the operations have been performed at position `k`. -/
def stamp (numTags : Nat) (positions : Nat → Option Nat) (ops : List TagOperation)
    (k : Nat) : Nat → Option Nat :=
  fun t => if t < numTags ∧ OnTag ops t then some k else positions t

@[simp] theorem stamp_nil (numTags : Nat) (positions : Nat → Option Nat) (k : Nat) :
    stamp numTags positions [] k = positions := by
  funext t
  simp [stamp, OnTag]

/-- The runs on a word. -/
inductive TaggedRun (nfa : Nfa) : List UInt8 → TaggedState → Prop where
  | start {q : Nat} {ops : List TagOperation}
      (hpath : nfa.SpontaneousPath nfa.root ops q) :
      TaggedRun nfa [] ⟨q, fun _ => none, [], ops⟩
  | byte {w : List UInt8} {b : UInt8} {s : TaggedState} {next q : Nat}
      {ops : List TagOperation} (hrun : TaggedRun nfa w s)
      (hstep : nfa.ByteStep s.nfaState b.toNat next)
      (hpath : nfa.SpontaneousPath next ops q) :
      TaggedRun nfa (w ++ [b])
        ⟨q, stamp nfa.numTags s.positions s.lookahead w.length, s.lookahead, ops⟩

def taggedStates (nfa : Nfa) (w : List UInt8) : Set TaggedState := {s | nfa.TaggedRun w s}

/-- Runs on the word to one state with the same pending operations agree about
the positions that are not about to be overwritten. -/
def UnambiguousOn (nfa : Nfa) (w : List UInt8) : Prop :=
  ∀ s s', nfa.TaggedRun w s → nfa.TaggedRun w s' → s.nfaState = s'.nfaState →
    s.lookahead = s'.lookahead → ∀ t, ¬ OnTag s.lookahead t → s.positions t = s'.positions t

/-- On every infinite word, infinitely many prefixes are unambiguous, or some
two prefixes have the same runs. -/
def Settles (nfa : Nfa) : Prop :=
  ∀ word : Nat → UInt8, (∀ k, ∃ n, k ≤ n ∧ nfa.UnambiguousOn (prefixOf word n)) ∨
    ∃ i j, i < j ∧ nfa.taggedStates (prefixOf word i) = nfa.taggedStates (prefixOf word j)

variable {nfa : Nfa} {w : List UInt8} {b : UInt8} {s : TaggedState}

theorem taggedRun_nil_iff :
    nfa.TaggedRun [] s ↔ ∃ ops q, nfa.SpontaneousPath nfa.root ops q ∧
      s = ⟨q, fun _ => none, [], ops⟩ := by
  constructor
  · intro h
    generalize hw : ([] : List UInt8) = w at h
    cases h with
    | start hpath => exact ⟨_, _, hpath, rfl⟩
    | byte => simp at hw
  · rintro ⟨ops, q, hpath, rfl⟩
    exact .start hpath

theorem taggedRun_append_singleton_iff :
    nfa.TaggedRun (w ++ [b]) s ↔ ∃ s' next ops q, nfa.TaggedRun w s' ∧
      nfa.ByteStep s'.nfaState b.toNat next ∧ nfa.SpontaneousPath next ops q ∧
      s = ⟨q, stamp nfa.numTags s'.positions s'.lookahead w.length, s'.lookahead, ops⟩ := by
  constructor
  · intro h
    generalize hv : w ++ [b] = v at h
    cases h with
    | start => simp at hv
    | byte hrun hstep hpath =>
      obtain ⟨rfl, hb⟩ := List.append_inj' hv rfl
      cases hb
      exact ⟨_, _, _, _, hrun, hstep, hpath, rfl⟩
  · rintro ⟨s', next, ops, q, hrun, hstep, hpath, rfl⟩
    exact .byte hrun hstep hpath

/-- A word with a run has runs on its prefixes. -/
theorem exists_taggedRun_of_append {v : List UInt8} (h : ∃ s, nfa.TaggedRun (w ++ v) s) :
    ∃ s, nfa.TaggedRun w s := by
  induction v using List.reverseRecOn with
  | nil => rwa [List.append_nil] at h
  | append_singleton v b ih =>
    obtain ⟨s, hs⟩ := h
    rw [← List.append_assoc, taggedRun_append_singleton_iff] at hs
    obtain ⟨s', -, -, -, hrun, -⟩ := hs
    exact ih ⟨s', hrun⟩

theorem TaggedRun.lt_length (h : nfa.TaggedRun w s) {t k : Nat} (hk : s.positions t = some k) :
    k < w.length := by
  induction h with
  | start => cases hk
  | byte _ _ _ ih =>
    rw [List.length_append, List.length_singleton]
    simp only [stamp] at hk
    split at hk
    · cases hk
      exact Nat.lt_succ_self _
    · exact Nat.lt_succ_of_lt (ih hk)

theorem TaggedRun.positions_eq_none (h : nfa.TaggedRun w s) {t : Nat} (ht : nfa.numTags ≤ t) :
    s.positions t = none := by
  induction h with
  | start => rfl
  | byte _ _ _ ih =>
    show stamp _ _ _ _ t = none
    unfold stamp
    rw [if_neg (by omega)]
    exact ih

/-- A position before the last one was there before the last byte. -/
theorem TaggedRun.positions_of_append_singleton (h : nfa.TaggedRun (w ++ [b]) s) {t k : Nat}
    (hk : s.positions t = some k) (hlt : k < w.length) :
    ∃ s', nfa.TaggedRun w s' ∧ s'.positions t = some k := by
  obtain ⟨s', next, ops, q, hs', -, -, rfl⟩ := taggedRun_append_singleton_iff.1 h
  have hk : stamp nfa.numTags s'.positions s'.lookahead w.length t = some k := hk
  unfold stamp at hk
  split at hk
  · cases hk
    omega
  · exact ⟨s', hs', hk⟩

/-- Behind the last byte, a run has nothing pending. -/
theorem TaggedRun.grounded (h : nfa.TaggedRun w s) :
    ∃ q, nfa.TaggedRun w ⟨q, s.positions, s.history, []⟩ := by
  cases h with
  | start => exact ⟨nfa.root, .start (.refl _)⟩
  | @byte _ _ _ next _ _ hrun hstep => exact ⟨next, .byte hrun hstep (.refl _)⟩

/-! ## Finitely many ends -/

/-- The state, the history and the lookahead of a run. -/
def TaggedState.ending (s : TaggedState) : Nat × List TagOperation × List TagOperation :=
  (s.nfaState, s.history, s.lookahead)

/-- The endings of the runs on all words. -/
def endings (nfa : Nfa) : Set (Nat × List TagOperation × List TagOperation) :=
  {e | ∃ w s, nfa.TaggedRun w s ∧ s.ending = e}

theorem TaggedRun.ending_mem (h : nfa.TaggedRun w s) : s.ending ∈ nfa.endings :=
  ⟨w, s, h, rfl⟩

theorem finite_endings (h : nfa.FiniteClosures) : nfa.endings.Finite := by
  -- a run ends with a spontaneous path from the root or from the target of a byte
  let targets : Set Nat :=
    {nfa.root} ∪ {q | q ∈ nfa.states.flatMap fun s => s.byteTransitions.map Prod.snd}
  have htargets : targets.Finite :=
    (Set.finite_singleton _).union (List.finite_toSet _)
  let ends : Set (Nat × List TagOperation) :=
    ⋃ p ∈ targets, {e | nfa.SpontaneousPath p e.2 e.1}
  have hends : ends.Finite := htargets.biUnion fun p _ => h p
  have hlookahead : ∀ {w s}, nfa.TaggedRun w s → (s.nfaState, s.lookahead) ∈ ends := by
    intro w s hrun
    cases hrun with
    | start hpath => exact Set.mem_biUnion (Or.inl rfl) hpath
    | byte _ hstep hpath =>
      obtain ⟨_, state, hs, hnext⟩ := hstep
      refine Set.mem_biUnion (Or.inr ?_) hpath
      refine List.mem_flatMap.2 ⟨state, List.mem_of_getElem? hs, ?_⟩
      exact List.mem_map.2 ⟨_, mem_getByteTransitions.1 hnext, rfl⟩
  let histories : Set (List TagOperation) := {[]} ∪ Prod.snd '' ends
  have hhistories : histories.Finite := (Set.finite_singleton _).union (hends.image _)
  have hhistory : ∀ {w s}, nfa.TaggedRun w s → s.history ∈ histories := by
    intro w s hrun
    cases hrun with
    | start => exact Or.inl rfl
    | byte hrun => exact Or.inr ⟨_, hlookahead hrun, rfl⟩
  refine Set.Finite.subset
    ((hends.prod hhistories).image fun e => (e.1.1, e.2, e.1.2)) ?_
  rintro e ⟨w, s, hrun, rfl⟩
  exact ⟨((s.nfaState, s.lookahead), s.history), ⟨hlookahead hrun, hhistory hrun⟩, rfl⟩

/-- What runs can lead to that have only positions below `n`. -/
def taggedStatesBelow (nfa : Nfa) (n : Nat) : Set TaggedState :=
  {s | s.ending ∈ nfa.endings ∧ (∀ t < nfa.numTags, ∀ k, s.positions t = some k → k < n) ∧
    ∀ t, nfa.numTags ≤ t → s.positions t = none}

theorem finite_taggedStatesBelow (h : nfa.FiniteClosures) (n : Nat) :
    (nfa.taggedStatesBelow n).Finite := by
  let below : Set (Option Nat) := {none} ∪ Set.image some {k | k < n}
  have hbelow : below.Finite := (Set.finite_singleton _).union ((Set.finite_lt_nat n).image _)
  let view : TaggedState →
      (Nat × List TagOperation × List TagOperation) × (Fin nfa.numTags → Option Nat) :=
    fun s => (s.ending, fun t => s.positions t)
  refine Set.Finite.of_finite_image (f := view) ?_ ?_
  · refine Set.Finite.subset
      ((finite_endings h).prod (Set.Finite.pi' fun _ : Fin nfa.numTags => hbelow)) ?_
    rintro _ ⟨s, ⟨hending, hpositions, -⟩, rfl⟩
    refine ⟨hending, fun t => ?_⟩
    show s.positions t ∈ below
    cases hk : s.positions t with
    | none => exact Or.inl rfl
    | some k => exact Or.inr ⟨k, hpositions t t.isLt k hk, rfl⟩
  · rintro ⟨q, positions, history, lookahead⟩ ⟨-, -, hnone⟩
      ⟨q', positions', history', lookahead'⟩ ⟨-, -, hnone'⟩ heq
    obtain ⟨hending, hpositions⟩ := Prod.mk.inj heq
    obtain ⟨rfl, rfl, rfl⟩ : q = q' ∧ history = history' ∧ lookahead = lookahead' := by
      simpa [TaggedState.ending] using hending
    have hsame : positions = positions' := by
      funext t
      rcases Nat.lt_or_ge t nfa.numTags with hlt | hge
      · exact congrFun hpositions ⟨t, hlt⟩
      · exact (hnone t hge).trans (hnone' t hge).symm
    rw [hsame]

end LogSurgeon.Nfa
