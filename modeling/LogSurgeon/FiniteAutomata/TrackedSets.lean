import Mathlib.Data.Set.Card
import Mathlib.Data.Set.Finite.Powerset
import LogSurgeon.FiniteAutomata.DfaWorklist
import LogSurgeon.FiniteAutomata.TaggedRuns

/-!
# The sets of configurations and the runs

A set that was computed byte by byte along a word holds one configuration for
every run on the word (`TrackedBy`), with a register for every tag and position.

The set of an unambiguous word is `Functional`.  Such sets have a bounded size,
there are finitely many shapes of them, and a set has a mapping to every set of
the same shape.  The set of an ambiguous word has no mapping to any set.
-/

namespace LogSurgeon.Dfa

open Lib Determinization

variable {nfa : Nfa} {fuel : Nat}

theorem getTagHistory_ne_none_iff {c : DeterminizationConfiguration} {t : Nat} :
    c.getTagHistory t ≠ none ↔ Nfa.OnTag c.history t := by
  simp [DeterminizationConfiguration.getTagHistory, Nfa.OnTag]

theorem getTagLookahead_eq_none_iff {c : DeterminizationConfiguration} {t : Nat} :
    c.getTagLookahead t = none ↔ ¬ Nfa.OnTag c.lookahead t := by
  simp [DeterminizationConfiguration.getTagLookahead, Nfa.OnTag]

/-! ## Sets that are computed -/

/-- The sets that exploring computes, in terms of the explored set. -/
theorem Determinization.Computed.spec {S D : ConfigurationSet} {byte low : Nat}
    {ops : List RegisterOperation} (h : Computed nfa fuel low S byte ops D) :
    ∃ m : TagIdWithOpToRegId, (∀ t r, m.find? t = some r → low ≤ r) ∧
      (∀ c ∈ S, ∀ next, nfa.ByteStep c.nfaState byte next → ∀ ops' q,
        nfa.SpontaneousPath next ops' q →
        ∃ x ∈ D, Reassigned (· < nfa.numTags) m
          ((nextConfiguration c next).follow ops' q) x) ∧
      ∀ x ∈ D, ∃ c ∈ S, ∃ next, nfa.ByteStep c.nfaState byte next ∧ ∃ ops' q,
        nfa.SpontaneousPath next ops' q ∧
        Reassigned (· < nfa.numTags) m ((nextConfiguration c next).follow ops' q) x := by
  obtain ⟨-, rh, rh', ts, rfl, hts, hfind⟩ := h
  obtain ⟨m, hfresh, hexists, hbytes⟩ := getTransitions_spec hts
  have hmem := (hbytes byte).2 ops D hfind
  refine ⟨m, hfresh.low_le, ?_, ?_⟩
  · intro c hc next hstep ops' q hpath
    obtain ⟨x, hx⟩ := hexists c hc byte next hstep _ ⟨ops', q, hpath, rfl⟩
    exact ⟨x, (hmem x).2 ⟨c, hc, next, hstep, _, ⟨ops', q, hpath, rfl⟩, hx⟩, hx⟩
  · intro x hx
    obtain ⟨c, hc, next, hstep, _, ⟨ops', q, hpath, rfl⟩, hyx⟩ := (hmem x).1 hx
    exact ⟨c, hc, next, hstep, ops', q, hpath, hyx⟩

/-- The registers behind a byte: those of the map for the pending tags, and the
old ones for the others. -/
theorem Reassigned.find?_follow {m : TagIdWithOpToRegId} {c x : DeterminizationConfiguration}
    {next q : Nat} {ops : List TagOperation}
    (h : Reassigned (· < nfa.numTags) m ((nextConfiguration c next).follow ops q) x) (t : Nat) :
    (t < nfa.numTags ∧ Nfa.OnTag c.lookahead t →
      ∃ r, m.find? t = some r ∧ x.tagIdToRegIds.find? t = some r) ∧
    (¬ (t < nfa.numTags ∧ Nfa.OnTag c.lookahead t) →
      x.tagIdToRegIds.find? t = c.tagIdToRegIds.find? t) := by
  have hhistory : ((nextConfiguration c next).follow ops q).getTagHistory t ≠ none ↔
      Nfa.OnTag c.lookahead t := getTagHistory_ne_none_iff
  refine ⟨fun ⟨ht, hon⟩ => h.moved t ht (hhistory.2 hon), fun hnot => ?_⟩
  exact h.kept t fun ⟨ht, hop⟩ => hnot ⟨ht, hhistory.1 hop⟩

/-! ## Sets and runs -/

/-- The configuration is that of the run, with the registers that `regOf` names
for the positions. -/
structure Holds (numTags : Nat) (regOf : Nat → Option Nat → Nat) (s : Nfa.TaggedState)
    (c : DeterminizationConfiguration) : Prop where
  nfaState : c.nfaState = s.nfaState
  history : c.history = s.history
  lookahead : c.lookahead = s.lookahead
  registers : ∀ t, c.tagIdToRegIds.find? t =
    if t < numTags then some (regOf t (s.positions t)) else none

theorem Holds.unique {numTags : Nat} {regOf regOf' : Nat → Option Nat → Nat}
    {s : Nfa.TaggedState} {c c' : DeterminizationConfiguration} (h : Holds numTags regOf s c)
    (h' : Holds numTags regOf' s c')
    (hregs : ∀ t < numTags, regOf t (s.positions t) = regOf' t (s.positions t)) : c = c' := by
  have hstate := h.nfaState.trans h'.nfaState.symm
  have hhistory := h.history.trans h'.history.symm
  have hlookahead := h.lookahead.trans h'.lookahead.symm
  have hmaps : c.tagIdToRegIds = c'.tagIdToRegIds := by
    refine OrderedMap.ext fun t => ?_
    rw [h.registers, h'.registers]
    split
    · rename_i ht
      rw [hregs t ht]
    · rfl
  cases c
  cases c'
  simp_all

/-- The set holds exactly the configurations of the runs on the word. -/
structure TrackedBy (nfa : Nfa) (regOf : Nat → Option Nat → Nat) (w : List UInt8)
    (S : ConfigurationSet) : Prop where
  config : ∀ s, nfa.TaggedRun w s → ∃ c ∈ S, Holds nfa.numTags regOf s c
  run : ∀ c ∈ S, ∃ s, nfa.TaggedRun w s ∧ Holds nfa.numTags regOf s c

theorem trackedBy_initial {S : ConfigurationSet}
    (hS : (initialConfiguration nfa).spontaneousClosure nfa fuel = some S) :
    TrackedBy nfa (fun t _ => t) [] S := by
  have hholds : ∀ ops q, Holds nfa.numTags (fun t _ => t) ⟨q, fun _ => none, [], ops⟩
      ((initialConfiguration nfa).follow ops q) := fun ops q =>
    ⟨rfl, rfl, rfl, find?_tagIdToInitialRegId nfa.numTags⟩
  constructor
  · intro s hrun
    obtain ⟨ops, q, hpath, rfl⟩ := Nfa.taggedRun_nil_iff.1 hrun
    exact ⟨_, (DeterminizationConfiguration.mem_spontaneousClosure hS _).2
      ⟨ops, q, hpath, rfl⟩, hholds ops q⟩
  · intro c hc
    obtain ⟨ops, q, hpath, rfl⟩ :=
      (DeterminizationConfiguration.mem_spontaneousClosure hS c).1 hc
    exact ⟨_, .start hpath, hholds ops q⟩

/-- The registers for positions before `n` stay. -/
def AgreeBefore (n : Nat) (regOf regOf' : Nat → Option Nat → Nat) : Prop :=
  ∀ t p, (∀ k, p = some k → k < n) → regOf' t p = regOf t p

/-- Exploring extends the runs by a byte.  The pending tags get the registers
of the exploration. -/
theorem TrackedBy.computed {regOf : Nat → Option Nat → Nat} {w : List UInt8}
    {S D : ConfigurationSet} {b : UInt8} {low : Nat} {ops : List RegisterOperation}
    (h : TrackedBy nfa regOf w S) (hD : Computed nfa fuel low S b.toNat ops D) :
    ∃ regOf', AgreeBefore w.length regOf regOf' ∧ TrackedBy nfa regOf' (w ++ [b]) D := by
  obtain ⟨m, -, hforward, hbackward⟩ := hD.spec
  let regOf' : Nat → Option Nat → Nat := fun t p =>
    if p = some w.length then (m.find? t).getD 0 else regOf t p
  have hagree : AgreeBefore w.length regOf regOf' := by
    intro t p hp
    show (if p = some w.length then _ else _) = _
    rw [if_neg fun heq => absurd (hp _ heq) (Nat.lt_irrefl _)]
  -- the configuration of a run becomes that of the longer run
  have hstep : ∀ s, nfa.TaggedRun w s → ∀ c, Holds nfa.numTags regOf s c →
      ∀ next ops' q x, Reassigned (· < nfa.numTags) m
        ((nextConfiguration c next).follow ops' q) x →
      Holds nfa.numTags regOf'
        ⟨q, Nfa.stamp nfa.numTags s.positions s.lookahead w.length, s.lookahead, ops'⟩ x := by
    intro s hrun c hc next ops' q x hx
    refine ⟨hx.nfaState, hx.history.trans hc.lookahead, hx.lookahead, fun t => ?_⟩
    obtain ⟨hmoved, hkept⟩ := hx.find?_follow t
    rw [hc.lookahead] at hmoved hkept
    show _ = if t < nfa.numTags then some (regOf' t (Nfa.stamp _ _ _ _ t)) else none
    by_cases hon : t < nfa.numTags ∧ Nfa.OnTag s.lookahead t
    · obtain ⟨r, hm, hr⟩ := hmoved hon
      rw [hr, if_pos hon.1, Nfa.stamp, if_pos hon]
      show some r = some (if some w.length = some w.length then _ else _)
      rw [if_pos rfl, hm, Option.getD_some]
    · rw [hkept hon, hc.registers, Nfa.stamp, if_neg hon,
        hagree t _ fun k hk => hrun.lt_length hk]
  refine ⟨regOf', hagree, ⟨?_, ?_⟩⟩
  · intro s' hrun'
    obtain ⟨s, next, ops', q, hrun, hbyte, hpath, rfl⟩ :=
      Nfa.taggedRun_append_singleton_iff.1 hrun'
    obtain ⟨c, hcS, hc⟩ := h.config s hrun
    rw [← hc.nfaState] at hbyte
    obtain ⟨x, hxD, hx⟩ := hforward c hcS next hbyte ops' q hpath
    exact ⟨x, hxD, hstep s hrun c hc next ops' q x hx⟩
  · intro x hx
    obtain ⟨c, hc, next, hbyte, ops', q, hpath, hcx⟩ := hbackward x hx
    obtain ⟨s, hrun, hs⟩ := h.run c hc
    rw [hs.nfaState] at hbyte
    exact ⟨_, .byte hrun hbyte hpath, hstep s hrun c hs next ops' q x hcx⟩

theorem AgreeBefore.trans {n n' : Nat} {regOf regOf' regOf'' : Nat → Option Nat → Nat}
    (hle : n ≤ n') (h : AgreeBefore n regOf regOf') (h' : AgreeBefore n' regOf' regOf'') :
    AgreeBefore n regOf regOf'' := by
  intro t p hp
  rw [h' t p fun k hk => (hp k hk).trans_le hle, h t p hp]

/-- The sets along a word are tracked. -/
theorem TrackedBy.spans {regOf : Nat → Option Nat → Nat} {g : Determinization}
    {S D : ConfigurationSet} {i j : Nat} {v w : List UInt8} (h : TrackedBy nfa regOf v S)
    (hspans : Spans nfa fuel g S i w D j) :
    ∃ regOf', AgreeBefore v.length regOf regOf' ∧ TrackedBy nfa regOf' (v ++ w) D := by
  induction hspans with
  | refl =>
    rw [List.append_nil]
    exact ⟨regOf, fun _ _ _ => rfl, h⟩
  | step _ _ _ hcomputed _ ih =>
    obtain ⟨regOf', hagree, htracked⟩ := ih
    obtain ⟨regOf'', hagree', htracked'⟩ := htracked.computed hcomputed
    rw [List.append_assoc] at htracked'
    exact ⟨regOf'', hagree.trans (by simp) hagree', htracked'⟩

/-- Sets of words with the same runs are equal, if the one word continues the
other. -/
theorem TrackedBy.eq_of_taggedStates_eq {regOf regOf' : Nat → Option Nat → Nat}
    {v w : List UInt8} {S D : ConfigurationSet} (hS : TrackedBy nfa regOf v S)
    (hD : TrackedBy nfa regOf' w D) (hagree : AgreeBefore v.length regOf regOf')
    (heq : nfa.taggedStates v = nfa.taggedStates w) : S = D := by
  have hsame : ∀ s, nfa.TaggedRun v s ↔ nfa.TaggedRun w s := fun s =>
    show s ∈ nfa.taggedStates v ↔ s ∈ nfa.taggedStates w by rw [heq]
  have hregs : ∀ s, nfa.TaggedRun v s → ∀ t < nfa.numTags,
      regOf t (s.positions t) = regOf' t (s.positions t) := fun s hrun t _ =>
    (hagree t _ fun k hk => hrun.lt_length hk).symm
  refine OrderedSet.ext fun c => ⟨fun hc => ?_, fun hc => ?_⟩
  · obtain ⟨s, hrun, hs⟩ := hS.run c hc
    obtain ⟨d, hd, hsd⟩ := hD.config s ((hsame s).1 hrun)
    rw [hs.unique hsd (hregs s hrun)]
    exact hd
  · obtain ⟨s, hrun, hs⟩ := hD.run c hc
    have hrun := (hsame s).2 hrun
    obtain ⟨d, hd, hsd⟩ := hS.config s hrun
    rw [← hsd.unique hs (hregs s hrun)]
    exact hd

/-! ## The sets of unambiguous words -/

/-- Comparable configurations agree about the registers that are not about to
be overwritten, and every configuration has one with the same registers and
nothing pending. -/
structure Functional (nfa : Nfa) (S : ConfigurationSet) : Prop where
  agree : ∀ c ∈ S, ∀ c' ∈ S, Comparable c c' → ∀ t, ¬ Nfa.OnTag c.lookahead t →
    c.tagIdToRegIds.find? t = c'.tagIdToRegIds.find? t
  total : ∀ c ∈ S, ∀ t < nfa.numTags, ∃ r, c.tagIdToRegIds.find? t = some r
  bounded : ∀ c ∈ S, ∀ t, nfa.numTags ≤ t → c.tagIdToRegIds.find? t = none
  grounded : ∀ c ∈ S, ∃ c₀ ∈ S, c₀.lookahead = [] ∧ c₀.tagIdToRegIds = c.tagIdToRegIds

theorem TrackedBy.functional {regOf : Nat → Option Nat → Nat} {w : List UInt8}
    {S : ConfigurationSet} (h : TrackedBy nfa regOf w S) (hw : nfa.UnambiguousOn w) :
    Functional nfa S where
  agree c hc c' hc' hcomp t ht := by
    obtain ⟨s, hrun, hs⟩ := h.run c hc
    obtain ⟨s', hrun', hs'⟩ := h.run c' hc'
    rw [hs.registers, hs'.registers, hw s s' hrun hrun'
      (by rw [← hs.nfaState, ← hs'.nfaState]; exact hcomp.1)
      (by rw [← hs.lookahead, ← hs'.lookahead]; exact hcomp.2) t (hs.lookahead ▸ ht)]
  total c hc t ht := by
    obtain ⟨s, -, hs⟩ := h.run c hc
    exact ⟨_, by rw [hs.registers, if_pos ht]⟩
  bounded c hc t ht := by
    obtain ⟨s, -, hs⟩ := h.run c hc
    rw [hs.registers, if_neg (by omega)]
  grounded c hc := by
    obtain ⟨s, hrun, hs⟩ := h.run c hc
    obtain ⟨q, hrun₀⟩ := hrun.grounded
    obtain ⟨c₀, hc₀, hs₀⟩ := h.config _ hrun₀
    refine ⟨c₀, hc₀, hs₀.lookahead, OrderedMap.ext fun t => ?_⟩
    rw [hs₀.registers, hs.registers]

theorem TrackedBy.ending_mem {regOf : Nat → Option Nat → Nat} {w : List UInt8}
    {S : ConfigurationSet} (h : TrackedBy nfa regOf w S) {c : DeterminizationConfiguration}
    (hc : c ∈ S) : (c.nfaState, c.history, c.lookahead) ∈ nfa.endings := by
  obtain ⟨s, hrun, hs⟩ := h.run c hc
  rw [hs.nfaState, hs.history, hs.lookahead]
  exact hrun.ending_mem

/-! ### Their size -/

theorem size_le_of_injOn {α : Type*} {S : ConfigurationSet}
    {f : DeterminizationConfiguration → α} {T : Set α} (hT : T.Finite) (hf : ∀ c ∈ S, f c ∈ T)
    (hinj : ∀ c ∈ S, ∀ c' ∈ S, f c = f c' → c = c') : S.size ≤ T.ncard := by
  classical
  have hcard : S.size = S.toList.toFinset.card :=
    (List.toFinset_card_of_nodup S.nodup).symm
  rw [hcard, Set.ncard_eq_toFinset_card T hT]
  refine Finset.card_le_card_of_injOn f ?_ ?_
  · intro c hc
    rw [Set.Finite.coe_toFinset]
    exact hf c (List.mem_toFinset.1 hc)
  · intro c hc c' hc' heq
    exact hinj c (List.mem_toFinset.1 hc) c' (List.mem_toFinset.1 hc') heq

/-- A configuration is determined by its own ending and the state of the
configuration with nothing pending. -/
theorem Functional.size_le {regOf : Nat → Option Nat → Nat} {w : List UInt8}
    {S : ConfigurationSet} (hfunctional : Functional nfa S) (h : TrackedBy nfa regOf w S)
    (hfinite : nfa.FiniteClosures) : S.size ≤ (nfa.endings ×ˢ nfa.endings).ncard := by
  let ending : DeterminizationConfiguration → Nat × List TagOperation × List TagOperation :=
    fun c => (c.nfaState, c.history, c.lookahead)
  have hground : ∀ c, ∃ c₀, c ∈ S →
      c₀ ∈ S ∧ c₀.lookahead = [] ∧ c₀.tagIdToRegIds = c.tagIdToRegIds := by
    intro c
    by_cases hc : c ∈ S
    · obtain ⟨c₀, hc₀, hground⟩ := hfunctional.grounded c hc
      exact ⟨c₀, fun _ => ⟨hc₀, hground⟩⟩
    · exact ⟨c, fun h => absurd h hc⟩
  choose ground hground using hground
  have hendings := Nfa.finite_endings hfinite
  refine size_le_of_injOn (f := fun c => (ending (ground c), ending c))
    (hendings.prod hendings) ?_ ?_
  · exact fun c hc => ⟨h.ending_mem (hground c hc).1, h.ending_mem hc⟩
  · intro c hc c' hc' heq
    obtain ⟨hmem, hlook, hregs⟩ := hground c hc
    obtain ⟨hmem', hlook', hregs'⟩ := hground c' hc'
    obtain ⟨hground, hending⟩ := Prod.mk.inj heq
    obtain ⟨hstate₀, -, -⟩ : (ground c).nfaState = (ground c').nfaState ∧ _ ∧ _ := by
      simpa [ending] using hground
    obtain ⟨hstate, hhistory, hlookahead⟩ :
        c.nfaState = c'.nfaState ∧ c.history = c'.history ∧ c.lookahead = c'.lookahead := by
      simpa [ending] using hending
    have hmaps : c.tagIdToRegIds = c'.tagIdToRegIds := by
      refine OrderedMap.ext fun t => ?_
      rw [← hregs, ← hregs']
      refine hfunctional.agree _ hmem _ hmem' ⟨hstate₀, hlook.trans hlook'.symm⟩ t ?_
      rw [hlook]
      simp [Nfa.OnTag]
    cases c
    cases c'
    simp_all

/-! ### Their shapes -/

/-- The NFA state and the lookahead, which comparable configurations share. -/
def key (c : DeterminizationConfiguration) : Nat × List TagOperation :=
  (c.nfaState, c.lookahead)

theorem comparable_of_key_eq {c c' : DeterminizationConfiguration} (h : key c = key c') :
    Comparable c c' := Prod.mk.inj h

theorem key_eq_of_comparable {c c' : DeterminizationConfiguration} (h : Comparable c c') :
    key c = key c' := Prod.ext h.1 h.2

/-- The keys of the configurations. -/
def keys (S : ConfigurationSet) : Set (Nat × List TagOperation) := {k | ∃ c ∈ S, key c = k}

/-- The keys and tags that share a register. -/
def pattern (S : ConfigurationSet) :
    Set (((Nat × List TagOperation) × Nat) × ((Nat × List TagOperation) × Nat)) :=
  {p | ∃ c ∈ S, ∃ c' ∈ S, key c = p.1.1 ∧ key c' = p.2.1 ∧
    ∃ r, c.tagIdToRegIds.find? p.1.2 = some r ∧ c'.tagIdToRegIds.find? p.2.2 = some r}

/-- What matters for the mappings between functional sets. -/
def shape (S : ConfigurationSet) := (S.size, keys S, pattern S)

/-- The registers that a mapping between two sets has to pair. -/
def PairedBy (D R : ConfigurationSet) (l r : Nat) : Prop :=
  ∃ c ∈ D, ∃ c' ∈ R, Comparable c c' ∧ ∃ t, ¬ Nfa.OnTag c.lookahead t ∧
    c.tagIdToRegIds.find? t = some l ∧ c'.tagIdToRegIds.find? t = some r

theorem PairedBy.symm {D R : ConfigurationSet} {l r : Nat} (h : PairedBy D R l r) :
    PairedBy R D r l := by
  obtain ⟨c, hc, c', hc', hcomp, t, ht, hl, hr⟩ := h
  exact ⟨c', hc', c, hc, ⟨hcomp.1.symm, hcomp.2.symm⟩, t, hcomp.2 ▸ ht, hr, hl⟩

/-- A register is paired with one register, if the sets have the same pattern. -/
theorem PairedBy.right_unique {D R : ConfigurationSet} (hR : Functional nfa R)
    (hpattern : pattern D = pattern R) {l r r' : Nat} (h : PairedBy D R l r)
    (h' : PairedBy D R l r') : r = r' := by
  obtain ⟨c₁, hc₁, c₁', hc₁', hcomp₁, t₁, ht₁, hl₁, hr₁⟩ := h
  obtain ⟨c₂, hc₂, c₂', hc₂', hcomp₂, t₂, ht₂, hl₂, hr₂⟩ := h'
  have hmem : ((key c₁, t₁), (key c₂, t₂)) ∈ pattern R := by
    rw [← hpattern]
    exact ⟨c₁, hc₁, c₂, hc₂, rfl, rfl, l, hl₁, hl₂⟩
  obtain ⟨d₁, hd₁, d₂, hd₂, hkey₁, hkey₂, x, hx₁, hx₂⟩ := hmem
  have hsame₁ := hR.agree c₁' hc₁' d₁ hd₁
    (comparable_of_key_eq ((key_eq_of_comparable hcomp₁).symm.trans hkey₁.symm)) t₁
    (hcomp₁.2 ▸ ht₁)
  have hsame₂ := hR.agree c₂' hc₂' d₂ hd₂
    (comparable_of_key_eq ((key_eq_of_comparable hcomp₂).symm.trans hkey₂.symm)) t₂
    (hcomp₂.2 ▸ ht₂)
  have hx₁ : some r = some x := hr₁.symm.trans (hsame₁.trans hx₁)
  have hx₂ : some r' = some x := hr₂.symm.trans (hsame₂.trans hx₂)
  exact Option.some.inj (hx₁.trans hx₂.symm)

/-- Sets of the same shape have a mapping. -/
theorem exists_mapping {D R : ConfigurationSet} (hD : Functional nfa D)
    (hR : Functional nfa R) (hshape : shape D = shape R) :
    ∃ regMap, tryGetMapping D R = some regMap := by
  obtain ⟨hsize, hrest⟩ := Prod.mk.inj hshape
  obtain ⟨hkeys, hpattern⟩ := Prod.mk.inj hrest
  have hone : OneToOne (PairedBy D R) :=
    ⟨fun _ _ _ h h' => h.right_unique hR hpattern h',
      fun _ _ _ h h' => h.symm.right_unique hD hpattern.symm h'.symm⟩
  refine tryGetMapping_complete hone hsize fun c hc => ?_
  obtain ⟨d, hd, hkey⟩ : key c ∈ keys R := hkeys ▸ ⟨c, hc, rfl⟩
  obtain ⟨c', hc'⟩ : ∃ c', firstComparable R c = some c' := by
    refine Option.isSome_iff_exists.1 (List.find?_isSome.2 ⟨d, hd, ?_⟩)
    simpa using comparable_of_key_eq hkey.symm
  obtain ⟨hmem, hcomp⟩ := firstComparable_mem hc'
  refine ⟨c', hc', fun t l hl hlook => ?_⟩
  have ht : t < nfa.numTags := by
    by_contra hge
    rw [hD.bounded c hc t (not_lt.1 hge)] at hl
    cases hl
  obtain ⟨r, hr⟩ := hR.total c' hmem t ht
  exact ⟨r, hr, c, hc, c', hmem, hcomp, t, getTagLookahead_eq_none_iff.1 hlook, hl, hr⟩

/-- The shapes of the sets of unambiguous words. -/
def shapes (nfa : Nfa) : Set (Nat × Set (Nat × List TagOperation) ×
    Set (((Nat × List TagOperation) × Nat) × ((Nat × List TagOperation) × Nat))) :=
  {σ | ∃ S regOf w, Functional nfa S ∧ TrackedBy nfa regOf w S ∧ shape S = σ}

theorem finite_shapes (hfinite : nfa.FiniteClosures) : (shapes nfa).Finite := by
  have hendings := Nfa.finite_endings hfinite
  let someKeys : Set (Nat × List TagOperation) := (fun e => (e.1, e.2.2)) '' nfa.endings
  have hsomeKeys : someKeys.Finite := hendings.image _
  let tags : Set Nat := {t | t < nfa.numTags}
  have htags : tags.Finite := Set.finite_lt_nat _
  have hkey : ∀ {S regOf w}, TrackedBy nfa regOf w S → ∀ c ∈ S, key c ∈ someKeys :=
    fun h c hc => ⟨_, h.ending_mem hc, rfl⟩
  have hpairs := (hsomeKeys.prod htags).prod (hsomeKeys.prod htags)
  refine Set.Finite.subset ((Set.finite_le_nat (nfa.endings ×ˢ nfa.endings).ncard).prod
    (hsomeKeys.finite_subsets.prod hpairs.finite_subsets)) ?_
  rintro _ ⟨S, regOf, w, hfunctional, htracked, rfl⟩
  refine ⟨hfunctional.size_le htracked hfinite, ?_, ?_⟩
  · rintro _ ⟨c, hc, rfl⟩
    exact hkey htracked c hc
  · rintro ⟨⟨_, t⟩, ⟨_, t'⟩⟩ ⟨c, hc, c', hc', rfl, rfl, r, hr, hr'⟩
    have hbounded : ∀ d ∈ S, ∀ u, d.tagIdToRegIds.find? u = some r → u < nfa.numTags := by
      intro d hd u hu
      by_contra hge
      rw [hfunctional.bounded d hd u (not_lt.1 hge)] at hu
      cases hu
    exact ⟨⟨hkey htracked c hc, hbounded c hc t hr⟩, ⟨hkey htracked c' hc', hbounded c' hc' t' hr'⟩⟩

/-! ## The sets of ambiguous words -/

/-- Two comparable configurations disagree about a register that is not about
to be overwritten. -/
def Ambiguous (S : ConfigurationSet) : Prop :=
  ∃ c ∈ S, ∃ c' ∈ S, Comparable c c' ∧ ∃ t l l', ¬ Nfa.OnTag c.lookahead t ∧
    c.tagIdToRegIds.find? t = some l ∧ c'.tagIdToRegIds.find? t = some l' ∧ l ≠ l'

/-- Both configurations would be paired with the same one. -/
theorem Ambiguous.tryGetMapping_eq_none {D : ConfigurationSet} (h : Ambiguous D)
    (R : ConfigurationSet) : tryGetMapping D R = none := by
  cases hmap : tryGetMapping D R with
  | none => rfl
  | some regMap =>
    exfalso
    obtain ⟨-, hone, hrenames⟩ := tryGetMapping_sound hmap
    obtain ⟨c, hc, c', hc', hcomp, t, l, l', ht, hl, hl', hne⟩ := h
    obtain ⟨d, hd, hregs⟩ := hrenames c hc
    obtain ⟨d', hd', hregs'⟩ := hrenames c' hc'
    rw [← firstComparable_congr hcomp, hd] at hd'
    cases hd'
    obtain ⟨r, hr, hlr⟩ := hregs t l hl (getTagLookahead_eq_none_iff.2 ht)
    obtain ⟨r', hr', hlr'⟩ := hregs' t l' hl' (getTagLookahead_eq_none_iff.2 (hcomp.2 ▸ ht))
    rw [hr] at hr'
    cases hr'
    exact hne (hone.left_unique l l' r hlr hlr')

end LogSurgeon.Dfa
