import LogSurgeon.FiniteAutomata.DfaMapping
import LogSurgeon.FiniteAutomata.DfaReached
import LogSurgeon.Lib.KeyedBijection

/-!
# Equivalent sets

Two sets are `Equivalent` when a one-to-one map of registers goes with a
bijection that pairs comparable configurations.  This is what the contract of
`try_get_mapping` asks for.

`tryGetMapping` instead pairs every configuration of `lhs` with the first
comparable one of `rhs`.  Two comparable configurations of `lhs` that differ in a
register are then never renamed, and `rhs` can have configurations that none of
`lhs` is paired with.  Up to this it decides equivalence
(`decidesEquivalence_iff`).
-/

namespace LogSurgeon.Dfa

open Lib

/-! ## The statement -/

/-- Every configuration has a register for exactly these tags. -/
def OverTags (tags : Set Nat) (S : ConfigurationSet) : Prop :=
  ∀ c ∈ S, ∀ t, (∃ r, c.tagIdToRegIds.find? t = some r) ↔ t ∈ tags

/-- A one-to-one map of registers, with a bijection that pairs comparable
configurations whose registers it maps to each other. -/
def IsMapping (R : Nat → Nat → Prop) (lhs rhs : ConfigurationSet) : Prop :=
  OneToOne R ∧ ∃ f, Set.BijOn f {c | c ∈ lhs.toList} {c | c ∈ rhs.toList} ∧
    ∀ c ∈ lhs, Comparable c (f c) ∧ RenamesRegisters R c (f c)

def Equivalent (lhs rhs : ConfigurationSet) : Prop := ∃ R, IsMapping R lhs rhs

/-- A mapping is found for equivalent sets only, for all of them, and it is one. -/
def DecidesEquivalence (lhs rhs : ConfigurationSet) : Prop :=
  ((∃ regMap, tryGetMapping lhs rhs = some regMap) ↔ Equivalent lhs rhs) ∧
    ∀ regMap, tryGetMapping lhs rhs = some regMap →
      IsMapping (fun l r => regMap.lookup l = some r) lhs rhs

/-- A one-to-one map of registers takes every configuration of `lhs` to the first
comparable one of `rhs`, which is as large. -/
def GreedilyRenamed (lhs rhs : ConfigurationSet) : Prop :=
  lhs.size = rhs.size ∧ ∃ R, OneToOne R ∧ Renames R lhs.toList rhs

/-- The configurations have the same registers for the tags without an operation
in the lookahead. -/
def SameRegisters (c d : DeterminizationConfiguration) : Prop :=
  ∀ t, c.getTagLookahead t = none → c.tagIdToRegIds.find? t = d.tagIdToRegIds.find? t

/-- The state and the lookahead, which comparable configurations share. -/
def comparisonKey (c : DeterminizationConfiguration) : Nat × List TagOperation :=
  (c.nfaState, c.lookahead)

/-- Both sets have equally many configurations for every state and lookahead, and
within a set these have the same registers. -/
structure Uniform (lhs rhs : ConfigurationSet) : Prop where
  counts : ∀ key, lhs.toList.countP (comparisonKey · = key) =
    rhs.toList.countP (comparisonKey · = key)
  lhsRegisters : ∀ c ∈ lhs, ∀ d ∈ lhs, Comparable c d → SameRegisters c d
  rhsRegisters : ∀ c ∈ rhs, ∀ d ∈ rhs, Comparable c d → SameRegisters c d

/-! ## Comparable configurations -/

variable {lhs rhs : ConfigurationSet} {c d e : DeterminizationConfiguration}
  {R : Nat → Nat → Prop} {tags : Set Nat}

theorem comparable_iff_key : Comparable c d ↔ comparisonKey d = comparisonKey c := by
  unfold Comparable comparisonKey
  rw [Prod.mk.injEq, eq_comm, eq_comm (a := c.lookahead)]

theorem Comparable.symm (h : Comparable c d) : Comparable d c := ⟨h.1.symm, h.2.symm⟩

theorem Comparable.trans (h : Comparable c d) (h' : Comparable d e) : Comparable c e :=
  ⟨h.1.trans h'.1, h.2.trans h'.2⟩

theorem Comparable.getTagLookahead_eq (h : Comparable c d) (t : Nat) :
    c.getTagLookahead t = d.getTagLookahead t := by
  unfold DeterminizationConfiguration.getTagLookahead
  rw [h.2]

theorem exists_firstComparable (hd : d ∈ rhs) (h : Comparable c d) :
    ∃ c', firstComparable rhs c = some c' := by
  apply Option.isSome_iff_exists.1
  unfold firstComparable
  rw [List.find?_isSome]
  exact ⟨d, hd, by simpa using h⟩

/-- A configuration with the registers of the target is a target as well. -/
theorem RenamesRegisters.congr_right (h : RenamesRegisters R c d) (hcomparable : Comparable c d)
    (hsame : SameRegisters d e) : RenamesRegisters R c e := by
  intro t l hl hnone
  obtain ⟨r, hr, hlr⟩ := h t l hl hnone
  have hnone' : d.getTagLookahead t = none := by rw [← hcomparable.getTagLookahead_eq, hnone]
  exact ⟨r, by rw [← hsame t hnone', hr], hlr⟩

/-- Two configurations with a common target have the same registers. -/
theorem sameRegisters_of_common_target (hR : OneToOne R) (hcd : Comparable c d)
    (hc : RenamesRegisters R c e) (hd : RenamesRegisters R d e)
    (htags : ∀ t, (∃ r, c.tagIdToRegIds.find? t = some r) ↔
      ∃ r, d.tagIdToRegIds.find? t = some r) : SameRegisters c d := by
  intro t hnone
  have hnone' : d.getTagLookahead t = none := by rw [← hcd.getTagLookahead_eq, hnone]
  cases hl : c.tagIdToRegIds.find? t with
  | none =>
    cases hl' : d.tagIdToRegIds.find? t with
    | none => rfl
    | some l' =>
      obtain ⟨r, hr⟩ := (htags t).2 ⟨l', hl'⟩
      rw [hl] at hr
      cases hr
  | some l =>
    obtain ⟨l', hl'⟩ := (htags t).1 ⟨l, hl⟩
    obtain ⟨r, hr, hlr⟩ := hc t l hl hnone
    obtain ⟨r', hr', hlr'⟩ := hd t l' hl' hnone'
    rw [hr] at hr'
    obtain rfl := Option.some.inj hr'
    rw [hl', hR.left_unique l l' r hlr hlr']

/-- The targets of two configurations with the same registers have the same
registers. -/
theorem sameRegisters_targets {c' d' : DeterminizationConfiguration} (hR : OneToOne R)
    (hc : RenamesRegisters R c c') (hd : RenamesRegisters R d d') (hcd : Comparable c d)
    (hcc' : Comparable c c') (hsame : SameRegisters c d)
    (htags : ∀ t, (∃ r, c'.tagIdToRegIds.find? t = some r) ↔
      ∃ r, c.tagIdToRegIds.find? t = some r)
    (htags' : ∀ t, (∃ r, d'.tagIdToRegIds.find? t = some r) ↔
      ∃ r, c.tagIdToRegIds.find? t = some r) : SameRegisters c' d' := by
  intro t hnone
  have hnone : c.getTagLookahead t = none := by rw [hcc'.getTagLookahead_eq, hnone]
  have hnone' : d.getTagLookahead t = none := by rw [← hcd.getTagLookahead_eq, hnone]
  cases hl : c.tagIdToRegIds.find? t with
  | none =>
    have hmissing : ¬ ∃ r, c.tagIdToRegIds.find? t = some r := by simp [hl]
    have hc' : c'.tagIdToRegIds.find? t = none := by
      apply Option.eq_none_iff_forall_ne_some.2
      exact fun r hr => hmissing ((htags t).1 ⟨r, hr⟩)
    have hd' : d'.tagIdToRegIds.find? t = none := by
      apply Option.eq_none_iff_forall_ne_some.2
      exact fun r hr => hmissing ((htags' t).1 ⟨r, hr⟩)
    rw [hc', hd']
  | some l =>
    obtain ⟨r, hr, hlr⟩ := hc t l hl hnone
    obtain ⟨r', hr', hlr'⟩ := hd t l ((hsame t hnone).symm.trans hl) hnone'
    rw [hr, hr', hR.right_unique l r r' hlr hlr']

/-! ## When equivalence is decided -/

/-- A mapping is found exactly when there is a greedy renaming. -/
theorem exists_tryGetMapping_iff :
    (∃ regMap, tryGetMapping lhs rhs = some regMap) ↔ GreedilyRenamed lhs rhs := by
  constructor
  · intro h
    obtain ⟨regMap, hregMap⟩ := h
    obtain ⟨hsize, hone, hrenames⟩ := tryGetMapping_sound hregMap
    exact ⟨hsize, _, hone, hrenames⟩
  · intro h
    obtain ⟨hsize, R, hR, hrenames⟩ := h
    exact tryGetMapping_complete hR hsize hrenames

/-- A greedy renaming does not tell comparable configurations of `lhs` apart. -/
theorem GreedilyRenamed.lhsRegisters (h : GreedilyRenamed lhs rhs) (hlhs : OverTags tags lhs)
    (hc : c ∈ lhs) (hd : d ∈ lhs) (hcd : Comparable c d) : SameRegisters c d := by
  obtain ⟨-, R, hR, hrenames⟩ := h
  obtain ⟨c', hc', hcregs⟩ := hrenames c hc
  obtain ⟨d', hd', hdregs⟩ := hrenames d hd
  rw [firstComparable_congr hcd, hd'] at hc'
  obtain rfl := Option.some.inj hc'
  refine sameRegisters_of_common_target hR hcd hcregs hdregs fun t => ?_
  rw [hlhs c hc t, hlhs d hd t]

/-- Equivalent sets have equally many configurations for every key. -/
theorem Equivalent.counts (h : Equivalent lhs rhs) (key : Nat × List TagOperation) :
    lhs.toList.countP (comparisonKey · = key) = rhs.toList.countP (comparisonKey · = key) := by
  obtain ⟨R, -, f, hf, hpairs⟩ := h
  apply (exists_bijOn_iff_countP lhs.nodup rhs.nodup).1
  exact ⟨f, hf, fun c hc => comparable_iff_key.1 (hpairs c hc).1⟩

theorem Equivalent.rhsRegisters (h : Equivalent lhs rhs) (hlhs : OverTags tags lhs)
    (hrhs : OverTags tags rhs) (hsame : ∀ c ∈ lhs, ∀ d ∈ lhs, Comparable c d → SameRegisters c d)
    (hc : c ∈ rhs) (hd : d ∈ rhs) (hcd : Comparable c d) : SameRegisters c d := by
  obtain ⟨R, hR, f, hf, hpairs⟩ := h
  obtain ⟨c₀, hc₀, rfl⟩ := hf.surjOn hc
  obtain ⟨d₀, hd₀, rfl⟩ := hf.surjOn hd
  obtain ⟨hcc, hcregs⟩ := hpairs c₀ hc₀
  obtain ⟨hdd, hdregs⟩ := hpairs d₀ hd₀
  have hcd₀ : Comparable c₀ d₀ := (hcc.trans hcd).trans hdd.symm
  refine sameRegisters_targets hR hcregs hdregs hcd₀ hcc (hsame c₀ hc₀ d₀ hd₀ hcd₀) ?_ ?_
  · intro t
    rw [hrhs (f c₀) hc t, hlhs c₀ hc₀ t]
  · intro t
    rw [hrhs (f d₀) hd t, hlhs c₀ hc₀ t]

/-- A renaming of uniform sets is a mapping. -/
theorem Uniform.isMapping (h : Uniform lhs rhs) (hR : OneToOne R)
    (hrenames : Renames R lhs.toList rhs) : IsMapping R lhs rhs := by
  obtain ⟨f, hf, hkey⟩ := (exists_bijOn_iff_countP lhs.nodup rhs.nodup).2 h.counts
  refine ⟨hR, f, hf, fun c hc => ?_⟩
  have hcomparable : Comparable c (f c) := comparable_iff_key.2 (hkey c hc)
  obtain ⟨c', hc', hregs⟩ := hrenames c hc
  obtain ⟨hmem, hcc'⟩ := firstComparable_mem hc'
  refine ⟨hcomparable, hregs.congr_right hcc' ?_⟩
  exact h.rhsRegisters c' hmem (f c) (hf.mapsTo hc) (hcc'.symm.trans hcomparable)

/-- Equivalent sets that are uniform have a greedy renaming. -/
theorem Uniform.greedilyRenamed (h : Uniform lhs rhs) (hequivalent : Equivalent lhs rhs) :
    GreedilyRenamed lhs rhs := by
  obtain ⟨R, hR, f, hf, hpairs⟩ := hequivalent
  refine ⟨?_, R, hR, fun c hc => ?_⟩
  · have hperm : (lhs.toList.map f).Perm rhs.toList := by
      refine (List.perm_ext_iff_of_nodup (lhs.nodup.map_on hf.injOn) rhs.nodup).2 fun d => ?_
      rw [List.mem_map]
      constructor
      · intro hd
        obtain ⟨c, hc, rfl⟩ := hd
        exact hf.mapsTo hc
      · exact fun hd => hf.surjOn hd
    unfold OrderedSet.size
    rw [← hperm.length_eq, List.length_map]
  · obtain ⟨hcomparable, hregs⟩ := hpairs c hc
    have hfc : f c ∈ rhs := hf.mapsTo hc
    obtain ⟨c', hc'⟩ := exists_firstComparable hfc hcomparable
    obtain ⟨hmem, hcc'⟩ := firstComparable_mem hc'
    refine ⟨c', hc', hregs.congr_right hcomparable ?_⟩
    exact h.rhsRegisters (f c) hfc c' hmem (hcomparable.symm.trans hcc')

theorem DecidesEquivalence.uniform (h : DecidesEquivalence lhs rhs) (hlhs : OverTags tags lhs)
    (hrhs : OverTags tags rhs) (hor : Equivalent lhs rhs ∨ GreedilyRenamed lhs rhs) :
    Uniform lhs rhs := by
  have hgreedy : GreedilyRenamed lhs rhs := by
    rcases hor with hequivalent | hgreedy
    · exact exists_tryGetMapping_iff.1 (h.1.2 hequivalent)
    · exact hgreedy
  have hequivalent : Equivalent lhs rhs := h.1.1 (exists_tryGetMapping_iff.2 hgreedy)
  have hsame : ∀ c ∈ lhs, ∀ d ∈ lhs, Comparable c d → SameRegisters c d :=
    fun c hc d hd => hgreedy.lhsRegisters hlhs hc hd
  exact ⟨hequivalent.counts, hsame,
    fun c hc d hd => hequivalent.rhsRegisters hlhs hrhs hsame hc hd⟩

/-! ## Sets of a generation -/

/-- The sets of a generation have a register for each tag of the NFA. -/
theorem Owned.overTags {numTags : Nat} {owner : Nat → Nat} {S : ConfigurationSet}
    (h : Owned numTags owner S) : OverTags {t | t < numTags} S := by
  intro c hc t
  constructor
  · intro hr
    obtain ⟨r, hr⟩ := hr
    exact h.lt_numTags c hc t r hr
  · exact fun ht => h.total c hc t ht

/-! ### A repeated ambiguous capture -/

/-- The rule `(((?<x>a)|a)b)+c`. -/
def ambiguousRepetition : List LexicalRule :=
  [⟨0, .mkCat
    (.mkMultiplication (.mkCat (.mkOr (.mkCapture (.mkLiteral 97) ⟨0, "x"⟩) (.mkLiteral 97))
      (.mkLiteral 98)) 1 0)
    (.mkLiteral 99)⟩]

/-- Behind `c`, with registers for the start and the end of the capture. -/
def behindRepetition (start stop : Nat) : DeterminizationConfiguration where
  nfaState := 1
  tagIdToRegIds := (OrderedMap.empty.insertOrAssign 0 start).insertOrAssign 1 stop
  history := []
  lookahead := []

/-- The capture matched in the last iteration or did not, and starts in one of two
registers. -/
def behindIterations (start start' stop : Nat) : ConfigurationSet :=
  (OrderedSet.empty.insert (behindRepetition start stop)).insert (behindRepetition start' stop)

theorem find?_behindRepetition (start stop t : Nat) :
    (behindRepetition start stop).tagIdToRegIds.find? t =
      if t = 1 then some stop else if t = 0 then some start else none := by
  simp [behindRepetition]

theorem mem_behindIterations {start start' stop : Nat} {c : DeterminizationConfiguration}
    (h : c ∈ behindIterations start start' stop) :
    c = behindRepetition start stop ∨ c = behindRepetition start' stop := by
  simpa [behindIterations, or_comm] using h

theorem overTags_behindIterations (start start' stop : Nat) :
    OverTags {t | t < 2} (behindIterations start start' stop) := by
  have hfind : ∀ start t, (∃ r, (behindRepetition start stop).tagIdToRegIds.find? t = some r) ↔
      t < 2 := by
    intro start t
    rw [find?_behindRepetition]
    split_ifs with h1 h0
    · simp [h1]
    · simp [h0]
    · simp
      omega
  intro c hc t
  rcases mem_behindIterations hc with rfl | rfl
  · exact hfind start t
  · exact hfind start' t

/-- The registers move by `n`. -/
theorem renamesRegisters_behindRepetition (n start stop : Nat) :
    RenamesRegisters (fun l r => l = r + n) (behindRepetition (start + n) (stop + n))
      (behindRepetition start stop) := by
  intro t l hl _
  rw [find?_behindRepetition] at hl ⊢
  split_ifs at hl ⊢
  · exact ⟨stop, rfl, (Option.some.inj hl).symm⟩
  · exact ⟨start, rfl, (Option.some.inj hl).symm⟩

/-- The registers of one iteration are those of the one before, moved by three. -/
theorem equivalent_behindIterations :
    Equivalent (behindIterations 7 8 9) (behindIterations 4 5 6) := by
  refine ⟨fun l r => l = r + 3, ⟨?_, ?_⟩, fun c =>
    if c = behindRepetition 7 9 then behindRepetition 4 6 else behindRepetition 5 6, ?_, ?_⟩
  · intro l r r' h h'
    omega
  · intro l l' r h h'
    omega
  · refine ⟨?_, ?_, ?_⟩
    · show ∀ c ∈ (behindIterations 7 8 9).toList, _ ∈ (behindIterations 4 5 6).toList
      decide
    · show ∀ c ∈ (behindIterations 7 8 9).toList, ∀ d ∈ (behindIterations 7 8 9).toList, _
      decide
    · show ∀ d ∈ (behindIterations 4 5 6).toList, ∃ c ∈ (behindIterations 7 8 9).toList, _
      decide
  · intro c hc
    dsimp only
    rcases mem_behindIterations hc with rfl | rfl
    · rw [if_pos rfl]
      exact ⟨by decide, renamesRegisters_behindRepetition 3 4 6⟩
    · rw [if_neg (by decide)]
      exact ⟨by decide, renamesRegisters_behindRepetition 3 5 6⟩

/-- `tryGetMapping` decides equivalence exactly when the sets are uniform, as far
as they can be renamed in one way or the other. -/
theorem decidesEquivalence_iff {lhs rhs : ConfigurationSet} {tags : Set Nat}
    (hlhs : OverTags tags lhs) (hrhs : OverTags tags rhs) :
    DecidesEquivalence lhs rhs ↔
      (Equivalent lhs rhs ∨ GreedilyRenamed lhs rhs → Uniform lhs rhs) := by
  constructor
  · exact fun h hor => h.uniform hlhs hrhs hor
  · intro huniform
    have hmapping : ∀ regMap, tryGetMapping lhs rhs = some regMap →
        IsMapping (fun l r => regMap.lookup l = some r) lhs rhs := by
      intro regMap hregMap
      obtain ⟨hsize, hone, hrenames⟩ := tryGetMapping_sound hregMap
      exact (huniform (Or.inr ⟨hsize, _, hone, hrenames⟩)).isMapping hone hrenames
    refine ⟨⟨?_, ?_⟩, hmapping⟩
    · intro h
      obtain ⟨regMap, hregMap⟩ := h
      exact ⟨_, hmapping regMap hregMap⟩
    · intro hequivalent
      apply exists_tryGetMapping_iff.2
      exact (huniform (Or.inl hequivalent)).greedilyRenamed hequivalent


/-- The sets behind one iteration and behind two. -/
theorem decidesEquivalence_iff_repetition :
    DecidesEquivalence (behindIterations 7 8 9) (behindIterations 4 5 6) ↔
      (Equivalent (behindIterations 7 8 9) (behindIterations 4 5 6) ∨
        GreedilyRenamed (behindIterations 7 8 9) (behindIterations 4 5 6) →
        Uniform (behindIterations 7 8 9) (behindIterations 4 5 6)) :=
  decidesEquivalence_iff (overTags_behindIterations 7 8 9) (overTags_behindIterations 4 5 6)

/-- The generation for the rule reaches these sets, which are equivalent, and does
not map one to the other. -/
theorem not_decidesEquivalence_repetition :
    ∃ g S regHandler transitions ops R i, Explores (Nfa.ofRules ambiguousRepetition) id 40 g S
        regHandler transitions ∧
      transitions.find? 99 = some (ops, behindIterations 7 8 9) ∧
      g.dfaStates.find? R = some i ∧ R = behindIterations 4 5 6 ∧
      ¬ DecidesEquivalence (behindIterations 7 8 9) R := by
  have hcheck : checkExplored (Nfa.ofRules ambiguousRepetition) 40 5
      fun g _ _ transitions => decide
        ((transitions.find? 99).map Prod.snd = some (behindIterations 7 8 9) ∧
          (g.dfaStates.find? (behindIterations 4 5 6)).isSome) := by decide +kernel
  obtain ⟨g, S, regHandler, transitions, hexplores, hcheck⟩ := exists_explores_of_check hcheck
  obtain ⟨hD, hR⟩ := of_decide_eq_true hcheck
  obtain ⟨⟨ops, D⟩, hfind, hD⟩ := Option.map_eq_some_iff.1 hD
  obtain ⟨i, hi⟩ := Option.isSome_iff_exists.1 hR
  have hD : D = behindIterations 7 8 9 := hD
  rw [hD] at hfind
  refine ⟨g, S, regHandler, transitions, ops, _, i, hexplores, hfind, hi, rfl, fun h => ?_⟩
  obtain ⟨regMap, hregMap⟩ := h.1.2 equivalent_behindIterations
  have hnone : tryGetMapping (behindIterations 7 8 9) (behindIterations 4 5 6) = none := by
    decide +kernel
  rw [hnone] at hregMap
  cases hregMap

end LogSurgeon.Dfa
