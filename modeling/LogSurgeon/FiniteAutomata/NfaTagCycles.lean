import Mathlib.Algebra.Order.Field.Rat
import Mathlib.Tactic.Linarith
import LogSurgeon.FiniteAutomata.NfaLanguage
import LogSurgeon.FiniteAutomata.NfaTagGraph

/-!
# Cycles of tag operations

An unbounded repetition is a loop at its end state.  When its operand can be
passed without a byte and performs a tag operation on the way, the loop is a
cycle of spontaneous transitions with an operation.

A `Pass` says of a part of the construction whether it can be passed so, whether
an operation is performed then, and whether it has such a cycle.  `Builds` says
that a construction step adds a part with a given pass: it has the paths and the
cycle that the pass promises, and otherwise a rank of the states that increases
along every operation can be extended to the new states.
-/

namespace LogSurgeon

open Lib Lib.LangGraph

/-! ## Passes -/

/-- What a part of the construction adds between its root and its end state. -/
structure Pass where
  /-- The end state is reached without a byte. -/
  skips : Bool
  /-- It is reached so with a tag operation on the way. -/
  tagged : Bool
  /-- Some cycle of spontaneous transitions performs a tag operation. -/
  cyclic : Bool
  skips_of_tagged : tagged = true → skips = true

namespace Pass

/-- No way without a byte. -/
def none : Pass := ⟨false, false, false, by simp⟩

/-- A spontaneous transition without operations. -/
def plain : Pass := ⟨true, false, false, by simp⟩

/-- Both parts between the same two states. -/
def par (t u : Pass) : Pass where
  skips := t.skips || u.skips
  tagged := t.tagged || u.tagged
  cyclic := t.cyclic || u.cyclic
  skips_of_tagged h := by
    rcases Bool.or_eq_true_iff.1 h with h | h
    · simp [t.skips_of_tagged h]
    · simp [u.skips_of_tagged h]

/-- One part after the other. -/
def seq (t u : Pass) : Pass where
  skips := t.skips && u.skips
  tagged := t.skips && u.skips && (t.tagged || u.tagged)
  cyclic := t.cyclic || u.cyclic
  skips_of_tagged h := (Bool.and_eq_true_iff.1 h).1

/-- A part with operations around it. -/
def enclosed (t : Pass) : Pass := ⟨t.skips, t.skips, t.cyclic, id⟩

/-- A node with negative captures performs operations in front of the end. -/
def guarded (neg : List Capture) (t : Pass) : Pass := if neg = [] then t else t.enclosed

/-- A loop at the end state. -/
def loopBack (t : Pass) : Pass := ⟨false, false, t.cyclic || t.tagged, by simp⟩

/-- A repetition.  Without an upper bound, the copies beyond `min` are a loop. -/
def multiply (t : Pass) (min max : Nat) : Pass where
  skips := min = 0 || t.skips
  tagged := t.tagged && !(min = 0 && max = 0)
  cyclic := t.cyclic || (max = 0 && t.tagged)
  skips_of_tagged h := by simp [t.skips_of_tagged (Bool.and_eq_true_iff.1 h).1]

/-- One to `k + 1` copies in sequence. -/
def optional (t : Pass) : Nat → Pass
  | 0 => t
  | k + 1 => t.par (t.seq (t.optional k))

theorem ext {t u : Pass} (hskips : t.skips = u.skips) (htagged : t.tagged = u.tagged)
    (hcyclic : t.cyclic = u.cyclic) : t = u := by
  cases t
  cases u
  simp only at hskips htagged hcyclic
  subst hskips htagged hcyclic
  rfl

theorem tagged_eq_false {t : Pass} (h : t.skips = false) : t.tagged = false := by
  apply Bool.eq_false_of_not_eq_true
  intro htagged
  rw [t.skips_of_tagged htagged] at h
  cases h

theorem seq_self (t : Pass) : t.seq t = t := by
  have h := t.skips_of_tagged
  apply ext
  · simp [seq]
  · cases htagged : t.tagged with
    | false => simp [seq, htagged]
    | true => simp [seq, htagged, h htagged]
  · simp [seq]

theorem par_self (t : Pass) : t.par t = t := by
  apply ext <;> simp [par]

theorem iterate_seq (t : Pass) (k : Nat) : (t.seq)^[k] t = t := by
  induction k with
  | zero => rfl
  | succ k ih => rw [Function.iterate_succ_apply', ih, seq_self]

theorem optional_eq (t : Pass) (k : Nat) : t.optional k = t := by
  induction k with
  | zero => rfl
  | succ k ih => rw [optional, ih, seq_self, par_self]

theorem multiply_zero_unbounded (t : Pass) : t.multiply 0 0 = plain.par t.loopBack := by
  apply ext <;> simp [multiply, plain, par, loopBack]

theorem multiply_unbounded (t : Pass) (min : Nat) :
    t.multiply (min + 1) 0 = t.par t.loopBack := by
  apply ext <;> simp [multiply, par, loopBack]

theorem multiply_zero_bounded (t : Pass) (max : Nat) : t.multiply 0 (max + 1) = plain.par t := by
  apply ext <;> simp [multiply, plain, par]

theorem multiply_bounded (t : Pass) (min : Nat) {max : Nat} (hmax : max ≠ 0) :
    t.multiply (min + 1) max = t := by
  apply ext <;> simp [multiply, hmax]

/-! ### Ranks at the two ends -/

/-- The ranks of the root and of the end state allow the part in between. -/
def Fits (t : Pass) (x y : ℚ) : Prop :=
  (t.skips = true → x ≤ y) ∧ (t.tagged = true → x < y)

theorem fits_of_lt {t : Pass} {x y : ℚ} (h : x < y) : t.Fits x y := ⟨fun _ => h.le, fun _ => h⟩

theorem Fits.par {t u : Pass} {x y : ℚ} (h : (t.par u).Fits x y) : t.Fits x y ∧ u.Fits x y := by
  obtain ⟨hskips, htagged⟩ := h
  refine ⟨⟨fun ht => hskips ?_, fun ht => htagged ?_⟩, fun hu => hskips ?_, fun hu => htagged ?_⟩
  · simp [Pass.par, ht]
  · simp [Pass.par, ht]
  · simp [Pass.par, hu]
  · simp [Pass.par, hu]

/-- The state between two parts gets a rank in between. -/
theorem Fits.seq {t u : Pass} {x y : ℚ} (h : (t.seq u).Fits x y) :
    ∃ z, t.Fits x z ∧ u.Fits z y := by
  obtain ⟨hskips, htagged⟩ := h
  cases ht : t.skips with
  | false =>
    refine ⟨y - 1, ⟨by simp [ht], by simp [tagged_eq_false ht]⟩, fits_of_lt ?_⟩
    linarith
  | true =>
    cases hu : u.skips with
    | false =>
      refine ⟨x + 1, fits_of_lt ?_, ⟨by simp [hu], by simp [tagged_eq_false hu]⟩⟩
      linarith
    | true =>
      have hle : x ≤ y := hskips (by simp [Pass.seq, ht, hu])
      refine ⟨(x + y) / 2, ⟨fun _ => by linarith, fun htag => ?_⟩,
        fun _ => by linarith, fun hutag => ?_⟩
      · have hlt : x < y := htagged (by simp [Pass.seq, ht, hu, htag])
        linarith
      · have hlt : x < y := htagged (by simp [Pass.seq, ht, hu, hutag])
        linarith

theorem Fits.mono_left {t : Pass} {x y z : ℚ} (h : t.Fits y z) (hle : x ≤ y) : t.Fits x z :=
  ⟨fun ht => hle.trans (h.1 ht), fun ht => hle.trans_lt (h.2 ht)⟩

/-- Both states around a part get ranks in between. -/
theorem Fits.enclosed {t : Pass} {x y : ℚ} (h : t.enclosed.Fits x y) :
    ∃ z z', x < z ∧ t.Fits z z' ∧ z' < y := by
  cases ht : t.skips with
  | false =>
    exact ⟨x + 1, y - 1, by linarith, ⟨by simp [ht], by simp [tagged_eq_false ht]⟩, by linarith⟩
  | true =>
    have hlt : x < y := h.2 ht
    refine ⟨(2 * x + y) / 3, (x + 2 * y) / 3, by linarith, fits_of_lt ?_, by linarith⟩
    linarith

end Pass

/-! ## Ranks of the states -/

namespace Nfa

/-- The transitions join states that exist, and the rank increases along every
tag operation. -/
def RankedBy (nfa : Nfa) (rank : Nat → ℚ) : Prop :=
  SupportedOn (Set.Iio nfa.states.length) nfa.tagEdges ∧ Ranked nfa.tagEdges rank

variable {nfa nfa' : Nfa} {rank rank' : Nat → ℚ}

/-- Only the ranks of the states that exist matter. -/
theorem RankedBy.congr (h : nfa.RankedBy rank)
    (hagree : ∀ p < nfa.states.length, rank' p = rank p) : nfa.RankedBy rank' := by
  refine ⟨h.1, fun p q w hw => ?_⟩
  obtain ⟨hp, hq⟩ := h.1 p q w hw
  rw [hagree p hp, hagree q hq]
  exact h.2 p q w hw

theorem RankedBy.of_tagEdges_eq (h : nfa.RankedBy rank) (hedges : nfa'.tagEdges = nfa.tagEdges)
    (hlength : nfa.states.length ≤ nfa'.states.length) : nfa'.RankedBy rank := by
  unfold RankedBy
  rw [hedges]
  exact ⟨SupportedOn.mono (Set.Iio_subset_Iio hlength) h.1, h.2⟩

/-- The transitions that are added go up. -/
theorem RankedBy.sup (h : nfa.RankedBy rank) {X : LangGraph Nat TagOperation}
    (hedges : nfa'.tagEdges = nfa.tagEdges ⊔ X)
    (hlength : nfa.states.length ≤ nfa'.states.length)
    (hX : SupportedOn (Set.Iio nfa'.states.length) X) (hranked : Ranked X rank) :
    nfa'.RankedBy rank := by
  unfold RankedBy
  rw [hedges]
  exact ⟨(SupportedOn.mono (Set.Iio_subset_Iio hlength) h.1).sup hX, h.2.sup hranked⟩

/-- A new state gets any rank. -/
theorem RankedBy.newState (h : nfa.RankedBy rank) (z : ℚ) :
    nfa.newState.1.RankedBy (Function.update rank nfa.states.length z) := by
  have hold : nfa.RankedBy (Function.update rank nfa.states.length z) := by
    apply h.congr
    intro p hp
    exact Function.update_of_ne hp.ne z rank
  apply hold.of_tagEdges_eq (tagEdges_newState nfa)
  rw [length_newState]
  omega

end Nfa

/-! ## Parts of the construction -/

/-- `nfa'` is `nfa` with a part between `p` and `e` that has the pass `t`. -/
structure HasPass (t : Pass) (nfa : Nfa) (p e : Nat) (nfa' : Nfa) : Prop where
  grows : nfa.Grows nfa'
  skips : t.skips = true → ∃ ops, Walk nfa'.tagEdges p ops e
  tagged : t.tagged = true → ∃ ops ≠ [], Walk nfa'.tagEdges p ops e
  cyclic : t.cyclic = true → ∃ q, LabelledCycle nfa'.tagEdges q
  ranked : t.cyclic = false → ∀ rank, nfa.RankedBy rank → t.Fits (rank p) (rank e) →
    ∃ rank', (∀ q < nfa.states.length, rank' q = rank q) ∧ nfa'.RankedBy rank'

namespace HasPass

variable {t u : Pass} {nfa nfa' nfa'' : Nfa} {p e : Nat}

theorem setRoot (h : HasPass t nfa p e nfa') (root : Nat) : HasPass t nfa p e (nfa'.setRoot root) :=
  ⟨h.grows, h.skips, h.tagged, h.cyclic, h.ranked⟩

theorem of_setRoot {root : Nat} (h : HasPass t (nfa.setRoot root) p e nfa') : HasPass t nfa p e nfa' :=
  ⟨h.grows, h.skips, h.tagged, h.cyclic, h.ranked⟩

/-- Byte transitions do not matter. -/
theorem of_tagEdges_eq (hedges : nfa'.tagEdges = nfa.tagEdges)
    (hlength : nfa'.states.length = nfa.states.length) : HasPass Pass.none nfa p e nfa' where
  grows := ⟨hlength.ge, fun x y ops h => by rwa [hedges]⟩
  skips h := by cases h
  tagged h := by cases h
  cyclic h := by cases h
  ranked _ rank hrank _ := ⟨rank, fun _ _ => rfl, hrank.of_tagEdges_eq hedges hlength.ge⟩

/-- A spontaneous transition without operations. -/
theorem plain (hp : p < nfa.states.length) (he : e < nfa.states.length) :
    HasPass Pass.plain nfa p e (nfa.modifyState p (·.addSpontaneousTransition [] e)) where
  grows := Nfa.keptByOperations_grows.addSpontaneousTransition nfa p [] e
  skips _ := by
    refine ⟨[], Walk.single ?_⟩
    rw [Nfa.tagEdges_addSpontaneousTransition hp]
    exact Or.inr ⟨rfl, rfl, rfl⟩
  tagged h := by cases h
  cyclic h := by cases h
  ranked _ rank hrank hfits := by
    have hlength := Nfa.length_modifyState nfa p (·.addSpontaneousTransition [] e)
    refine ⟨rank, fun _ _ => rfl, ?_⟩
    apply hrank.sup (Nfa.tagEdges_addSpontaneousTransition hp [] e) hlength.ge
    · rw [hlength]
      exact supportedOn_edge (Set.mem_Iio.2 hp) (Set.mem_Iio.2 he) _
    · exact ranked_edge (hfits.1 rfl) fun hne => absurd rfl hne

/-- Two parts between the same states. -/
theorem par (h : HasPass t nfa p e nfa') (h' : HasPass u nfa' p e nfa'')
    (hp : p < nfa.states.length) (he : e < nfa.states.length) :
    HasPass (t.par u) nfa p e nfa'' where
  grows := Nfa.keptByOperations_grows.trans h.grows h'.grows
  skips hskips := by
    rcases Bool.or_eq_true_iff.1 hskips with ht | hu
    · obtain ⟨ops, hops⟩ := h.skips ht
      exact ⟨ops, h'.grows.walk hops⟩
    · exact h'.skips hu
  tagged htagged := by
    rcases Bool.or_eq_true_iff.1 htagged with ht | hu
    · obtain ⟨ops, hne, hops⟩ := h.tagged ht
      exact ⟨ops, hne, h'.grows.walk hops⟩
    · exact h'.tagged hu
  cyclic hcyclic := by
    rcases Bool.or_eq_true_iff.1 hcyclic with ht | hu
    · obtain ⟨q, hq⟩ := h.cyclic ht
      exact ⟨q, h'.grows.labelledCycle hq⟩
    · exact h'.cyclic hu
  ranked hcyclic rank hrank hfits := by
    obtain ⟨ht, hu⟩ := Bool.or_eq_false_iff.1 hcyclic
    obtain ⟨hfits, hfits'⟩ := hfits.par
    obtain ⟨rank₁, hagree₁, hrank₁⟩ := h.ranked ht rank hrank hfits
    rw [← hagree₁ p hp, ← hagree₁ e he] at hfits'
    obtain ⟨rank₂, hagree₂, hrank₂⟩ := h'.ranked hu rank₁ hrank₁ hfits'
    refine ⟨rank₂, fun q hq => ?_, hrank₂⟩
    rw [hagree₂ q (hq.trans_le h.grows.1), hagree₁ q hq]

/-- A part up to a new state, and one from there. -/
theorem seq (h : HasPass t nfa.newState.1 p nfa.states.length nfa')
    (h' : HasPass u nfa' nfa.states.length e nfa'') (hp : p < nfa.states.length)
    (he : e < nfa.states.length) : HasPass (t.seq u) nfa p e nfa'' where
  grows := by
    have hkept := Nfa.keptByOperations_grows
    exact hkept.trans (hkept.trans (hkept.newState nfa) h.grows) h'.grows
  skips hskips := by
    obtain ⟨ht, hu⟩ := Bool.and_eq_true_iff.1 hskips
    obtain ⟨ops, hops⟩ := h.skips ht
    obtain ⟨ops', hops'⟩ := h'.skips hu
    exact ⟨ops ++ ops', (h'.grows.walk hops).append hops'⟩
  tagged htagged := by
    obtain ⟨hskips, htagged⟩ := Bool.and_eq_true_iff.1 htagged
    obtain ⟨ht, hu⟩ := Bool.and_eq_true_iff.1 hskips
    rcases Bool.or_eq_true_iff.1 htagged with htagged | htagged
    · obtain ⟨ops, hne, hops⟩ := h.tagged htagged
      obtain ⟨ops', hops'⟩ := h'.skips hu
      exact ⟨ops ++ ops', by simp [hne], (h'.grows.walk hops).append hops'⟩
    · obtain ⟨ops, hops⟩ := h.skips ht
      obtain ⟨ops', hne, hops'⟩ := h'.tagged htagged
      exact ⟨ops ++ ops', by simp [hne], (h'.grows.walk hops).append hops'⟩
  cyclic hcyclic := by
    rcases Bool.or_eq_true_iff.1 hcyclic with ht | hu
    · obtain ⟨q, hq⟩ := h.cyclic ht
      exact ⟨q, h'.grows.labelledCycle hq⟩
    · exact h'.cyclic hu
  ranked hcyclic rank hrank hfits := by
    obtain ⟨ht, hu⟩ := Bool.or_eq_false_iff.1 hcyclic
    obtain ⟨z, hfits, hfits'⟩ := hfits.seq
    have hold : ∀ q < nfa.states.length,
        Function.update rank nfa.states.length z q = rank q :=
      fun q hq => Function.update_of_ne hq.ne z rank
    have hnew : Function.update rank nfa.states.length z nfa.states.length = z :=
      Function.update_self _ _ _
    rw [← hold p hp] at hfits
    rw [← hold e he] at hfits'
    have hlength := Nfa.length_newState nfa
    obtain ⟨rank₁, hagree₁, hrank₁⟩ :=
      h.ranked ht _ (hrank.newState z) (by rw [hnew]; exact hfits)
    have hmid : rank₁ nfa.states.length = z := by
      rw [hagree₁ _ (by omega), hnew]
    obtain ⟨rank₂, hagree₂, hrank₂⟩ := h'.ranked hu rank₁ hrank₁ (by
      rw [hmid, hagree₁ e (by omega)]
      exact hfits')
    have hgrows := h.grows.1
    refine ⟨rank₂, fun q hq => ?_, hrank₂⟩
    rw [hagree₂ q (by omega), hagree₁ q (by omega), hold q hq]

/-- A part from the end state to itself. -/
theorem loopBack (h : HasPass t nfa e e nfa') : HasPass t.loopBack nfa p e nfa' where
  grows := h.grows
  skips hskips := by cases hskips
  tagged htagged := by cases htagged
  cyclic hcyclic := by
    rcases Bool.or_eq_true_iff.1 hcyclic with ht | ht
    · exact h.cyclic ht
    · obtain ⟨ops, hne, hops⟩ := h.tagged ht
      exact ⟨e, e, [], ops, Walk.nil e, hne, hops⟩
  ranked hcyclic rank hrank _ := by
    obtain ⟨hcyclic, htagged⟩ := Bool.or_eq_false_iff.1 hcyclic
    exact h.ranked hcyclic rank hrank ⟨fun _ => le_refl _, by simp [htagged]⟩

/-- A part behind which the negative captures are handled. -/
theorem negated {neg : List Capture} (hneg : neg ≠ [])
    (h : HasPass t (nfa.newStateFromNegativeCaptures neg e).1 p nfa.states.length nfa')
    (hp : p < nfa.states.length) (he : e < nfa.states.length) :
    HasPass t.enclosed nfa p e nfa' := by
  obtain ⟨ops, hne, hedges⟩ := Nfa.tagEdges_newStateFromNegativeCaptures nfa hneg e
  obtain ⟨-, hlength, -, -⟩ := Nfa.newStateFromNegativeCaptures_spec nfa neg e
  have hgrows := Nfa.keptByOperations_grows.newStateFromNegativeCaptures nfa neg e
  generalize (nfa.newStateFromNegativeCaptures neg e).1 = nfa₀ at h hedges hlength hgrows
  have hexit : Walk nfa'.tagEdges nfa.states.length ops e := by
    apply h.grows.walk
    apply Walk.single
    rw [hedges]
    exact Or.inr ⟨rfl, rfl, rfl⟩
  have hskips : t.skips = true → ∃ ops ≠ [], Walk nfa'.tagEdges p ops e := by
    intro ht
    obtain ⟨ops', hops'⟩ := h.skips ht
    exact ⟨ops' ++ ops, by simp [hne], hops'.append hexit⟩
  refine ⟨Nfa.keptByOperations_grows.trans hgrows h.grows, ?_, hskips, h.cyclic, ?_⟩
  · intro ht
    obtain ⟨ops', -, hops'⟩ := hskips ht
    exact ⟨ops', hops'⟩
  · intro hcyclic rank hrank hfits
    obtain ⟨z, z', hz, hfits, hz'⟩ := hfits.enclosed
    have hfits := hfits.mono_left hz.le
    have hold : ∀ q < nfa.states.length,
        Function.update rank nfa.states.length z' q = rank q :=
      fun q hq => Function.update_of_ne hq.ne z' rank
    have hnew : Function.update rank nfa.states.length z' nfa.states.length = z' :=
      Function.update_self _ _ _
    generalize Function.update rank nfa.states.length z' = rank₀ at hold hnew
    have hrank₀ : nfa₀.RankedBy rank₀ := by
      apply (hrank.congr hold).sup hedges
      · omega
      · apply supportedOn_edge
        · exact Set.mem_Iio.2 (by omega)
        · exact Set.mem_Iio.2 (by omega)
      · have hlt : rank₀ nfa.states.length < rank₀ e := by
          rw [hnew, hold e he]
          exact hz'
        exact ranked_edge hlt.le fun _ => hlt
    obtain ⟨rank₁, hagree₁, hrank₁⟩ := h.ranked hcyclic rank₀ hrank₀ (by
      rw [hnew, hold p hp]
      exact hfits)
    refine ⟨rank₁, fun q hq => ?_, hrank₁⟩
    rw [hagree₁ q (by omega), hold q hq]

/-- A part between the two states of a capture. -/
theorem captured {c : Capture} (hroot : nfa.root < nfa.states.length)
    (h : HasPass t (nfa.newStartAndEndStatesFromPositiveCapture c e).1 nfa.states.length
      (nfa.states.length + 1) nfa')
    (he : e < nfa.states.length) : HasPass t.enclosed nfa nfa.root e nfa' := by
  obtain ⟨ops, hne, ops', hne', hedges⟩ := Nfa.tagEdges_newStartAndEndStates hroot c e
  obtain ⟨-, hlength, -⟩ := Nfa.newStartAndEndStatesFromPositiveCapture_spec hroot c e
  have hgrows := Nfa.keptByOperations_grows.newStartAndEndStates nfa c e
  generalize (nfa.newStartAndEndStatesFromPositiveCapture c e).1 = nfa₀ at h hedges hlength hgrows
  have hentry : Walk nfa'.tagEdges nfa.root ops nfa.states.length := by
    apply h.grows.walk
    apply Walk.single
    rw [hedges]
    exact Or.inl (Or.inr ⟨rfl, rfl, rfl⟩)
  have hexit : Walk nfa'.tagEdges (nfa.states.length + 1) ops' e := by
    apply h.grows.walk
    apply Walk.single
    rw [hedges]
    exact Or.inr ⟨rfl, rfl, rfl⟩
  have hskips : t.skips = true → ∃ ops ≠ [], Walk nfa'.tagEdges nfa.root ops e := by
    intro ht
    obtain ⟨inner, hinner⟩ := h.skips ht
    exact ⟨ops ++ inner ++ ops', by simp [hne], (hentry.append hinner).append hexit⟩
  refine ⟨Nfa.keptByOperations_grows.trans hgrows h.grows, ?_, hskips, h.cyclic, ?_⟩
  · intro ht
    obtain ⟨all, -, hall⟩ := hskips ht
    exact ⟨all, hall⟩
  · intro hcyclic rank hrank hfits
    obtain ⟨z, z', hz, hfits, hz'⟩ := hfits.enclosed
    have hold : ∀ q < nfa.states.length, Function.update
        (Function.update rank nfa.states.length z) (nfa.states.length + 1) z' q = rank q := by
      intro q hq
      rw [Function.update_of_ne (by omega), Function.update_of_ne (by omega)]
    have hstart : Function.update (Function.update rank nfa.states.length z)
        (nfa.states.length + 1) z' nfa.states.length = z := by
      rw [Function.update_of_ne (by omega), Function.update_self]
    have hend : Function.update (Function.update rank nfa.states.length z)
        (nfa.states.length + 1) z' (nfa.states.length + 1) = z' := Function.update_self _ _ _
    generalize Function.update (Function.update rank nfa.states.length z)
      (nfa.states.length + 1) z' = rank₀ at hold hstart hend
    have hrank₀ : nfa₀.RankedBy rank₀ := by
      rw [sup_assoc] at hedges
      apply (hrank.congr hold).sup hedges
      · omega
      · apply SupportedOn.sup
        · apply supportedOn_edge
          · exact Set.mem_Iio.2 (by omega)
          · exact Set.mem_Iio.2 (by omega)
        · apply supportedOn_edge
          · exact Set.mem_Iio.2 (by omega)
          · exact Set.mem_Iio.2 (by omega)
      · have hlt : rank₀ nfa.root < rank₀ nfa.states.length := by
          rw [hold nfa.root hroot, hstart]
          exact hz
        have hlt' : rank₀ (nfa.states.length + 1) < rank₀ e := by
          rw [hend, hold e he]
          exact hz'
        exact (ranked_edge hlt.le fun _ => hlt).sup (ranked_edge hlt'.le fun _ => hlt')
    obtain ⟨rank₁, hagree₁, hrank₁⟩ := h.ranked hcyclic rank₀ hrank₀ (by
      rw [hstart, hend]
      exact hfits)
    refine ⟨rank₁, fun q hq => ?_, hrank₁⟩
    rw [hagree₁ q (by omega), hold q hq]

end HasPass

/-! ## Construction steps -/

/-- `add` adds a part with the pass `t` between the root and the end state. -/
def Builds (add : Nfa → Nat → Nfa) (t : Pass) : Prop :=
  ∀ nfa e, nfa.root < nfa.states.length → e < nfa.states.length →
    HasPass t nfa nfa.root e (add nfa e)

section Steps

variable {add add' : Nfa → Nat → Nfa} {t u : Pass}

theorem Builds.congr (h : Builds add t) (heq : add = add') : Builds add' t := heq ▸ h

theorem Builds.congr_pass (h : Builds add t) (heq : t = u) : Builds add u := heq ▸ h

theorem Builds.setRoot (h : Builds add t) (root : Nfa → Nat → Nat) :
    Builds (fun nfa e => (add nfa e).setRoot (root nfa e)) t :=
  fun nfa e hroot he => (h nfa e hroot he).setRoot (root nfa e)

theorem builds_plain : Builds (fun nfa e => nfa.addRootSpontaneousTransition e) Pass.plain :=
  fun _ _ hroot he => HasPass.plain hroot he

/-- Two steps from the same root to the same end state. -/
theorem Builds.par (h : Builds add t) (h' : Builds add' u) :
    Builds (fun nfa e => add' ((add nfa e).setRoot nfa.root) e) (t.par u) := by
  intro nfa e hroot he
  have hfirst := (h nfa e hroot he).setRoot nfa.root
  have hlength := hfirst.grows.1
  exact hfirst.par (h' _ e (hroot.trans_le hlength) (he.trans_le hlength)) hroot he

/-- A step to a new state, followed by a step from there. -/
theorem Builds.seq (h : Builds add t) (h' : Builds add' u) :
    Builds (fun nfa e =>
      add' ((add nfa.newState.1 nfa.newState.2).setRoot nfa.newState.2) e) (t.seq u) := by
  intro nfa e hroot he
  have hlength := Nfa.length_newState nfa
  have hfirst := (h nfa.newState.1 nfa.newState.2
    (by rw [Nfa.root_newState]; omega) (by rw [Nfa.newState_snd]; omega)).setRoot nfa.newState.2
  have hgrows := hfirst.grows.1
  apply hfirst.seq _ hroot he
  apply h'
  · rw [Nfa.root_setRoot, Nfa.newState_snd] at *
    omega
  · omega

/-- A step from the end state back to itself. -/
theorem Builds.loopBack (h : Builds add t) :
    Builds (fun nfa e => add (nfa.setRoot e) e) t.loopBack := by
  intro nfa e _ he
  exact (h (nfa.setRoot e) e he he).of_setRoot.loopBack

/-- A node whose negative captures are handled in front of the end state. -/
theorem Builds.guarded (neg : List Capture) (h : Builds add t) :
    Builds (Nfa.addWithNegativeCaptures neg add) (t.guarded neg) := by
  intro nfa e hroot he
  unfold Nfa.addWithNegativeCaptures Pass.guarded
  by_cases hneg : neg = []
  · rw [if_pos hneg, if_pos hneg]
    exact h nfa e hroot he
  · rw [if_neg hneg, if_neg hneg]
    obtain ⟨hsnd, hlength, hsame, -⟩ := Nfa.newStateFromNegativeCaptures_spec nfa neg e
    have hpass := h (nfa.newStateFromNegativeCaptures neg e).1 nfa.states.length
      (by rw [hsame]; omega) (by omega)
    rw [hsame] at hpass
    show HasPass _ nfa _ e (add _ (nfa.newStateFromNegativeCaptures neg e).2)
    rw [hsnd]
    exact hpass.negated hneg hroot he

/-- Copies in sequence, followed by a step from the last intermediate state. -/
theorem Builds.copies (h : Builds add t) (h' : Builds add' u) (k : Nat) :
    Builds (fun nfa e => add' (Nfa.addCopies add k nfa) e) ((t.seq)^[k] u) := by
  induction k with
  | zero => exact h'
  | succ k ih =>
    rw [Function.iterate_succ_apply']
    exact h.seq ih

/-- Copies in sequence, each of which may end the repetition. -/
theorem Builds.optional (h : Builds add t) (hroot : KeepsRoot add) (k : Nat) :
    Builds (fun nfa e => add (Nfa.addOptionalCopies add e k nfa) e) (t.optional k) := by
  induction k with
  | zero => exact h
  | succ k ih =>
    refine (h.par (h.seq ih)).congr ?_
    funext nfa e
    rw [Nfa.setRoot_eq_self (hroot nfa e)]
    rfl

/-- The repetition of a step. -/
theorem Builds.multiplication (h : Builds add t) (hroot : KeepsRoot add) (min max : Nat) :
    Builds (Nfa.addMultiplication add min max) (t.multiply min max) := by
  have hcopies : ∀ k, Builds (fun nfa e => add (Nfa.addCopies add k nfa) e) t := fun k =>
    (h.copies h k).congr_pass (t.iterate_seq k)
  have hoptional : ∀ k, Builds (fun nfa e => add (Nfa.addOptionalCopies add e k nfa) e) t :=
    fun k => (h.optional hroot k).congr_pass (t.optional_eq k)
  -- the required copies, the loop, and the optional copies are the cases of the source
  rcases Nat.eq_zero_or_pos max with rfl | hmax
  · cases min with
    | zero =>
      rw [Pass.multiply_zero_unbounded]
      exact (builds_plain.par h.loopBack).setRoot fun nfa _ => nfa.root
    | succ min =>
      rw [Pass.multiply_unbounded]
      exact ((hcopies min).par h.loopBack).setRoot fun nfa _ => nfa.root
  · cases min with
    | zero =>
      obtain ⟨max, rfl⟩ := Nat.exists_eq_succ_of_ne_zero hmax.ne'
      rw [Pass.multiply_zero_bounded]
      have hall := (builds_plain.par (hoptional max)).setRoot fun nfa _ => nfa.root
      exact hall.congr (Nfa.addMultiplication_zero_bounded add max).symm
    | succ min =>
      rw [Pass.multiply_bounded t min hmax.ne']
      by_cases hlt : min + 1 < max
      · have hall := (h.copies (hoptional (max - (min + 1 + 1) + 1)) min).congr_pass
          (t.iterate_seq min)
        exact (hall.setRoot fun nfa _ => nfa.root).congr
          (Nfa.addMultiplication_bounded add hlt).symm
      · exact ((hcopies min).setRoot fun nfa _ => nfa.root).congr
          (Nfa.addMultiplication_exact add hmax.ne' hlt).symm

/-- A step between the two states of a capture. -/
theorem Builds.captured (c : Capture) (h : Builds add t) :
    Builds (fun nfa e =>
      add ((nfa.newStartAndEndStatesFromPositiveCapture c e).1.setRoot
        (nfa.newStartAndEndStatesFromPositiveCapture c e).2.1)
        (nfa.newStartAndEndStatesFromPositiveCapture c e).2.2) t.enclosed := by
  intro nfa e hroot he
  beta_reduce
  obtain ⟨hsnd, hlength, -⟩ := Nfa.newStartAndEndStatesFromPositiveCapture_spec hroot c e
  rw [hsnd]
  refine HasPass.captured (c := c) hroot (HasPass.of_setRoot (h _ _ ?_ ?_)) he
  · rw [Nfa.root_setRoot, Nfa.states_setRoot]
    omega
  · rw [Nfa.states_setRoot]
    omega

/-- The ranges of a group. -/
theorem builds_ranges (ranges : List Range) :
    Builds (fun nfa e => ranges.foldl (fun nfa range => nfa.addRootInterval range e) nfa)
      Pass.none := by
  have hfold : ∀ (nfa : Nfa) (e : Nat),
      (ranges.foldl (fun nfa range => nfa.addRootInterval range e) nfa).tagEdges = nfa.tagEdges ∧
      (ranges.foldl (fun nfa range => nfa.addRootInterval range e) nfa).states.length =
        nfa.states.length := by
    intro nfa e
    induction ranges generalizing nfa with
    | nil => exact ⟨rfl, rfl⟩
    | cons range ranges ih =>
      obtain ⟨hedges, hlength⟩ := ih (nfa.addRootInterval range e)
      refine ⟨hedges.trans ?_, hlength.trans ?_⟩
      · exact Nfa.tagEdges_addInterval nfa nfa.root range e
      · exact Nfa.length_modifyState nfa _ _
  intro nfa e _ _
  exact HasPass.of_tagEdges_eq (hfold nfa e).1 (hfold nfa e).2

end Steps

/-! ## Every tree -/

namespace RegexAST

/-- The pass of the sub-automaton of a tree. -/
def pass : RegexAST → Pass
  | empty _ => .plain
  | literal _ _ | group _ _ => .none
  | or _ l r => (l.pass.guarded l.negativeCaptures).par (r.pass.guarded r.negativeCaptures)
  | cat _ l r => (l.pass.guarded l.negativeCaptures).seq (r.pass.guarded r.negativeCaptures)
  | multiplication _ r min max => (r.pass.guarded r.negativeCaptures).multiply min max
  | capture _ r _ => (r.pass.guarded r.negativeCaptures).enclosed

/-- Some repetition without an upper bound has an operand that can be passed
without a byte and performs a tag operation on the way. -/
def RepeatsTagged (r : RegexAST) : Prop := r.pass.cyclic = true

instance (r : RegexAST) : Decidable r.RepeatsTagged :=
  inferInstanceAs (Decidable (_ = true))

theorem builds_addToNfa (r : RegexAST) : Builds r.addToNfa r.pass := by
  induction r with
  | empty neg => exact builds_plain
  | literal neg c => exact builds_ranges [(c, c)]
  | group neg g => exact builds_ranges g.transitionRanges
  | or neg l r ihl ihr =>
    refine ((ihl.guarded l.negativeCaptures).par (ihr.guarded r.negativeCaptures)).congr ?_
    funext nfa e
    rw [Nfa.setRoot_eq_self
      (keepsRoot_addWithNegativeCaptures (keepsRoot_addToNfa l) nfa e)]
    rfl
  | cat neg l r ihl ihr =>
    exact ((ihl.guarded l.negativeCaptures).seq
      (ihr.guarded r.negativeCaptures)).setRoot fun nfa _ => nfa.root
  | multiplication neg r min max ih =>
    exact (ih.guarded r.negativeCaptures).multiplication
      (keepsRoot_addWithNegativeCaptures (keepsRoot_addToNfa r)) min max
  | capture neg r c ih =>
    exact ((ih.guarded r.negativeCaptures).captured c).setRoot
      fun nfa e => (nfa.newStartAndEndStatesFromPositiveCapture c e).1.root

theorem cyclic_guarded (t : Pass) (neg : List Capture) : (t.guarded neg).cyclic = t.cyclic := by
  unfold Pass.guarded
  split <;> rfl

end RegexAST

end LogSurgeon
