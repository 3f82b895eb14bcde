import LogSurgeon.FiniteAutomata.TrackedSets

/-!
# When the generation ends

For an NFA with finite closures, the generation ends if and only if the NFA
settles (`exists_determinize_iff_settles`): every infinite word has infinitely
many unambiguous prefixes, or two prefixes with the same runs.

* If it does not end, Kőnig's lemma gives an infinite word whose prefixes all
  have states of their own.  Two prefixes with the same runs have the same
  set, and among many unambiguous prefixes two have sets of one shape, so the
  later one would have been mapped to the earlier one.
* If it ends, the DFA runs on every infinite word.  The set of an ambiguous
  prefix has no mapping, so from some prefix on the run follows the computed
  sets exactly.  The first of the states that are visited for ever was created
  before all registers that are added later, so its set keeps old positions
  only, and there are finitely many runs with these.

For `a+(?<c>a+)`, every further `a` is another start of the capture, and the
generation does not end.
-/

namespace LogSurgeon.Dfa

open Lib Determinization

variable {nfa : Nfa} {regMapOrder : List (Nat × Nat) → List (Nat × Nat)} {fuel fuel' : Nat}
variable {g g' : Determinization} {S₀ : ConfigurationSet}

/-! ## Numbers of steps -/

/-- Enough steps for the closures find the same closures. -/
theorem spontaneousClosure_congr
    (h : ∀ c : DeterminizationConfiguration, ∃ S, c.spontaneousClosure nfa fuel = some S)
    (h' : ∀ c : DeterminizationConfiguration, ∃ S, c.spontaneousClosure nfa fuel' = some S)
    (c : DeterminizationConfiguration) :
    c.spontaneousClosure nfa fuel = c.spontaneousClosure nfa fuel' := by
  obtain ⟨S, hS⟩ := h c
  obtain ⟨S', hS'⟩ := h' c
  have heq : S = S' := by
    refine OrderedSet.ext fun x => ?_
    rw [DeterminizationConfiguration.mem_spontaneousClosure hS,
      DeterminizationConfiguration.mem_spontaneousClosure hS']
  rw [hS, hS', heq]

theorem loop_congr
    (h : ∀ c : DeterminizationConfiguration,
      c.spontaneousClosure nfa fuel = c.spontaneousClosure nfa fuel')
    (steps : Nat) (g : Determinization) :
    loop nfa regMapOrder fuel steps g = loop nfa regMapOrder fuel' steps g := by
  have hstep : transitionStep nfa fuel nfa.numTags = transitionStep nfa fuel' nfa.numTags := by
    funext st step
    unfold transitionStep
    rw [h]
  have hexplore : ∀ g S, explore nfa regMapOrder fuel g S = explore nfa regMapOrder fuel' g S := by
    intro g S
    unfold explore getTransitions
    rw [hstep]
  induction steps generalizing g with
  | zero =>
    unfold loop
    cases g.unexploredSets <;> rfl
  | succ steps ih =>
    unfold loop
    cases g.unexploredSets with
    | nil => rfl
    | cons S rest => simp only [hexplore, ih]

theorem loop_mono {steps steps' : Nat} (hle : steps ≤ steps')
    (h : loop nfa regMapOrder fuel steps g = some g') :
    loop nfa regMapOrder fuel steps' g = some g' := by
  induction steps generalizing g steps' with
  | zero =>
    unfold loop at h ⊢
    cases hqueue : g.unexploredSets with
    | nil => simpa [hqueue] using h
    | cons S rest => simp [hqueue] at h
  | succ steps ih =>
    obtain ⟨steps', rfl⟩ : ∃ n, steps' = n + 1 := ⟨steps' - 1, by omega⟩
    unfold loop at h ⊢
    cases hqueue : g.unexploredSets with
    | nil => simpa [hqueue] using h
    | cons S rest =>
      simp only [hqueue] at h ⊢
      obtain ⟨g₁, hg₁, hloop⟩ := Option.bind_eq_some_iff.1 h
      exact Option.bind_eq_some_iff.2 ⟨g₁, hg₁, ih (by omega) hloop⟩

/-! ## Generations that do not end -/

/-- A loop that is cut off has explored a set in every step, and the sets that
were explored or are queued all have states. -/
theorem exists_states_of_loop_eq_none
    (hclosure : ∀ c : DeterminizationConfiguration,
      ∃ S, c.spontaneousClosure nfa fuel = some S)
    {steps : Nat} (h : LoopInvariant nfa regMapOrder fuel S₀ g)
    (hloop : loop nfa regMapOrder fuel steps g = none) :
    ∃ g', LoopInvariant nfa regMapOrder fuel S₀ g' ∧
      g.dfa.states.length + steps ≤ g'.dfa.states.length + g.unexploredSets.length := by
  induction steps generalizing g with
  | zero => exact ⟨g, h, by omega⟩
  | succ steps ih =>
    unfold loop at hloop
    cases hqueue : g.unexploredSets with
    | nil => simp [hqueue] at hloop
    | cons S rest =>
      simp only [hqueue] at hloop
      obtain ⟨i, hi, -⟩ := h.queued S (by rw [hqueue]; exact List.mem_cons_self)
      obtain ⟨⟨rh, ts⟩, hts⟩ := exists_getTransitions hclosure g.dfa.regHandler S
      have hexplore : ∃ g₁, explore nfa regMapOrder fuel
          { g with unexploredSets := rest } S = some g₁ := by
        unfold explore
        simp [hi, hts]
      obtain ⟨g₁, hg₁⟩ := hexplore
      obtain ⟨hinv₁, -, hbalance⟩ := explore_spec h hqueue hg₁
      rw [hg₁] at hloop
      obtain ⟨g', hinv', hle⟩ := ih hinv₁ hloop
      refine ⟨g', hinv', ?_⟩
      rw [List.length_cons]
      omega

/-- The words along which states were created. -/
def spannedWords (nfa : Nfa) (regMapOrder : List (Nat × Nat) → List (Nat × Nat)) (fuel : Nat)
    (S₀ : ConfigurationSet) : Set (List UInt8) :=
  {w | ∃ g S i, LoopInvariant nfa regMapOrder fuel S₀ g ∧ Spans nfa fuel g S₀ 0 w S i}

/-- A creation along a word passes the prefixes of the word. -/
theorem Determinization.Spans.split {S D : ConfigurationSet} {i j : Nat} {u v : List UInt8}
    (h : Spans nfa fuel g S i (u ++ v) D j) :
    ∃ R k, Spans nfa fuel g S i u R k ∧ Spans nfa fuel g R k v D j := by
  generalize hw : u ++ v = w at h
  induction h generalizing v with
  | refl =>
    obtain ⟨rfl, rfl⟩ := List.append_eq_nil_iff.1 hw
    exact ⟨_, _, .refl, .refl⟩
  | @step w b R D k low ops t hspans ht hlt hcomputed hD ih =>
    rcases List.eq_nil_or_concat v with rfl | ⟨v, b', rfl⟩
    · rw [List.append_nil] at hw
      subst hw
      exact ⟨_, _, .step hspans ht hlt hcomputed hD, .refl⟩
    · rw [List.concat_eq_append, ← List.append_assoc] at hw
      obtain ⟨rfl, hb⟩ := List.append_inj' hw rfl
      cases hb
      obtain ⟨R', k', hu, hv⟩ := ih rfl
      refine ⟨R', k', hu, ?_⟩
      rw [List.concat_eq_append]
      exact .step hv ht hlt hcomputed hD

theorem Determinization.Spans.le {S D : ConfigurationSet} {i j : Nat} {w : List UInt8}
    (h : Spans nfa fuel g S i w D j) : i ≤ j ∧ (w ≠ [] → i < j) := by
  induction h with
  | refl => exact ⟨Nat.le_refl _, fun hne => absurd rfl hne⟩
  | step _ _ hlt _ _ ih => exact ⟨by omega, fun _ => by omega⟩

theorem Determinization.Spans.find? {S D : ConfigurationSet} {i j : Nat} {w : List UInt8}
    (h : Spans nfa fuel g S i w D j) (hS : g.dfaStates.find? S = some i) :
    g.dfaStates.find? D = some j := by
  cases h with
  | refl => exact hS
  | step _ _ _ _ hD => exact hD

/-- A loop that is cut off for every number of steps creates states along
infinitely many words. -/
theorem infinite_spannedWords
    (hclosure : ∀ c : DeterminizationConfiguration,
      ∃ S, c.spontaneousClosure nfa fuel = some S)
    (h : LoopInvariant nfa regMapOrder fuel S₀ g)
    (hloop : ∀ steps, loop nfa regMapOrder fuel steps g = none) :
    (spannedWords nfa regMapOrder fuel S₀).Infinite := by
  intro hfinite
  obtain ⟨g', hinv, hle⟩ := exists_states_of_loop_eq_none hclosure h
    (hloop (hfinite.toFinset.card + g.unexploredSets.length + 1))
  have hword : ∀ i : Fin g'.dfa.states.length, ∃ w,
      w ∈ spannedWords nfa regMapOrder fuel S₀ ∧ g'.dfa.run 0 w = some i := by
    intro i
    obtain ⟨S, hS⟩ := hinv.setOfState i i.isLt
    obtain ⟨w, hw⟩ := hinv.spanned S i hS
    exact ⟨w, ⟨g', S, i, hinv, hw⟩, hw.run⟩
  choose word hword hrun using hword
  have hcard : Fintype.card (Fin g'.dfa.states.length) ≤ hfinite.toFinset.card := by
    refine Finset.card_le_card_of_injOn word ?_ ?_
    · intro i _
      exact hfinite.mem_toFinset.2 (hword i)
    · intro i _ j _ heq
      have hi := hrun i
      rw [heq, hrun j] at hi
      exact Fin.ext (Option.some.inj hi).symm
  rw [Fintype.card_fin] at hcard
  omega

section Creation

variable {word : Nat → UInt8}
variable (hS₀ : (initialConfiguration nfa).spontaneousClosure nfa fuel = some S₀)
variable (hinv : LoopInvariant nfa regMapOrder fuel S₀ g)

include hS₀

/-- The sets of two prefixes, of which the later one was created later. -/
theorem spans_prefixes {S : ConfigurationSet} {i m n : Nat} (hlt : m < n)
    (h : Spans nfa fuel g S₀ 0 (prefixOf word n) S i) :
    ∃ R k regOf regOf', Spans nfa fuel g S₀ 0 (prefixOf word m) R k ∧ k < i ∧
      TrackedBy nfa regOf (prefixOf word m) R ∧ TrackedBy nfa regOf' (prefixOf word n) S ∧
      AgreeBefore m regOf regOf' := by
  obtain ⟨d, rfl⟩ : ∃ d, n = m + (d + 1) := ⟨n - m - 1, by omega⟩
  rw [prefixOf_add] at h ⊢
  obtain ⟨R, k, hu, hv⟩ := h.split
  obtain ⟨regOf, -, htracked⟩ := (trackedBy_initial hS₀).spans hu
  rw [List.nil_append] at htracked
  obtain ⟨regOf', hagree, htracked'⟩ := htracked.spans hv
  rw [length_prefixOf] at hagree
  have hne : prefixOf (fun i => word (m + i)) (d + 1) ≠ [] := by
    rw [prefixOf_succ]
    simp
  exact ⟨R, k, regOf, regOf', hu, hv.le.2 hne, htracked, htracked', hagree⟩

include hinv

/-- Two prefixes with states of their own do not have the same runs. -/
theorem taggedStates_ne_of_spans {S : ConfigurationSet} {i m n : Nat} (hlt : m < n)
    (h : Spans nfa fuel g S₀ 0 (prefixOf word n) S i) :
    nfa.taggedStates (prefixOf word m) ≠ nfa.taggedStates (prefixOf word n) := by
  intro heq
  obtain ⟨R, k, regOf, regOf', hu, hki, hR, hS, hagree⟩ := spans_prefixes hS₀ hlt h
  have hsame := hR.eq_of_taggedStates_eq hS (by rwa [length_prefixOf]) heq
  subst hsame
  have hk := hu.find? hinv.root
  rw [h.find? hinv.root] at hk
  have := Option.some.inj hk
  omega

/-- The sets of two unambiguous prefixes do not have the same shape. -/
theorem shape_ne_of_spans {R S : ConfigurationSet} {i k m n : Nat} (hlt : m < n)
    (hm : nfa.UnambiguousOn (prefixOf word m)) (hn : nfa.UnambiguousOn (prefixOf word n))
    (hR : Spans nfa fuel g S₀ 0 (prefixOf word m) R k)
    (hS : Spans nfa fuel g S₀ 0 (prefixOf word n) S i) : shape R ≠ shape S := by
  intro heq
  obtain ⟨R', k', regOf, regOf', hu, hki, htracked, htracked', -⟩ :=
    spans_prefixes hS₀ hlt hS
  have hk : k' = k := Option.some.inj (hu.run.symm.trans hR.run)
  subst hk
  have hfind := hR.find? hinv.root
  have hsame := hinv.injective R' R k' (hu.find? hinv.root) hfind
  subst hsame
  obtain ⟨regMap, hmap⟩ := exists_mapping (htracked'.functional hn) (htracked.functional hm)
    heq.symm
  rw [hinv.unmapped S R' i k' (hS.find? hinv.root) hfind hki] at hmap
  cases hmap

end Creation

/-- The generation of an NFA that settles ends, and more steps change nothing. -/
theorem exists_determinize_of_settles (hfinite : nfa.FiniteClosures) (h : nfa.Settles)
    (regMapOrder : List (Nat × Nat) → List (Nat × Nat)) :
    ∃ g steps, ∀ fuel, steps ≤ fuel → determinize nfa regMapOrder fuel = some g := by
  obtain ⟨bound, hbound⟩ := DeterminizationConfiguration.exists_spontaneousClosure hfinite
  have hclosure := hbound bound (Nat.le_refl _)
  obtain ⟨S₀, hS₀⟩ := hclosure (initialConfiguration nfa)
  have hinv : LoopInvariant nfa regMapOrder bound S₀ (initialDeterminization nfa S₀) :=
    (initialDeterminization_spec hS₀).1
  by_cases hends : ∃ steps g,
      loop nfa regMapOrder bound steps (initialDeterminization nfa S₀) = some g
  · obtain ⟨steps, g, hg⟩ := hends
    refine ⟨g, max bound steps, fun fuel hfuel => ?_⟩
    have hclosure' := hbound fuel ((Nat.le_max_left _ _).trans hfuel)
    have hcongr := spontaneousClosure_congr hclosure hclosure'
    refine Option.bind_eq_some_iff.2 ⟨S₀, ?_, ?_⟩
    · rw [← hcongr, hS₀]
    · rw [← loop_congr hcongr]
      exact loop_mono ((Nat.le_max_right _ _).trans hfuel) hg
  · exfalso
    have hloop : ∀ steps,
        loop nfa regMapOrder bound steps (initialDeterminization nfa S₀) = none := by
      intro steps
      cases hg : loop nfa regMapOrder bound steps (initialDeterminization nfa S₀) with
      | none => rfl
      | some g => exact absurd ⟨steps, g, hg⟩ hends
    have hclosed : ∀ u v, u ++ v ∈ spannedWords nfa regMapOrder bound S₀ →
        u ∈ spannedWords nfa regMapOrder bound S₀ := by
      rintro u v ⟨g, S, i, hg, hS⟩
      obtain ⟨R, k, hu, -⟩ := hS.split
      exact ⟨g, R, k, hg, hu⟩
    have : Finite UInt8 := Finite.of_injective UInt8.toFin fun _ _ => UInt8.toFin_inj.1
    obtain ⟨word, hword⟩ := exists_prefixOf_mem hclosed
      (infinite_spannedWords hclosure hinv hloop)
    rcases h word with hmany | ⟨i, j, hlt, heq⟩
    · -- more unambiguous prefixes than shapes
      have hinfinite : {n | nfa.UnambiguousOn (prefixOf word n)}.Infinite := by
        refine Set.infinite_of_not_bddAbove ?_
        rintro ⟨N, hN⟩
        obtain ⟨n, hn, hun⟩ := hmany (N + 1)
        have := hN hun
        omega
      have hshapes := finite_shapes hfinite
      obtain ⟨ns, hns, hcard⟩ := hinfinite.exists_subset_card_eq (hshapes.toFinset.card + 1)
      obtain ⟨g, S, i, hg, hS⟩ := hword (ns.sup id)
      have hset : ∀ n ∈ ns, ∃ R k, Spans nfa bound g S₀ 0 (prefixOf word n) R k := by
        intro n hn
        obtain ⟨d, hd⟩ := Nat.exists_eq_add_of_le (Finset.le_sup (f := id) hn)
        rw [hd, prefixOf_add] at hS
        obtain ⟨R, k, hu, -⟩ := hS.split
        exact ⟨R, k, hu⟩
      have : Nonempty ConfigurationSet := ⟨S₀⟩
      choose! R k hR using hset
      have hmem : ∀ n ∈ ns, shape (R n) ∈ hshapes.toFinset := by
        intro n hn
        obtain ⟨regOf, -, htracked⟩ := (trackedBy_initial hS₀).spans (hR n hn)
        rw [hshapes.mem_toFinset]
        exact ⟨R n, regOf, _, htracked.functional (hns hn), htracked, rfl⟩
      obtain ⟨m, hm, n, hn, hne, hshape⟩ :=
        Finset.exists_ne_map_eq_of_card_lt_of_maps_to (by omega) hmem
      rcases Nat.lt_or_gt_of_ne hne with hlt | hgt
      · exact shape_ne_of_spans hS₀ hg hlt (hns hm) (hns hn) (hR m hm) (hR n hn) hshape
      · exact shape_ne_of_spans hS₀ hg hgt (hns hn) (hns hm) (hR n hn) (hR m hm) hshape.symm
    · obtain ⟨g, S, k, hg, hS⟩ := hword j
      exact taggedStates_ne_of_spans hS₀ hg hlt hS heq

/-! ## Generations that end -/

/-- Every run on the word has a configuration in the set, whose registers `regOf`
names for the tags that are not pending. -/
structure Embedded (nfa : Nfa) (regOf : Nat → Option Nat → Nat) (w : List UInt8)
    (R : ConfigurationSet) : Prop where
  config : ∀ s, nfa.TaggedRun w s → ∃ c ∈ R, c.nfaState = s.nfaState ∧
    c.lookahead = s.lookahead ∧ ∀ t < nfa.numTags, ¬ Nfa.OnTag s.lookahead t →
      c.tagIdToRegIds.find? t = some (regOf t (s.positions t))
  injective : ∀ s s', nfa.TaggedRun w s → nfa.TaggedRun w s' → ∀ t < nfa.numTags,
    ¬ Nfa.OnTag s.lookahead t → ¬ Nfa.OnTag s'.lookahead t →
    regOf t (s.positions t) = regOf t (s'.positions t) → s.positions t = s'.positions t

/-- Every run on the word has its configuration in the set, and `regOf` tells
positions apart. -/
structure FullyEmbedded (nfa : Nfa) (regOf : Nat → Option Nat → Nat) (w : List UInt8)
    (R : ConfigurationSet) : Prop where
  config : ∀ s, nfa.TaggedRun w s → ∃ c ∈ R, c.nfaState = s.nfaState ∧
    c.history = s.history ∧ c.lookahead = s.lookahead ∧ ∀ t < nfa.numTags,
      c.tagIdToRegIds.find? t = some (regOf t (s.positions t))
  injective : ∀ s s', nfa.TaggedRun w s → nfa.TaggedRun w s' → ∀ t < nfa.numTags,
    regOf t (s.positions t) = regOf t (s'.positions t) → s.positions t = s'.positions t

theorem FullyEmbedded.embedded {regOf : Nat → Option Nat → Nat} {w : List UInt8}
    {R : ConfigurationSet} (h : FullyEmbedded nfa regOf w R) : Embedded nfa regOf w R where
  config s hrun := by
    obtain ⟨c, hc, hstate, -, hlookahead, hregs⟩ := h.config s hrun
    exact ⟨c, hc, hstate, hlookahead, fun t ht _ => hregs t ht⟩
  injective s s' hrun hrun' t ht _ _ := h.injective s s' hrun hrun' t ht

theorem embedded_initial (hS₀ : (initialConfiguration nfa).spontaneousClosure nfa fuel =
    some S₀) : Embedded nfa (fun t _ => t) [] S₀ where
  config s hrun := by
    obtain ⟨c, hc, hs⟩ := (trackedBy_initial hS₀).config s hrun
    exact ⟨c, hc, hs.nfaState, hs.lookahead, fun t ht _ => by rw [hs.registers, if_pos ht]⟩
  injective s s' hrun hrun' t _ _ _ _ := by
    obtain ⟨-, -, -, rfl⟩ := Nfa.taggedRun_nil_iff.1 hrun
    obtain ⟨-, -, -, rfl⟩ := Nfa.taggedRun_nil_iff.1 hrun'
    rfl

/-- The runs go on in the computed set.  The registers of the last position are
new. -/
theorem Embedded.computed {regOf : Nat → Option Nat → Nat} {w : List UInt8}
    {R D : ConfigurationSet} {b : UInt8} {low : Nat} {ops : List RegisterOperation}
    (h : Embedded nfa regOf w R) (hD : Computed nfa fuel low R b.toNat ops D) :
    ∃ regOf', FullyEmbedded nfa regOf' (w ++ [b]) D ∧ AgreeBefore w.length regOf regOf' ∧
      ∀ s, nfa.TaggedRun (w ++ [b]) s → ∀ t < nfa.numTags, s.positions t = some w.length →
        low ≤ regOf' t (some w.length) := by
  have hbelow := hD.1
  obtain ⟨m, hlow, hforward, -⟩ := hD.spec
  let regOf' : Nat → Option Nat → Nat := fun t p =>
    if p = some w.length then (m.find? t).getD 0 else regOf t p
  have hagree : AgreeBefore w.length regOf regOf' := by
    intro t p hp
    show (if p = some w.length then _ else _) = _
    rw [if_neg fun heq => absurd (hp _ heq) (Nat.lt_irrefl _)]
  have hnew : ∀ t, regOf' t (some w.length) = (m.find? t).getD 0 := by
    intro t
    show (if some w.length = some w.length then _ else _) = _
    rw [if_pos rfl]
  -- the registers of a longer run, and whether they are new
  have hstep : ∀ s', nfa.TaggedRun (w ++ [b]) s' → ∃ x ∈ D, x.nfaState = s'.nfaState ∧
      x.history = s'.history ∧ x.lookahead = s'.lookahead ∧ ∀ t < nfa.numTags,
        x.tagIdToRegIds.find? t = some (regOf' t (s'.positions t)) ∧
        (s'.positions t = some w.length ∧ low ≤ regOf' t (s'.positions t) ∨
          ∃ s, nfa.TaggedRun w s ∧ ¬ Nfa.OnTag s.lookahead t ∧
            s'.positions t = s.positions t ∧ regOf' t (s'.positions t) < low) := by
    intro s' hrun'
    obtain ⟨s, next, ops', q, hrun, hbyte, hpath, heq⟩ :=
      Nfa.taggedRun_append_singleton_iff.1 hrun'
    obtain ⟨c, hc, hstate, hlookahead, hregs⟩ := h.config s hrun
    rw [← hstate] at hbyte
    obtain ⟨x, hxD, hx⟩ := hforward c hc next hbyte ops' q hpath
    refine ⟨x, hxD, by rw [heq]; exact hx.nfaState, by rw [heq]; exact hx.history.trans hlookahead,
      by rw [heq]; exact hx.lookahead, fun t ht => ?_⟩
    obtain ⟨hmoved, hkept⟩ := hx.find?_follow t
    rw [hlookahead] at hmoved hkept
    by_cases hon : Nfa.OnTag s.lookahead t
    · obtain ⟨r, hm, hr⟩ := hmoved ⟨ht, hon⟩
      have hposition : s'.positions t = some w.length := by
        rw [heq]
        exact if_pos ⟨ht, hon⟩
      have hreg : regOf' t (some w.length) = r := by
        rw [hnew, hm, Option.getD_some]
      rw [hposition, hreg]
      exact ⟨hr, Or.inl ⟨rfl, hlow t r hm⟩⟩
    · have hposition : s'.positions t = s.positions t := by
        rw [heq]
        exact if_neg fun hboth => hon hboth.2
      have hold : regOf' t (s.positions t) = regOf t (s.positions t) :=
        hagree t _ fun k hk => hrun.lt_length hk
      have hc_reg := hregs t ht hon
      rw [hposition, hold, hkept fun hboth => hon hboth.2]
      exact ⟨hc_reg, Or.inr ⟨s, hrun, hon, rfl, hbelow c hc t _ hc_reg⟩⟩
  refine ⟨regOf', ⟨?_, ?_⟩, hagree, ?_⟩
  · intro s' hrun'
    obtain ⟨x, hxD, hstate, hhistory, hlookahead, hregs⟩ := hstep s' hrun'
    exact ⟨x, hxD, hstate, hhistory, hlookahead, fun t ht => (hregs t ht).1⟩
  · intro s₁ s₂ hrun₁ hrun₂ t ht heq
    obtain ⟨_, -, -, -, -, hregs₁⟩ := hstep s₁ hrun₁
    obtain ⟨_, -, -, -, -, hregs₂⟩ := hstep s₂ hrun₂
    rcases (hregs₁ t ht).2 with ⟨hpos₁, hge₁⟩ | ⟨r₁, hr₁, hon₁, hpos₁, hlt₁⟩ <;>
      rcases (hregs₂ t ht).2 with ⟨hpos₂, hge₂⟩ | ⟨r₂, hr₂, hon₂, hpos₂, hlt₂⟩
    · rw [hpos₁, hpos₂]
    · omega
    · omega
    · rw [hpos₁, hpos₂] at heq ⊢
      rw [hagree t _ fun k hk => hr₁.lt_length hk, hagree t _ fun k hk => hr₂.lt_length hk] at heq
      exact h.injective r₁ r₂ hr₁ hr₂ t ht hon₁ hon₂ heq
  · intro s' hrun' t ht hpos
    obtain ⟨_, -, -, -, -, hregs⟩ := hstep s' hrun'
    rcases (hregs t ht).2 with ⟨-, hge⟩ | ⟨r, hr, -, hpos', -⟩
    · rwa [hpos] at hge
    · rw [hpos] at hpos'
      exact absurd (hr.lt_length hpos'.symm) (Nat.lt_irrefl _)

/-- A mapping takes the runs along. -/
theorem Embedded.mapped {regOf : Nat → Option Nat → Nat} {w : List UInt8}
    {D R : ConfigurationSet} {regMap : List (Nat × Nat)} (h : Embedded nfa regOf w D)
    (hmap : tryGetMapping D R = some regMap) :
    Embedded nfa (fun t p => (regMap.lookup (regOf t p)).getD 0) w R := by
  obtain ⟨-, hone, hrenames⟩ := tryGetMapping_sound hmap
  have hconfig : ∀ s, nfa.TaggedRun w s → ∃ c ∈ R, c.nfaState = s.nfaState ∧
      c.lookahead = s.lookahead ∧ ∀ t < nfa.numTags, ¬ Nfa.OnTag s.lookahead t → ∃ r,
        c.tagIdToRegIds.find? t = some r ∧ regMap.lookup (regOf t (s.positions t)) = some r := by
    intro s hrun
    obtain ⟨c, hc, hstate, hlookahead, hregs⟩ := h.config s hrun
    obtain ⟨c', hc', hrename⟩ := hrenames c hc
    obtain ⟨hmem, hcomp⟩ := firstComparable_mem hc'
    refine ⟨c', hmem, hcomp.1.symm.trans hstate, hcomp.2.symm.trans hlookahead, ?_⟩
    intro t ht hon
    exact hrename t _ (hregs t ht hon)
      (getTagLookahead_eq_none_iff.2 (by rw [hlookahead]; exact hon))
  constructor
  · intro s hrun
    obtain ⟨c, hc, hstate, hlookahead, hregs⟩ := hconfig s hrun
    refine ⟨c, hc, hstate, hlookahead, fun t ht hon => ?_⟩
    obtain ⟨r, hr, hlookup⟩ := hregs t ht hon
    rw [hlookup]
    exact hr
  · intro s s' hrun hrun' t ht hon hon' heq
    obtain ⟨_, -, -, -, hregs⟩ := hconfig s hrun
    obtain ⟨_, -, -, -, hregs'⟩ := hconfig s' hrun'
    obtain ⟨r, -, hlookup⟩ := hregs t ht hon
    obtain ⟨r', -, hlookup'⟩ := hregs' t ht hon'
    have heq : (regMap.lookup (regOf t (s.positions t))).getD 0 =
      (regMap.lookup (regOf t (s'.positions t))).getD 0 := heq
    rw [hlookup, hlookup', Option.getD_some, Option.getD_some] at heq
    rw [heq] at hlookup
    exact h.injective s s' hrun hrun' t ht hon hon' (hone.left_unique _ _ _ hlookup hlookup')

/-- The set of an ambiguous word is ambiguous. -/
theorem FullyEmbedded.ambiguous {regOf : Nat → Option Nat → Nat} {w : List UInt8}
    {D : ConfigurationSet} (h : FullyEmbedded nfa regOf w D) (hw : ¬ nfa.UnambiguousOn w) :
    Ambiguous D := by
  unfold Nfa.UnambiguousOn at hw
  push Not at hw
  obtain ⟨s, s', hrun, hrun', hstate, hlookahead, t, ht, hne⟩ := hw
  have hlt : t < nfa.numTags := by
    by_contra hge
    rw [hrun.positions_eq_none (not_lt.1 hge), hrun'.positions_eq_none (not_lt.1 hge)] at hne
    exact hne rfl
  obtain ⟨c, hc, hcstate, -, hclook, hregs⟩ := h.config s hrun
  obtain ⟨c', hc', hcstate', -, hclook', hregs'⟩ := h.config s' hrun'
  refine ⟨c, hc, c', hc', ⟨?_, ?_⟩, t, _, _, ?_, hregs t hlt, hregs' t hlt, ?_⟩
  · rw [hcstate, hcstate', hstate]
  · rw [hclook, hclook', hlookahead]
  · rw [hclook]
    exact ht
  · exact fun heq => hne (h.injective s s' hrun hrun' t hlt heq)

/-! ### The run on a word -/

section Run

variable (hinv : Invariant nfa regMapOrder fuel S₀ g)
variable (hcomplete : ∀ S i, g.dfaStates.find? S = some i → Complete nfa g S i)

include hinv hcomplete

/-- The DFA has a transition wherever some run goes on. -/
theorem exists_transition_of_taggedRun {regOf : Nat → Option Nat → Nat} {w : List UInt8}
    {b : UInt8} {S : ConfigurationSet} {p : Nat} (hS : g.dfaStates.find? S = some p)
    (h : Embedded nfa regOf w S) (hrun : ∃ s, nfa.TaggedRun (w ++ [b]) s) :
    ∃ t low ops D, g.dfa.transition? p b.toNat = some t ∧
      Computed nfa fuel low S b.toNat ops D ∧ LeadsToSet regMapOrder g ops D t ∧
      ∀ R j, g.dfaStates.find? R = some j → j ≤ p → RegsBelow low R := by
  obtain ⟨s', hs'⟩ := hrun
  obtain ⟨s, next, -, -, hs, hbyte, -⟩ := Nfa.taggedRun_append_singleton_iff.1 hs'
  obtain ⟨c, hc, hstate, -⟩ := h.config s hs
  rw [← hstate] at hbyte
  obtain ⟨t, ht⟩ := hcomplete S p hS c hc _ next hbyte
  obtain ⟨low, ops, D, hcomputed, hleads, hlow⟩ := hinv.transitions S p _ t hS ht
  exact ⟨t, low, ops, D, ht, hcomputed, hleads, hlow⟩

/-- The runs on a word are embedded in the set of the state that it leads to. -/
theorem exists_embedded (hS₀ : (initialConfiguration nfa).spontaneousClosure nfa fuel = some S₀)
    {w : List UInt8} (hrun : ∃ s, nfa.TaggedRun w s) :
    ∃ p S regOf, g.dfa.run 0 w = some p ∧ g.dfaStates.find? S = some p ∧
      Embedded nfa regOf w S := by
  induction w using List.reverseRecOn with
  | nil => exact ⟨0, S₀, _, rfl, hinv.root, embedded_initial hS₀⟩
  | append_singleton w b ih =>
    obtain ⟨p, S, regOf, hp, hS, hemb⟩ := ih (Nfa.exists_taggedRun_of_append hrun)
    obtain ⟨t, low, ops, D, ht, hcomputed, ⟨R, hR, hkind⟩, -⟩ :=
      exists_transition_of_taggedRun hinv hcomplete hS hemb hrun
    have hrun' : g.dfa.run 0 (w ++ [b]) = some t.destState := by
      rw [run_append, hp]
      show (g.dfa.transition? p b.toNat).bind _ = _
      rw [ht]
      rfl
    obtain ⟨regOf', hfull, -, -⟩ := hemb.computed hcomputed
    rcases hkind with ⟨rfl, -⟩ | ⟨regMap, hmap, -⟩
    · exact ⟨_, R, regOf', hrun', hR, hfull.embedded⟩
    · exact ⟨_, R, _, hrun', hR, hfull.embedded.mapped hmap⟩

/-- The DFA goes to the computed set when the longer word is ambiguous. -/
theorem exists_fullyEmbedded_of_ambiguous {regOf : Nat → Option Nat → Nat} {w : List UInt8}
    {b : UInt8} {S R : ConfigurationSet} {p q : Nat} (hS : g.dfaStates.find? S = some p)
    (h : Embedded nfa regOf w S) (hrun : ∃ s, nfa.TaggedRun (w ++ [b]) s)
    (hw : ¬ nfa.UnambiguousOn (w ++ [b])) (hp : g.dfa.run 0 w = some p)
    (hq : g.dfa.run 0 (w ++ [b]) = some q) (hR : g.dfaStates.find? R = some q) :
    ∃ regOf' low, FullyEmbedded nfa regOf' (w ++ [b]) R ∧ AgreeBefore w.length regOf regOf' ∧
      (∀ s, nfa.TaggedRun (w ++ [b]) s → ∀ t < nfa.numTags, s.positions t = some w.length →
        low ≤ regOf' t (some w.length)) ∧
      ∀ R' j, g.dfaStates.find? R' = some j → j ≤ p → RegsBelow low R' := by
  obtain ⟨t, low, ops, D, ht, hcomputed, ⟨R', hR', hkind⟩, hlow⟩ :=
    exists_transition_of_taggedRun hinv hcomplete hS h hrun
  obtain ⟨regOf', hfull, hagree, hnew⟩ := h.computed hcomputed
  have hD : R' = D := by
    rcases hkind with ⟨heq, -⟩ | ⟨regMap, hmap, -⟩
    · exact heq
    · rw [(hfull.ambiguous hw).tryGetMapping_eq_none] at hmap
      cases hmap
  have hdest : t.destState = q := by
    rw [run_append, hp] at hq
    have hq : (g.dfa.transition? p b.toNat).bind (fun t => g.dfa.run t.destState []) = some q := hq
    rw [ht] at hq
    exact Option.some.inj hq
  rw [hD, hdest] at hR'
  rw [hinv.injective R D q hR hR']
  exact ⟨regOf', low, hfull, hagree, hnew, hlow⟩

/-! ### The run on an infinite word -/

variable {word : Nat → UInt8} {n₀ : Nat} {p : Nat → Nat} {S : Nat → ConfigurationSet}
variable (hambiguous : ∀ n, n₀ ≤ n → ¬ nfa.UnambiguousOn (prefixOf word n))
variable (hruns : ∀ n, ∃ s, nfa.TaggedRun (prefixOf word n) s)
variable (hp : ∀ n, g.dfa.run 0 (prefixOf word n) = some (p n))
variable (hS : ∀ n, g.dfaStates.find? (S n) = some (p n))

include hambiguous hruns hp hS

/-- The prefixes from `n₀` on are ambiguous, so the DFA goes on in the computed
sets. -/
theorem exists_fullyEmbedded_succ {n : Nat} {regOf : Nat → Option Nat → Nat} (hn : n₀ ≤ n + 1)
    (h : Embedded nfa regOf (prefixOf word n) (S n)) :
    ∃ regOf' low, FullyEmbedded nfa regOf' (prefixOf word (n + 1)) (S (n + 1)) ∧
      AgreeBefore n regOf regOf' ∧
      (∀ s, nfa.TaggedRun (prefixOf word (n + 1)) s → ∀ t < nfa.numTags,
        s.positions t = some n → low ≤ regOf' t (some n)) ∧
      ∀ R j, g.dfaStates.find? R = some j → j ≤ p n → RegsBelow low R := by
  have hrun := hruns (n + 1)
  have hw := hambiguous (n + 1) hn
  have hq := hp (n + 1)
  rw [prefixOf_succ] at hrun hw hq ⊢
  have hnext := exists_fullyEmbedded_of_ambiguous hinv hcomplete (hS n) h hrun hw (hp n) hq
    (hS (n + 1))
  rwa [length_prefixOf] at hnext

/-- While the DFA does not go back behind the state of `i₀`, the set of this
state does not have the registers of later positions. -/
theorem exists_fullyEmbedded_add {i₀ : Nat} (hstart : ∀ n, i₀ ≤ n → p i₀ ≤ p n)
    (hi₀ : ∃ regOf, FullyEmbedded nfa regOf (prefixOf word i₀) (S i₀)) (hle₀ : n₀ ≤ i₀)
    (d : Nat) :
    ∃ regOf, FullyEmbedded nfa regOf (prefixOf word (i₀ + d)) (S (i₀ + d)) ∧
      ∀ s, nfa.TaggedRun (prefixOf word (i₀ + d)) s → ∀ t < nfa.numTags, ∀ k,
        s.positions t = some k → i₀ ≤ k → ∀ c ∈ S i₀, ∀ t',
        c.tagIdToRegIds.find? t' ≠ some (regOf t (some k)) := by
  induction d with
  | zero =>
    obtain ⟨regOf, hfull⟩ := hi₀
    refine ⟨regOf, hfull, fun s hrun t _ k hk hle => ?_⟩
    have hlt := hrun.lt_length hk
    rw [length_prefixOf] at hlt
    omega
  | succ d ih =>
    obtain ⟨regOf, hfull, hlater⟩ := ih
    obtain ⟨regOf', low, hfull', hagree, hnew, hlow⟩ :=
      exists_fullyEmbedded_succ hinv hcomplete hambiguous hruns hp hS (by omega) hfull.embedded
    refine ⟨regOf', hfull', fun s hrun t ht k hk hle c hc t' hreg => ?_⟩
    by_cases hlast : k = i₀ + d
    · -- the register of the last position is newer than the set
      subst hlast
      have hbelow := hlow (S i₀) (p i₀) (hS i₀) (hstart _ (by omega)) c hc t' _ hreg
      have hge := hnew s hrun t ht hk
      omega
    · have hlt := hrun.lt_length hk
      rw [length_prefixOf] at hlt
      rw [← Nat.add_assoc, prefixOf_succ] at hrun
      obtain ⟨s', hs', hk'⟩ := hrun.positions_of_append_singleton hk
        (by rw [length_prefixOf]; omega)
      rw [hagree t (some k) fun k' hk' => by cases hk'; omega] at hreg
      exact hlater s' hs' t ht k hk' hle c hc t' hreg

/-- Whenever the DFA comes back to the state of `i₀`, the runs have positions
before `i₀` only. -/
theorem taggedStates_subset_below {i₀ : Nat} (hstart : ∀ n, i₀ ≤ n → p i₀ ≤ p n)
    (hi₀ : ∃ regOf, FullyEmbedded nfa regOf (prefixOf word i₀) (S i₀)) (hle₀ : n₀ ≤ i₀)
    {n : Nat} (hn : i₀ ≤ n) (hback : p n = p i₀) :
    nfa.taggedStates (prefixOf word n) ⊆ nfa.taggedStatesBelow i₀ := by
  intro s hrun
  obtain ⟨d, rfl⟩ := Nat.exists_eq_add_of_le hn
  obtain ⟨regOf, hfull, hlater⟩ := exists_fullyEmbedded_add hinv hcomplete hambiguous hruns hp
    hS hstart hi₀ hle₀ d
  obtain ⟨c, hc, -, -, -, hregs⟩ := hfull.config s hrun
  have hsame : S (i₀ + d) = S i₀ := hinv.injective _ _ (p i₀) (hback ▸ hS (i₀ + d)) (hS i₀)
  rw [hsame] at hc
  refine ⟨hrun.ending_mem, fun t ht k hk => ?_, fun t ht => hrun.positions_eq_none ht⟩
  by_contra hle
  refine hlater s hrun t ht k hk (not_lt.1 hle) c hc t ?_
  rw [← hk]
  exact hregs t ht

/-- Two prefixes have the same runs. -/
theorem exists_taggedStates_eq (hfinite : nfa.FiniteClosures)
    (hemb : ∀ n, ∃ regOf, Embedded nfa regOf (prefixOf word n) (S n)) :
    ∃ m n, m < n ∧ nfa.taggedStates (prefixOf word m) = nfa.taggedStates (prefixOf word n) := by
  -- the first of the states that are visited for ever, and a visit of it
  obtain ⟨v, ⟨start, hstart⟩, hvisits⟩ :=
    exists_least_recurring fun n => hinv.lt_length (hS n)
  obtain ⟨i₀, hi₀, rfl⟩ := hvisits (max start (n₀ + 1))
  obtain ⟨j, rfl⟩ : ∃ j, i₀ = j + 1 := ⟨i₀ - 1, by omega⟩
  obtain ⟨regOf, hembedded⟩ := hemb j
  obtain ⟨regOf', -, hfull, -⟩ :=
    exists_fullyEmbedded_succ hinv hcomplete hambiguous hruns hp hS (by omega) hembedded
  have hinfinite : {n | j + 1 ≤ n ∧ p n = p (j + 1)}.Infinite := by
    refine Set.infinite_of_not_bddAbove ?_
    rintro ⟨N, hN⟩
    obtain ⟨n, hn, hpn⟩ := hvisits (max (j + 1) (N + 1))
    have hle := hN (show n ∈ {n | j + 1 ≤ n ∧ p n = p (j + 1)} from ⟨by omega, hpn⟩)
    omega
  have hmaps : Set.MapsTo (fun n => nfa.taggedStates (prefixOf word n))
      {n | j + 1 ≤ n ∧ p n = p (j + 1)} {A | A ⊆ nfa.taggedStatesBelow (j + 1)} := by
    rintro n ⟨hn, hpn⟩
    exact taggedStates_subset_below hinv hcomplete hambiguous hruns hp hS
      (fun n hn => hstart n (by omega)) ⟨regOf', hfull⟩ (by omega) hn hpn
  obtain ⟨m, -, n, -, hlt, heq⟩ := hinfinite.exists_lt_map_eq_of_mapsTo hmaps
    (Nfa.finite_taggedStatesBelow hfinite (j + 1)).finite_subsets
  exact ⟨m, n, hlt, heq⟩

end Run

/-- The NFA of a generation that ends settles. -/
theorem settles_of_determinize (hfinite : nfa.FiniteClosures)
    (h : determinize nfa regMapOrder fuel = some g) : nfa.Settles := by
  obtain ⟨S₀, hS₀, hinv, -, hcomplete⟩ := determinize_spec h
  intro word
  by_cases hmany : ∀ k, ∃ n, k ≤ n ∧ nfa.UnambiguousOn (prefixOf word n)
  · exact Or.inl hmany
  · right
    push Not at hmany
    obtain ⟨n₀, hambiguous⟩ := hmany
    -- every prefix has a run, since the ambiguous ones do
    have hruns : ∀ n, ∃ s, nfa.TaggedRun (prefixOf word n) s := by
      intro n
      have hlong := hambiguous (n + n₀) (by omega)
      unfold Nfa.UnambiguousOn at hlong
      push Not at hlong
      obtain ⟨s, -, hrun, -⟩ := hlong
      rw [prefixOf_add] at hrun
      exact Nfa.exists_taggedRun_of_append ⟨s, hrun⟩
    have hembedded := fun n => exists_embedded hinv hcomplete hS₀ (hruns n)
    choose p S regOf hp hS hemb using hembedded
    exact exists_taggedStates_eq hinv hcomplete hambiguous hruns hp hS hfinite
      fun n => ⟨regOf n, hemb n⟩

/-- The generation ends if and only if the NFA settles. -/
theorem exists_determinize_iff_settles (hfinite : nfa.FiniteClosures)
    (regMapOrder : List (Nat × Nat) → List (Nat × Nat)) :
    (∃ fuel g, determinize nfa regMapOrder fuel = some g) ↔ nfa.Settles := by
  constructor
  · rintro ⟨fuel, g, h⟩
    exact settles_of_determinize hfinite h
  · intro h
    obtain ⟨g, steps, hg⟩ := exists_determinize_of_settles hfinite h regMapOrder
    exact ⟨steps, g, hg steps le_rfl⟩

/-! ## Deciding the closures -/

/-- The closures are finite if their worklists end. -/
theorem finiteClosures_of_isSome (fuel : Nat)
    (h : ∀ q < nfa.states.length, ((⟨q, OrderedMap.empty, [], []⟩ :
      DeterminizationConfiguration).spontaneousClosure nfa fuel).isSome) :
    nfa.FiniteClosures := by
  intro q
  rcases Nat.lt_or_ge q nfa.states.length with hlt | hge
  · obtain ⟨closure, hclosure⟩ := Option.isSome_iff_exists.1 (h q hlt)
    refine Set.Finite.subset (Set.Finite.image (fun c : DeterminizationConfiguration =>
      (c.nfaState, c.lookahead)) (List.finite_toSet closure.toList)) ?_
    rintro ⟨r, ops⟩ hpath
    refine ⟨_, (DeterminizationConfiguration.mem_spontaneousClosure hclosure _).2
      ⟨ops, r, hpath, rfl⟩, ?_⟩
    simp [DeterminizationConfiguration.follow]
  · -- there is no such state, so there are no transitions
    refine Set.Finite.subset (Set.finite_singleton (q, [])) ?_
    have hnone : nfa.state? q = none := List.getElem?_eq_none_iff.2 hge
    have hstay : ∀ {ops r}, nfa.SpontaneousPath q ops r → ops = [] ∧ r = q := by
      intro ops r hpath
      induction hpath with
      | refl => exact ⟨rfl, rfl⟩
      | snoc _ hs _ ih =>
        rw [ih.2, hnone] at hs
        cases hs
    rintro ⟨r, ops⟩ hpath
    obtain ⟨rfl, rfl⟩ := hstay hpath
    rfl

/-- The rule `a` has finite closures. -/
theorem exists_determinize_iff_settles_literal :
    (∃ fuel g, determinize (Nfa.ofRules [⟨0, .literal [] 97⟩]) id fuel = some g) ↔
      (Nfa.ofRules [⟨0, .literal [] 97⟩]).Settles :=
  exists_determinize_iff_settles (finiteClosures_of_isSome 8 (by decide +kernel)) id

/-! ## A capture behind a repetition -/

/-- The rule `a+(?<c>a+)`. -/
def shiftingRules : List LexicalRule :=
  [⟨0, .mkCat (.mkMultiplication (.mkLiteral 97) 1 0)
    (.mkCapture (.mkMultiplication (.mkLiteral 97) 1 0) ⟨0, "c"⟩)⟩]

/-- The NFA stays in the repetition before the capture. -/
theorem shifting_before (n : Nat) {ops : List TagOperation} {q : Nat}
    (hpath : (Nfa.ofRules shiftingRules).SpontaneousPath 2 ops q) :
    (Nfa.ofRules shiftingRules).TaggedRun (prefixOf (fun _ => 97) (n + 1))
      ⟨q, fun _ => none, [], ops⟩ := by
  have hfirst : (Nfa.ofRules shiftingRules).ByteStep 0 97 2 := ⟨by decide, _, rfl, by decide⟩
  have hloop : (Nfa.ofRules shiftingRules).ByteStep 2 97 2 := ⟨by decide, _, rfl, by decide⟩
  induction n generalizing ops q with
  | zero =>
    have hrun := Nfa.TaggedRun.byte (b := 97) (.start (.refl _)) hfirst hpath
    rwa [Nfa.stamp_nil] at hrun
  | succ n ih =>
    have hrun := Nfa.TaggedRun.byte (b := 97) (ih (.refl 2)) hloop hpath
    rw [Nfa.stamp_nil] at hrun
    rwa [prefixOf_succ]

/-- The capture may start behind every byte but the last one. -/
theorem shifting_inside (n d : Nat) :
    ∃ s, (Nfa.ofRules shiftingRules).TaggedRun (prefixOf (fun _ => 97) (n + 1 + (d + 1))) s ∧
      s.nfaState = 4 ∧ s.lookahead = [] ∧ s.positions 0 = some (n + 1) := by
  have hstart : (Nfa.ofRules shiftingRules).SpontaneousPath 2 [⟨0, .set⟩] 3 :=
    .snoc (.refl 2) rfl (t := ⟨[⟨0, .set⟩], 3⟩) (by decide)
  have henter : (Nfa.ofRules shiftingRules).ByteStep 3 97 4 := ⟨by decide, _, rfl, by decide⟩
  have hloop : (Nfa.ofRules shiftingRules).ByteStep 4 97 4 := ⟨by decide, _, rfl, by decide⟩
  induction d with
  | zero =>
    have hrun := Nfa.TaggedRun.byte (b := 97) (shifting_before n hstart) henter (.refl 4)
    rw [length_prefixOf] at hrun
    rw [prefixOf_succ]
    exact ⟨_, hrun, rfl, rfl, rfl⟩
  | succ d ih =>
    obtain ⟨s, hs, hstate, hlookahead, hposition⟩ := ih
    have hloop : (Nfa.ofRules shiftingRules).ByteStep s.nfaState 97 4 := hstate ▸ hloop
    have hrun := Nfa.TaggedRun.byte (b := 97) hs hloop (.refl 4)
    rw [hlookahead, Nfa.stamp_nil] at hrun
    rw [← Nat.add_assoc, prefixOf_succ]
    exact ⟨_, hrun, rfl, rfl, hposition⟩

/-- The positions of the starts grow with the word. -/
theorem shifting_not_settles : ¬ (Nfa.ofRules shiftingRules).Settles := by
  intro h
  rcases h (fun _ => 97) with hmany | ⟨i, j, hlt, heq⟩
  · obtain ⟨n, hn, hun⟩ := hmany 3
    obtain ⟨m, rfl⟩ := Nat.exists_eq_add_of_le hn
    obtain ⟨s₁, hrun₁, hstate₁, hlook₁, hposition₁⟩ := shifting_inside 0 (m + 1)
    obtain ⟨s₂, hrun₂, hstate₂, hlook₂, hposition₂⟩ := shifting_inside 1 m
    rw [show 0 + 1 + (m + 1 + 1) = 3 + m by omega] at hrun₁
    rw [show 1 + 1 + (m + 1) = 3 + m by omega] at hrun₂
    have hsame := hun s₁ s₂ hrun₁ hrun₂ (by rw [hstate₁, hstate₂]) (by rw [hlook₁, hlook₂]) 0
      (by rw [hlook₁]; simp [Nfa.OnTag])
    rw [hposition₁, hposition₂] at hsame
    cases hsame
  · rcases Nat.lt_or_ge j 2 with hsmall | hlarge
    · -- the root has no spontaneous transitions, so it is left by a byte only
      obtain ⟨rfl, rfl⟩ : i = 0 ∧ j = 1 := by omega
      have hmem : ⟨2, fun _ => none, [], []⟩ ∈ (Nfa.ofRules shiftingRules).taggedStates
          (prefixOf (fun _ => 97) 1) := shifting_before 0 (.refl 2)
      rw [← heq] at hmem
      obtain ⟨ops, q, hpath, hq⟩ := Nfa.taggedRun_nil_iff.1 hmem
      obtain ⟨rfl, -⟩ := Nfa.TaggedState.mk.inj hq
      have hstay : ∀ {ops q}, (Nfa.ofRules shiftingRules).SpontaneousPath 0 ops q → q = 0 := by
        intro ops q hpath
        induction hpath with
        | refl => rfl
        | snoc _ hs ht ih =>
          subst ih
          cases hs
          cases ht
      exact absurd (hstay hpath) (by decide)
    · obtain ⟨n, rfl⟩ := Nat.exists_eq_add_of_le hlarge
      obtain ⟨s, hrun, -, -, hposition⟩ := shifting_inside n 0
      rw [show n + 1 + (0 + 1) = 2 + n by omega] at hrun
      have hmem : s ∈ (Nfa.ofRules shiftingRules).taggedStates _ := hrun
      rw [← heq] at hmem
      have hlt' := Nfa.TaggedRun.lt_length hmem hposition
      rw [length_prefixOf] at hlt'
      omega

/-- The generation for the rule does not end. -/
theorem shiftingRules_not_determinize :
    (Nfa.ofRules shiftingRules).FiniteClosures ∧
      ∀ regMapOrder fuel, determinize (Nfa.ofRules shiftingRules) regMapOrder fuel = none := by
  have hfinite : (Nfa.ofRules shiftingRules).FiniteClosures :=
    finiteClosures_of_isSome 8 (by decide +kernel)
  refine ⟨hfinite, fun regMapOrder fuel => ?_⟩
  cases h : determinize (Nfa.ofRules shiftingRules) regMapOrder fuel with
  | none => rfl
  | some g => exact absurd (settles_of_determinize hfinite h) shifting_not_settles

end LogSurgeon.Dfa
