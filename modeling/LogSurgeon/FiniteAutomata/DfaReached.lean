import LogSurgeon.FiniteAutomata.TransitionRegOps

/-!
# Reached worklists

`Reached` is every worklist that the generation of a DFA goes through, and
`Explores` is one that is about to add the transitions of a set.  A register
belongs to one tag in all sets of a reached worklist (`Reached.exists_owned`).
-/

namespace LogSurgeon.Dfa

open Lib Determinization

/-! ## Runs of the worklist -/

/-- The worklists between two sets. -/
inductive Reached (nfa : Nfa) (regMapOrder : List (Nat × Nat) → List (Nat × Nat))
    (fuel : Nat) : Determinization → Prop where
  | start {S : ConfigurationSet}
      (h : (initialConfiguration nfa).spontaneousClosure nfa fuel = some S) :
      Reached nfa regMapOrder fuel (initialDeterminization nfa S)
  | explore {g g' : Determinization} {S : ConfigurationSet} {rest : List ConfigurationSet}
      (h : Reached nfa regMapOrder fuel g) (hqueue : g.unexploredSets = S :: rest)
      (hexplore : explore nfa regMapOrder fuel { g with unexploredSets := rest } S = some g') :
      Reached nfa regMapOrder fuel g'

/-- The set is at the front of the queue of a reached worklist, and exploring it
computes the transitions. -/
structure Explores (nfa : Nfa) (regMapOrder : List (Nat × Nat) → List (Nat × Nat)) (fuel : Nat)
    (g : Determinization) (S : ConfigurationSet) (regHandler : RegisterHandler)
    (transitions : AsciiTransitionsMap) : Prop where
  reached : Reached nfa regMapOrder fuel g
  queue : g.unexploredSets.head? = some S
  transitions : getTransitions nfa fuel nfa.numTags g.dfa.regHandler S =
    some (regHandler, transitions)

/-- The worklist after some of the transitions of the set. -/
def afterTransitions (nfa : Nfa) (regMapOrder : List (Nat × Nat) → List (Nat × Nat))
    (g : Determinization) (source : Nat) (regHandler : RegisterHandler)
    (entries : List (Nat × List RegisterOperation × ConfigurationSet)) : Determinization :=
  entries.foldl (addTransition nfa regMapOrder source)
    { g with
      unexploredSets := g.unexploredSets.tail
      dfa := { g.dfa with regHandler := regHandler } }

variable {nfa : Nfa} {regMapOrder : List (Nat × Nat) → List (Nat × Nat)} {fuel : Nat}
variable {g g' : Determinization} {S : ConfigurationSet}

theorem Reached.loopInvariant (h : Reached nfa regMapOrder fuel g) :
    ∃ S₀, LoopInvariant nfa regMapOrder fuel S₀ g := by
  induction h with
  | start h => exact ⟨_, (initialDeterminization_spec h).1⟩
  | explore _ hqueue hexplore ih =>
    obtain ⟨S₀, hinv⟩ := ih
    exact ⟨S₀, (explore_spec hinv hqueue hexplore).1⟩

/-- A generation that ends goes through reached worklists only. -/
theorem Reached.loop {steps : Nat} (h : Reached nfa regMapOrder fuel g)
    (hloop : loop nfa regMapOrder fuel steps g = some g') : Reached nfa regMapOrder fuel g' := by
  induction steps generalizing g with
  | zero =>
    unfold Determinization.loop at hloop
    split at hloop
    · cases hloop
      exact h
    · cases hloop
    · rename_i hzero
      cases hzero
  | succ steps ih =>
    unfold Determinization.loop at hloop
    split at hloop
    · cases hloop
      exact h
    · rename_i hzero
      cases hzero
    · rename_i S rest steps' hqueue hsteps
      cases hsteps
      obtain ⟨g₁, hexplore, hrest⟩ := Option.bind_eq_some_iff.1 hloop
      exact ih (h.explore hqueue hexplore) hrest

theorem reached_of_determinize (h : determinize nfa regMapOrder fuel = some g) :
    Reached nfa regMapOrder fuel g := by
  obtain ⟨S₀, hS₀, hloop⟩ := Option.bind_eq_some_iff.1 h
  exact (Reached.start hS₀).loop hloop

/-- The registers of the set exist when it is explored. -/
theorem Explores.regsBelow {regHandler : RegisterHandler} {transitions : AsciiTransitionsMap}
    (h : Explores nfa regMapOrder fuel g S regHandler transitions) :
    (∃ source, g.dfaStates.find? S = some source) ∧
      RegsBelow g.dfa.regHandler.getNumRegs S := by
  obtain ⟨S₀, hinv⟩ := h.reached.loopInvariant
  obtain ⟨source, hsource, -⟩ := hinv.queued S (List.mem_of_head? h.queue)
  exact ⟨⟨source, hsource⟩, hinv.registers S source hsource⟩

/-- The worklist after the given number of sets. -/
def afterSets (nfa : Nfa) (regMapOrder : List (Nat × Nat) → List (Nat × Nat)) (fuel : Nat) :
    Nat → Option Determinization
  | 0 => ((initialConfiguration nfa).spontaneousClosure nfa fuel).map (initialDeterminization nfa)
  | count + 1 => do
    let g ← afterSets nfa regMapOrder fuel count
    let configSet ← g.unexploredSets.head?
    explore nfa regMapOrder fuel { g with unexploredSets := g.unexploredSets.tail } configSet

theorem reached_of_afterSets {count : Nat} (h : afterSets nfa regMapOrder fuel count = some g) :
    Reached nfa regMapOrder fuel g := by
  induction count generalizing g with
  | zero =>
    obtain ⟨S, hS, rfl⟩ := Option.map_eq_some_iff.1 h
    exact .start hS
  | succ count ih =>
    obtain ⟨g₁, hg₁, h⟩ := Option.bind_eq_some_iff.1 h
    obtain ⟨S, hS, hexplore⟩ := Option.bind_eq_some_iff.1 h
    have hqueue : g₁.unexploredSets = S :: g₁.unexploredSets.tail :=
      (List.cons_head?_tail hS).symm
    exact (ih hg₁).explore hqueue hexplore

/-- Whether the exploration that follows the given number of sets satisfies `P`. -/
def checkExplored (nfa : Nfa) (fuel count : Nat)
    (P : Determinization → ConfigurationSet → RegisterHandler → AsciiTransitionsMap → Bool) :
    Bool :=
  match afterSets nfa id fuel count with
  | some g =>
    match g.unexploredSets.head? with
    | some S =>
      match getTransitions nfa fuel nfa.numTags g.dfa.regHandler S with
      | some (regHandler, transitions) => P g S regHandler transitions
      | none => false
    | none => false
  | none => false

theorem exists_explores_of_check {count : Nat}
    {P : Determinization → ConfigurationSet → RegisterHandler → AsciiTransitionsMap → Bool}
    (h : checkExplored nfa fuel count P) :
    ∃ g S regHandler transitions, Explores nfa id fuel g S regHandler transitions ∧
      P g S regHandler transitions := by
  unfold checkExplored at h
  split at h
  · rename_i g hg
    split at h
    · rename_i S hS
      split at h
      · rename_i regHandler transitions htransitions
        exact ⟨g, S, regHandler, transitions,
          ⟨reached_of_afterSets hg, hS, htransitions⟩, h⟩
      · cases h
    · cases h
  · cases h

/-! ## The tag of a register -/

/-- Every configuration has a register for each tag, and the register belongs to
the tag. -/
structure Owned (numTags : Nat) (owner : Nat → Nat) (S : ConfigurationSet) : Prop where
  total : ∀ c ∈ S, ∀ t < numTags, ∃ r, c.tagIdToRegIds.find? t = some r
  lt_numTags : ∀ c ∈ S, ∀ t r, c.tagIdToRegIds.find? t = some r → t < numTags
  owner_eq : ∀ c ∈ S, ∀ t r, c.tagIdToRegIds.find? t = some r → owner r = t

/-- All sets of the worklist are owned. -/
def AllOwned (numTags : Nat) (owner : Nat → Nat) (g : Determinization) : Prop :=
  ∀ S i, g.dfaStates.find? S = some i → Owned numTags owner S

theorem Owned.congr {numTags n : Nat} {owner owner' : Nat → Nat}
    (h : Owned numTags owner S) (hbelow : RegsBelow n S)
    (hagree : ∀ r < n, owner' r = owner r) : Owned numTags owner' S := by
  refine ⟨h.total, h.lt_numTags, fun c hc t r hr => ?_⟩
  rw [hagree r (hbelow c hc t r hr)]
  exact h.owner_eq c hc t r hr

theorem owned_initial {S : ConfigurationSet}
    (h : (initialConfiguration nfa).spontaneousClosure nfa fuel = some S) :
    Owned nfa.numTags id S := by
  have hfind : ∀ c ∈ S, ∀ t,
      c.tagIdToRegIds.find? t = if t < nfa.numTags then some t else none := by
    intro c hc t
    obtain ⟨ops, q, -, rfl⟩ := (DeterminizationConfiguration.mem_spontaneousClosure h c).1 hc
    exact find?_tagIdToInitialRegId nfa.numTags t
  refine ⟨?_, ?_, ?_⟩
  · intro c hc t ht
    exact ⟨t, (hfind c hc t).trans (if_pos ht)⟩
  · intro c hc t r hr
    rw [hfind c hc] at hr
    split_ifs at hr with ht
    exact ht
  · intro c hc t r hr
    rw [hfind c hc] at hr
    split_ifs at hr with ht
    exact (Option.some.inj hr).symm

/-- The registers of a map belong to its tags. -/
theorem exists_owner {low high : Nat} {m : TagIdWithOpToRegId} (h : Fresh low high m)
    (owner : Nat → Nat) :
    ∃ owner' : Nat → Nat, (∀ r < low, owner' r = owner r) ∧
      ∀ t r, m.find? t = some r → owner' r = t := by
  classical
  refine ⟨fun r => if h : ∃ t, m.find? t = some r then h.choose else owner r, ?_, ?_⟩
  · intro r hr
    have hnone : ¬ ∃ t, m.find? t = some r := by
      rintro ⟨t, ht⟩
      have hlow := h.low_le t r ht
      omega
    exact dif_neg hnone
  · intro t r hr
    have hsome : ∃ t, m.find? t = some r := ⟨t, hr⟩
    refine (dif_pos hsome).trans ?_
    exact h.injective _ t r hsome.choose_spec hr

/-- The set behind a byte belongs to the tags as well. -/
theorem Owned.behind {low : Nat} {owner owner' : Nat → Nat} {m : TagIdWithOpToRegId}
    {D : ConfigurationSet} (h : Owned nfa.numTags owner S)
    (hbelow : RegsBelow low S) (hagree : ∀ r < low, owner' r = owner r)
    (hm : ∀ t r, m.find? t = some r → owner' r = t)
    (hD : ∀ x ∈ D, ∃ c ∈ S, ∃ next, nfa.ByteStep c.nfaState byte next ∧ Behind nfa m c next x) :
    Owned nfa.numTags owner' D := by
  have hfind : ∀ x ∈ D, ∃ c ∈ S, ∀ t,
      (t < nfa.numTags ∧ ∃ r, m.find? t = some r ∧ x.tagIdToRegIds.find? t = some r) ∨
        x.tagIdToRegIds.find? t = c.tagIdToRegIds.find? t := by
    intro x hx
    obtain ⟨c, hc, next, -, y, ⟨ops, q, -, rfl⟩, hyx⟩ := hD x hx
    refine ⟨c, hc, fun t => ?_⟩
    obtain ⟨hmoved, hkept⟩ := hyx.find?_follow t
    by_cases hop : t < nfa.numTags ∧ Nfa.OnTag c.lookahead t
    · exact Or.inl ⟨hop.1, hmoved hop⟩
    · exact Or.inr (hkept hop)
  refine ⟨?_, ?_, ?_⟩
  · intro x hx t ht
    obtain ⟨c, hc, hregs⟩ := hfind x hx
    rcases hregs t with ⟨-, r, -, hr⟩ | hkept
    · exact ⟨r, hr⟩
    · rw [hkept]
      exact h.total c hc t ht
  · intro x hx t r hr
    obtain ⟨c, hc, hregs⟩ := hfind x hx
    rcases hregs t with ⟨ht, -⟩ | hkept
    · exact ht
    · exact h.lt_numTags c hc t r (hkept ▸ hr)
  · intro x hx t r hr
    obtain ⟨c, hc, hregs⟩ := hfind x hx
    rcases hregs t with ⟨-, r', hr', hx'⟩ | hkept
    · rw [hr] at hx'
      cases hx'
      exact hm t r hr'
    · rw [hkept] at hr
      rw [hagree r (hbelow c hc t r hr)]
      exact h.owner_eq c hc t r hr

/-- What holds of the sets of the worklist and of the added ones holds of all. -/
theorem forall_sets_foldl_addTransition {Q : ConfigurationSet → Prop} (source : Nat)
    {entries : List (Nat × List RegisterOperation × ConfigurationSet)}
    (h : ∀ R j, g.dfaStates.find? R = some j → Q R) (hentries : ∀ e ∈ entries, Q e.2.2) :
    ∀ R j, (entries.foldl (addTransition nfa regMapOrder source) g).dfaStates.find? R = some j →
      Q R := by
  induction entries generalizing g with
  | nil => exact h
  | cons e entries ih =>
    rw [List.foldl_cons]
    refine ih ?_ fun e' he' => hentries e' (List.mem_cons_of_mem e he')
    have hD := hentries e List.mem_cons_self
    obtain ⟨byte, ops, D⟩ := e
    intro R j hR
    rcases addTransition_cases nfa regMapOrder source g byte ops D with
      ⟨t, -, heq⟩ | ⟨-, -, heq⟩
    · rw [heq] at hR
      exact h R j hR
    · rw [heq] at hR
      have hR : (g.addState nfa D).dfaStates.find? R = some j := hR
      rw [find?_addState] at hR
      split at hR
      · rename_i hsame
        rw [hsame]
        exact hD
      · exact h R j hR

/-- While a set is explored, the sets of the worklist and those behind the bytes
share one owner of registers. -/
theorem exists_owner_of_getTransitions {owner : Nat → Nat} {regHandler : RegisterHandler}
    {transitions : AsciiTransitionsMap} {source : Nat} (howned : AllOwned nfa.numTags owner g)
    (hbelow : ∀ R i, g.dfaStates.find? R = some i → RegsBelow g.dfa.regHandler.getNumRegs R)
    (hS : g.dfaStates.find? S = some source)
    (h : getTransitions nfa fuel nfa.numTags g.dfa.regHandler S =
      some (regHandler, transitions)) :
    ∃ owner' m, TransitionsOf nfa S g.dfa.regHandler.getNumRegs regHandler.getNumRegs m
        transitions ∧ (∀ t r, m.find? t = some r → owner' r = t) ∧
      AllOwned nfa.numTags owner' g ∧
      ∀ byte ops D, transitions.find? byte = some (ops, D) → Owned nfa.numTags owner' D := by
  obtain ⟨m, hm⟩ := getTransitions_regOps h
  obtain ⟨owner', hagree, howner⟩ := exists_owner hm.fresh owner
  refine ⟨owner', m, hm, howner, ?_, ?_⟩
  · intro R i hR
    exact (howned R i hR).congr (hbelow R i hR) hagree
  · intro byte ops D hfind
    exact (howned S source hS).behind (hbelow S source hS) hagree howner
      fun x hx => (hm.mem_iff byte ops D hfind x).1 hx

/-- Every register belongs to one tag. -/
theorem Reached.exists_owned (h : Reached nfa regMapOrder fuel g) :
    ∃ owner, AllOwned nfa.numTags owner g := by
  induction h with
  | @start S₀ h =>
    refine ⟨id, fun S i hS => ?_⟩
    have hcases : (initialDeterminization nfa S₀).dfaStates.find? S =
        if S = S₀ then some 0 else none :=
      OrderedMap.find?_insertOrAssign S₀ S 0 OrderedMap.empty
    rw [hcases] at hS
    split_ifs at hS with hsame
    rw [hsame]
    exact owned_initial h
  | @explore g g' S rest hreached hqueue hexplore ih =>
    obtain ⟨owner, howned⟩ := ih
    obtain ⟨S₀, hinv⟩ := hreached.loopInvariant
    obtain ⟨source, hsource, hexplore⟩ := Option.bind_eq_some_iff.1 hexplore
    obtain ⟨⟨regHandler, transitions⟩, htransitions, hexplore⟩ :=
      Option.bind_eq_some_iff.1 hexplore
    obtain ⟨owner', m, -, -, howned', hbytes⟩ :=
      exists_owner_of_getTransitions howned hinv.registers hsource htransitions
    refine ⟨owner', ?_⟩
    rw [← Option.some.inj hexplore]
    refine forall_sets_foldl_addTransition source howned' ?_
    rintro ⟨byte, ops, D⟩ he
    exact hbytes byte ops D (OrderedMap.mem_toList_iff.1 he)

/-- What the operations and the sets of an explored set have in common. -/
theorem Explores.exists_owner {regHandler : RegisterHandler} {transitions : AsciiTransitionsMap}
    (h : Explores nfa regMapOrder fuel g S regHandler transitions) :
    ∃ owner m, TransitionsOf nfa S g.dfa.regHandler.getNumRegs regHandler.getNumRegs m
        transitions ∧ (∀ t r, m.find? t = some r → owner r = t) ∧
      AllOwned nfa.numTags owner g ∧
      ∀ byte ops D, transitions.find? byte = some (ops, D) → Owned nfa.numTags owner D := by
  obtain ⟨owner, howned⟩ := h.reached.exists_owned
  obtain ⟨S₀, hinv⟩ := h.reached.loopInvariant
  obtain ⟨⟨source, hsource⟩, -⟩ := h.regsBelow
  exact exists_owner_of_getTransitions howned hinv.registers hsource h.transitions

end LogSurgeon.Dfa
