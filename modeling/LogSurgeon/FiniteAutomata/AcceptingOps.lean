import LogSurgeon.FiniteAutomata.DfaLanguage
import LogSurgeon.FiniteAutomata.RegisterRenaming

/-!
# The accepting operations

`new_state` adds, for every accepting configuration in the order of the set, an
operation on the final register of every tag.  The tags are those of all rules,
and every configuration writes to the same final registers, so the last
accepting configuration decides what they hold (`runRegOps_acceptingOps`).

The state matches the variable of the first one.  Its captures are reported
exactly when the last configuration treats their tags as the first one does
(`reportsFirstMatch_iff_lastAgrees`).
-/

namespace LogSurgeon.Dfa

open Lib Determinization

/-! ## The statement -/

/-- The configurations that accept, in order. -/
def acceptingConfigurations (nfa : Nfa) (S : ConfigurationSet) :
    List DeterminizationConfiguration :=
  S.toList.filter fun c => (variableOf nfa c).isSome

/-- The first configuration that accepts for the variable. -/
def firstConfigurationOf (nfa : Nfa) (S : ConfigurationSet) (id : Nat) :
    Option DeterminizationConfiguration :=
  S.toList.find? fun c => variableOf nfa c = some id

/-- `t` is a tag of a capture of a rule of the variable. -/
def IsTagOf (rules : List LexicalRule) (id t : Nat) : Prop :=
  ∃ rule ∈ rules, rule.variableId = id ∧ ∃ capture ∈ rule.getCaptures, ∃ pair,
    (Nfa.ofRules rules).captureToTagIdPair.lookup capture = some pair ∧
      (t = pair.1 ∨ t = pair.2)

/-- The position of a tag at the end of a match, given the positions in the
registers. -/
def prescribedPosition (c : DeterminizationConfiguration) (t currPos : Nat)
    (store : Nat → Option Int) : Option Int :=
  match c.getTagLookahead t with
  | some tagOp => some (tagPosition currPos tagOp.type)
  | none => (c.tagIdToRegIds.find? t).bind store

/-- The state of the set leaves the captures of the variable that it matches
first as the first configuration of the variable says.  `n` is the number of
registers. -/
def ReportsFirstMatch (rules : List LexicalRule) (n : Nat) (S : ConfigurationSet) : Prop :=
  let nfa := Nfa.ofRules rules
  let final := initialTagIdToFinalRegId nfa.numTags
  ∀ id c, (newState nfa final S).matchingVariableIds.head? = some id →
    firstConfigurationOf nfa S id = some c →
    ∀ handler : RegisterHandler, handler.Pointed → n ≤ handler.getNumRegs → ∀ currPos,
      ∃ handler', processRegOps (newState nfa final S).acceptingOps currPos handler =
          some handler' ∧
        ∀ t, IsTagOf rules id t → ∃ r, final.find? t = some r ∧
          handler'.mostRecentPosition r =
            prescribedPosition c t currPos handler.mostRecentPosition

/-- Both configurations have an operation of one type on the tag in their
lookahead, or none and the same register. -/
def SameOnTag (c d : DeterminizationConfiguration) (t : Nat) : Prop :=
  (c.getTagLookahead t).map (·.type) = (d.getTagLookahead t).map (·.type) ∧
    (c.getTagLookahead t = none → c.tagIdToRegIds.find? t = d.tagIdToRegIds.find? t)

instance (c d : DeterminizationConfiguration) (t : Nat) : Decidable (SameOnTag c d t) :=
  inferInstanceAs (Decidable (_ ∧ _))

/-- The last accepting configuration treats the tags of the variable of the first
one as that does. -/
def LastAgrees (rules : List LexicalRule) (S : ConfigurationSet) : Prop :=
  ∀ first last id, (acceptingConfigurations (Nfa.ofRules rules) S).head? = some first →
    (acceptingConfigurations (Nfa.ofRules rules) S).getLast? = some last →
    variableOf (Nfa.ofRules rules) first = some id →
    ∀ t, IsTagOf rules id t → SameOnTag first last t

/-- No register that a configuration of the set assigns is a final one. -/
def AvoidsFinal (numTags : Nat) (S : ConfigurationSet) : Prop :=
  ∀ c ∈ S, ∀ t r, c.tagIdToRegIds.find? t = some r → r < numTags ∨ 2 * numTags ≤ r

/-- Every configuration has a register for each tag, and none of these is a final
register. -/
structure AssignsTags (numTags n : Nat) (S : ConfigurationSet) : Prop where
  total : ∀ c ∈ S, ∀ t < numTags, ∃ r, c.tagIdToRegIds.find? t = some r
  below : RegsBelow n S
  notFinal : AvoidsFinal numTags S
  final_le : 2 * numTags ≤ n

/-! ## The operations of a state -/

/-- The operations that an accepting configuration adds. -/
def acceptingOpsOf (final : OrderedMap Nat Nat) (c : DeterminizationConfiguration) :
    List RegisterOperation :=
  final.toList.filterMap fun tag => acceptingOp c tag.1 tag.2

theorem acceptingOps_newState (nfa : Nfa) (final : OrderedMap Nat Nat) (S : ConfigurationSet) :
    (newState nfa final S).acceptingOps =
      (acceptingConfigurations nfa S).flatMap (acceptingOpsOf final) := by
  have hstep : ∀ (s : DfaState) (c : DeterminizationConfiguration),
      (addConfiguration nfa final s c).acceptingOps =
        s.acceptingOps ++ if (variableOf nfa c).isSome then acceptingOpsOf final c else [] := by
    intro s c
    unfold addConfiguration variableOf Nfa.labels Nfa.state?
    rw [List.getElem?_map]
    cases nfa.states[c.nfaState]? with
    | none => simp
    | some nfaState =>
      by_cases hacc : nfaState.accepting
      · simp [hacc, NfaState.label, addAcceptingOps_eq, DfaState.addMatchingVariableId,
          acceptingOpsOf]
      · simp [hacc, NfaState.label]
  have hfold : ∀ (cs : List DeterminizationConfiguration) (s : DfaState),
      (cs.foldl (addConfiguration nfa final) s).acceptingOps =
        s.acceptingOps ++
          (cs.filter fun c => (variableOf nfa c).isSome).flatMap (acceptingOpsOf final) := by
    intro cs
    induction cs with
    | nil => simp
    | cons c cs ih =>
      intro s
      rw [List.foldl_cons, ih, hstep, List.append_assoc]
      by_cases hsome : (variableOf nfa c).isSome
      · simp [hsome]
      · simp [hsome]
  exact hfold S.toList {}

section Operation

variable {c d : DeterminizationConfiguration} {t r currPos : Nat}

theorem regId_acceptingOp {final : Nat} {op : RegisterOperation}
    (h : acceptingOp c t final = some op) : op.regId = final := by
  unfold acceptingOp at h
  split at h
  · split at h
    · cases h
      rfl
    · cases h
      rfl
  · obtain ⟨src, -, rfl⟩ := Option.map_eq_some_iff.1 h
    rfl

/-- A copy reads the register of the tag. -/
theorem source_acceptingOp {final source : Nat} {op : RegisterOperation}
    (h : acceptingOp c t final = some op)
    (hcopy : op.toInstruction currPos = .copy final source) :
    c.tagIdToRegIds.find? t = some source := by
  unfold acceptingOp at h
  split at h
  · split at h
    · cases h
      cases hcopy
    · cases h
      cases hcopy
  · obtain ⟨src, hsrc, rfl⟩ := Option.map_eq_some_iff.1 h
    cases hcopy
    exact hsrc

/-- The operation on a final register leaves what the configuration prescribes. -/
theorem exists_acceptingOp (h : ∃ src, c.tagIdToRegIds.find? t = some src) (final : Nat) :
    ∃ op, acceptingOp c t final = some op ∧ ∀ currPos store,
      (op.toInstruction currPos).value store = prescribedPosition c t currPos store := by
  unfold acceptingOp prescribedPosition
  cases c.getTagLookahead t with
  | some tagOp =>
    obtain ⟨id, type⟩ := tagOp
    cases type with
    | set => exact ⟨.createSetOperation final, rfl, fun _ _ => rfl⟩
    | negate => exact ⟨.createNegateOperation final, rfl, fun _ _ => rfl⟩
  | none =>
    obtain ⟨src, hsrc⟩ := h
    rw [hsrc]
    exact ⟨.createCopyOperation final src, rfl, fun _ _ => rfl⟩

theorem prescribedPosition_congr (h : SameOnTag c d t) (currPos : Nat)
    (store : Nat → Option Int) :
    prescribedPosition c t currPos store = prescribedPosition d t currPos store := by
  obtain ⟨htypes, hregs⟩ := h
  unfold prescribedPosition
  cases hc : c.getTagLookahead t with
  | none =>
    cases hd : d.getTagLookahead t with
    | none => simp only [hregs hc]
    | some tagOp =>
      rw [hc, hd] at htypes
      cases htypes
  | some tagOp =>
    cases hd : d.getTagLookahead t with
    | none =>
      rw [hc, hd] at htypes
      cases htypes
    | some tagOp' =>
      rw [hc, hd] at htypes
      have htype : tagOp.type = tagOp'.type := Option.some.inj htypes
      simp only [htype]

/-- Registers with different positions tell the prescriptions apart. -/
theorem sameOnTag_of_prescribedPosition {n : Nat} {store : Nat → Option Int}
    (hstore : ∀ r < n, store r = some (r + 1))
    (hc : ∃ r < n, c.tagIdToRegIds.find? t = some r)
    (hd : ∃ r < n, d.tagIdToRegIds.find? t = some r)
    (h : prescribedPosition c t 0 store = prescribedPosition d t 0 store) : SameOnTag c d t := by
  obtain ⟨r, hr, hfind⟩ := hc
  obtain ⟨r', hr', hfind'⟩ := hd
  have hle : ∀ type : TagOperationType, tagPosition 0 type ≤ 0 := by
    intro type
    cases type <;> decide
  unfold prescribedPosition at h
  unfold SameOnTag
  cases hlook : c.getTagLookahead t with
  | none =>
    cases hlook' : d.getTagLookahead t with
    | none =>
      simp only [hlook, hlook', hfind, hfind', Option.bind_some, hstore r hr, hstore r' hr'] at h
      have heq : r = r' := by
        have := Option.some.inj h
        omega
      exact ⟨rfl, fun _ => by rw [hfind, hfind', heq]⟩
    | some tagOp =>
      simp only [hlook, hlook', hfind, Option.bind_some, hstore r hr] at h
      have := Option.some.inj h
      have := hle tagOp.type
      omega
  | some tagOp =>
    cases hlook' : d.getTagLookahead t with
    | none =>
      simp only [hlook, hlook', hfind', Option.bind_some, hstore r' hr'] at h
      have := Option.some.inj h
      have := hle tagOp.type
      omega
    | some tagOp' =>
      simp only [hlook, hlook'] at h
      have htype := tagPosition_zero_injective (Option.some.inj h)
      exact ⟨congrArg some htype, fun hnone => by cases hnone⟩

end Operation

/-! ## What the operations leave in the final registers -/

variable {nfa : Nfa} {n : Nat} {S : ConfigurationSet}

/-- The operations on the final register of a tag, one for each accepting
configuration. -/
theorem filter_acceptingOpsOf {c : DeterminizationConfiguration} {numTags t : Nat}
    (ht : t < numTags) :
    (acceptingOpsOf (initialTagIdToFinalRegId numTags) c).filter (·.regId = numTags + t) =
      (acceptingOp c t (numTags + t)).toList := by
  have hfind : (t, numTags + t) ∈ (initialTagIdToFinalRegId numTags).toList := by
    apply OrderedMap.mem_toList_iff.2
    rw [find?_initialTagIdToFinalRegId, if_pos ht]
  have hnodup : (initialTagIdToFinalRegId numTags).toList.Nodup := by
    apply List.Nodup.of_map Prod.fst
    refine List.Pairwise.imp ?_ (initialTagIdToFinalRegId numTags).increasing
    intro a b hlt heq
    subst heq
    exact not_compare_self_lt hlt
  unfold acceptingOpsOf
  rw [List.filter_filterMap, filterMap_of_unique hnodup hfind]
  · cases hop : acceptingOp c t (numTags + t) with
    | none => rfl
    | some op =>
      have hreg : op.regId = numTags + t := regId_acceptingOp hop
      simp [Option.filter, hreg]
  · intro tag htag hne
    obtain ⟨t', r⟩ := tag
    have hr := OrderedMap.mem_toList_iff.1 htag
    rw [find?_initialTagIdToFinalRegId] at hr
    split_ifs at hr with hlt
    obtain rfl := Option.some.inj hr
    cases hop : acceptingOp c t' (numTags + t') with
    | none => rfl
    | some op =>
      have hreg : op.regId = numTags + t' := regId_acceptingOp hop
      have hne : t' ≠ t := by
        intro heq
        subst heq
        exact hne rfl
      simp [Option.filter, hreg, hne]

/-- An operation of the state is on the final register of a tag. -/
theorem exists_of_mem_acceptingOps {numTags : Nat} {op : RegisterOperation}
    (h : op ∈ (newState nfa (initialTagIdToFinalRegId numTags) S).acceptingOps) :
    ∃ c ∈ S, ∃ t < numTags, acceptingOp c t (numTags + t) = some op := by
  rw [acceptingOps_newState] at h
  obtain ⟨c, hc, hop⟩ := List.mem_flatMap.1 h
  obtain ⟨⟨t, r⟩, ht, hop⟩ := List.mem_filterMap.1 hop
  have hr := OrderedMap.mem_toList_iff.1 ht
  rw [find?_initialTagIdToFinalRegId] at hr
  split_ifs at hr with hlt
  obtain rfl := Option.some.inj hr
  exact ⟨c, (List.mem_filter.1 hc).1, t, hlt, hop⟩

/-- The operations of the last configuration on a final register come last. -/
theorem getLast?_filter_acceptingOps {last : DeterminizationConfiguration} {numTags t : Nat}
    {op : RegisterOperation} (ht : t < numTags)
    (hlast : (acceptingConfigurations nfa S).getLast? = some last)
    (hop : acceptingOp last t (numTags + t) = some op) :
    ((newState nfa (initialTagIdToFinalRegId numTags) S).acceptingOps.filter
      (·.regId = numTags + t)).getLast? = some op := by
  obtain ⟨init, hinit⟩ := List.getLast?_eq_some_iff.1 hlast
  rw [acceptingOps_newState, hinit, List.flatMap_append, List.filter_append,
    List.flatMap_singleton, filter_acceptingOpsOf ht, hop]
  exact List.getLast?_concat

/-- The last accepting configuration decides what the final registers hold. -/
theorem runRegOps_acceptingOps (h : AssignsTags nfa.numTags n S)
    {last : DeterminizationConfiguration}
    (hlast : (acceptingConfigurations nfa S).getLast? = some last) {t : Nat}
    (ht : t < nfa.numTags) (currPos : Nat) (store : Nat → Option Int) :
    runRegOps (newState nfa (initialTagIdToFinalRegId nfa.numTags) S).acceptingOps currPos store
      (nfa.numTags + t) = prescribedPosition last t currPos store := by
  have hmem : last ∈ S := (List.mem_filter.1 (List.mem_of_getLast? hlast)).1
  obtain ⟨op, hop, hvalue⟩ := exists_acceptingOp (h.total last hmem t ht) (nfa.numTags + t)
  unfold runRegOps
  rw [Instruction.run_eq_last, List.filter_map]
  · have hfilter : ((fun i : Instruction Nat (Option Int) =>
        decide (i.dest = nfa.numTags + t)) ∘ RegisterOperation.toInstruction currPos) =
          fun op => decide (op.regId = nfa.numTags + t) := by
      funext op
      simp
    rw [hfilter, List.getLast?_map, getLast?_filter_acceptingOps ht hlast hop]
    exact hvalue currPos store
  · intro dest source hcopy i hi heq
    obtain ⟨reader, hreader, hcopy⟩ := List.mem_map.1 hcopy
    obtain ⟨writer, hwriter, rfl⟩ := List.mem_map.1 hi
    obtain ⟨c, hc, t₁, ht₁, hreader⟩ := exists_of_mem_acceptingOps hreader
    obtain ⟨c', -, t₂, ht₂, hwriter⟩ := exists_of_mem_acceptingOps hwriter
    rw [RegisterOperation.dest_toInstruction, regId_acceptingOp hwriter] at heq
    have hdest : reader.regId = dest := by
      rw [← RegisterOperation.dest_toInstruction currPos reader, hcopy]
      rfl
    rw [← hdest, regId_acceptingOp hreader] at hcopy
    have hnotFinal := h.notFinal c hc t₁ source (source_acceptingOp hreader hcopy)
    omega

/-- The operations run, and leave what the last accepting configuration
prescribes. -/
theorem exists_processRegOps_acceptingOps (h : AssignsTags nfa.numTags n S)
    {handler : RegisterHandler} (hpointed : handler.Pointed) (hnum : n ≤ handler.getNumRegs)
    {last : DeterminizationConfiguration}
    (hlast : (acceptingConfigurations nfa S).getLast? = some last) (currPos : Nat) :
    ∃ handler', processRegOps (newState nfa (initialTagIdToFinalRegId nfa.numTags) S).acceptingOps
        currPos handler = some handler' ∧
      ∀ t < nfa.numTags, handler'.mostRecentPosition (nfa.numTags + t) =
        prescribedPosition last t currPos handler.mostRecentPosition := by
  have hfinal : ∀ t r, (initialTagIdToFinalRegId nfa.numTags).find? t = some r → r < n := by
    intro t r hr
    rw [find?_initialTagIdToFinalRegId] at hr
    split_ifs at hr with ht
    obtain rfl := Option.some.inj hr
    have := h.final_le
    omega
  have hbelow : OpsBelow n
      (newState nfa (initialTagIdToFinalRegId nfa.numTags) S).acceptingOps :=
    opsBelow_newState hfinal h.below
  have hops := hbelow.mono hnum
  obtain ⟨limit, hlimit, hpos, hwithin⟩ := hpointed.exists_within (toPosition currPos)
  obtain ⟨handler', hrun, -, -⟩ := exists_processRegOps hwithin hops hpos hlimit
  refine ⟨handler', hrun, fun t ht => ?_⟩
  rw [mostRecentPosition_processRegOps hwithin hops hlimit hpos hrun]
  exact runRegOps_acceptingOps h hlast ht currPos _

/-! ## When the captures of the first match are reported -/

section Rules

variable {rules : List LexicalRule}

theorem IsTagOf.lt_numTags {id t : Nat} (h : IsTagOf rules id t) :
    t < (Nfa.ofRules rules).numTags := by
  obtain ⟨rule, -, -, capture, -, pair, hpair, ht⟩ := h
  obtain ⟨hfst, hsnd⟩ := Nfa.tagsInUse_ofRules rules capture pair hpair
  rcases ht with rfl | rfl
  · exact hfst
  · exact hsnd

/-- The first accepting configuration decides the variable of the state. -/
theorem head?_matchingVariableIds (final : OrderedMap Nat Nat) (id : Nat) :
    (newState nfa final S).matchingVariableIds.head? = some id ↔
      ∃ first, (acceptingConfigurations nfa S).head? = some first ∧
        variableOf nfa first = some id := by
  rw [matchingVariableIds_newState]
  unfold acceptingConfigurations
  induction S.toList with
  | nil => simp
  | cons c cs ih =>
    cases hc : variableOf nfa c with
    | none => simpa [hc] using ih
    | some id' => simp [hc]

/-- The first accepting configuration is the first one of its variable. -/
theorem firstConfigurationOf_eq {first : DeterminizationConfiguration} {id : Nat}
    (hfirst : (acceptingConfigurations nfa S).head? = some first)
    (hid : variableOf nfa first = some id) : firstConfigurationOf nfa S id = some first := by
  unfold acceptingConfigurations at hfirst
  unfold firstConfigurationOf
  revert hfirst
  induction S.toList with
  | nil => exact fun hfirst => by cases hfirst
  | cons c cs ih =>
    intro hfirst
    cases hc : variableOf nfa c with
    | none =>
      rw [List.filter_cons_of_neg (by simp [hc])] at hfirst
      rw [List.find?_cons_of_neg (by simp [hc])]
      exact ih hfirst
    | some id' =>
      rw [List.filter_cons_of_pos (by simp [hc])] at hfirst
      obtain rfl := Option.some.inj hfirst
      rw [List.find?_cons_of_pos (by simp [hid])]

/-- The registers of the first match are left as it says only when the last
accepting configuration treats the tags alike. -/
theorem lastAgrees_of_reportsFirstMatch (h : AssignsTags (Nfa.ofRules rules).numTags n S)
    (hreports : ReportsFirstMatch rules n S) : LastAgrees rules S := by
  intro first last id hfirst hlast hid t ht
  have hmem : ∀ c, c ∈ acceptingConfigurations (Nfa.ofRules rules) S → ∃ r < n,
      c.tagIdToRegIds.find? t = some r := by
    intro c hc
    have hcS : c ∈ S := (List.mem_filter.1 hc).1
    obtain ⟨r, hr⟩ := h.total c hcS t ht.lt_numTags
    exact ⟨r, h.below c hcS t r hr, hr⟩
  obtain ⟨handler, hpointed, hnum, hpositions⟩ := exists_distinct_handler n
  obtain ⟨handler', hrun, htags⟩ :=
    hreports id first ((head?_matchingVariableIds _ id).2 ⟨first, hfirst, hid⟩)
      (firstConfigurationOf_eq hfirst hid) handler hpointed hnum.ge 0
  obtain ⟨handler'', hrun', hleft⟩ :=
    exists_processRegOps_acceptingOps h hpointed hnum.ge hlast 0
  obtain rfl : handler' = handler'' := Option.some.inj (hrun.symm.trans hrun')
  obtain ⟨r, hr, hvalue⟩ := htags t ht
  rw [find?_initialTagIdToFinalRegId, if_pos ht.lt_numTags] at hr
  obtain rfl := Option.some.inj hr
  rw [hleft t ht.lt_numTags] at hvalue
  exact sameOnTag_of_prescribedPosition hpositions (hmem first (List.mem_of_head? hfirst))
    (hmem last (List.mem_of_getLast? hlast)) hvalue.symm

theorem LastAgrees.reportsFirstMatch (hagrees : LastAgrees rules S)
    (h : AssignsTags (Nfa.ofRules rules).numTags n S) : ReportsFirstMatch rules n S := by
  intro id c hhead hc handler hpointed hnum currPos
  obtain ⟨first, hfirst, hid⟩ := (head?_matchingVariableIds _ id).1 hhead
  obtain rfl : first = c := Option.some.inj ((firstConfigurationOf_eq hfirst hid).symm.trans hc)
  obtain ⟨last, hlast⟩ : ∃ last,
      (acceptingConfigurations (Nfa.ofRules rules) S).getLast? = some last := by
    apply Option.isSome_iff_exists.1
    rw [List.getLast?_isSome]
    exact List.ne_nil_of_mem (List.mem_of_head? hfirst)
  obtain ⟨handler', hrun, hleft⟩ :=
    exists_processRegOps_acceptingOps h hpointed hnum hlast currPos
  refine ⟨handler', hrun, fun t ht => ⟨(Nfa.ofRules rules).numTags + t, ?_, ?_⟩⟩
  · rw [find?_initialTagIdToFinalRegId, if_pos ht.lt_numTags]
  · rw [hleft t ht.lt_numTags]
    have hsame := hagrees first last id hfirst hlast hid t ht
    exact (prescribedPosition_congr hsame currPos _).symm

end Rules

/-! ## The sets of a generation -/

section Generation

variable {regMapOrder : List (Nat × Nat) → List (Nat × Nat)} {fuel : Nat} {g : Determinization}

theorem avoidsFinal_initial
    (h : (initialConfiguration nfa).spontaneousClosure nfa fuel = some S) :
    AvoidsFinal nfa.numTags S := by
  intro c hc t r hr
  obtain ⟨ops, q, -, rfl⟩ := (DeterminizationConfiguration.mem_spontaneousClosure h c).1 hc
  have hr : (tagIdToInitialRegId nfa.numTags).find? t = some r := hr
  rw [find?_tagIdToInitialRegId] at hr
  split_ifs at hr with ht
  obtain rfl := Option.some.inj hr
  exact Or.inl ht

/-- The registers of the sets behind the bytes are old or new. -/
theorem AvoidsFinal.behind {low high byte : Nat} {m : TagIdWithOpToRegId}
    {transitions : AsciiTransitionsMap} {ops : List RegisterOperation} {D : ConfigurationSet}
    (h : AvoidsFinal nfa.numTags S) (hm : TransitionsOf nfa S low high m transitions)
    (hlow : 2 * nfa.numTags ≤ low) (hbyte : transitions.find? byte = some (ops, D)) :
    AvoidsFinal nfa.numTags D := by
  intro x hx t r hr
  obtain ⟨c, hc, next, -, y, ⟨ops', q, -, rfl⟩, hyx⟩ := (hm.mem_iff byte ops D hbyte x).1 hx
  obtain ⟨hmoved, hkept⟩ := hyx.find?_follow t
  by_cases hop : t < nfa.numTags ∧ Nfa.OnTag c.lookahead t
  · obtain ⟨r', hnew, hr'⟩ := hmoved hop
    rw [hr] at hr'
    obtain rfl := Option.some.inj hr'
    have := hm.fresh.low_le t r hnew
    omega
  · rw [hkept hop] at hr
    exact h c hc t r hr

theorem regHandler_foldl_addTransition (source : Nat)
    (entries : List (Nat × List RegisterOperation × ConfigurationSet)) :
    (entries.foldl (addTransition nfa regMapOrder source) g).dfa.regHandler =
      g.dfa.regHandler := by
  induction entries generalizing g with
  | nil => rfl
  | cons e entries ih =>
    rw [List.foldl_cons, ih]
    exact regHandler_addTransition source e

/-- The final registers exist, and no set uses them. -/
theorem Reached.avoidsFinal (h : Reached nfa regMapOrder fuel g) :
    2 * nfa.numTags ≤ g.dfa.regHandler.getNumRegs ∧
      ∀ S i, g.dfaStates.find? S = some i → AvoidsFinal nfa.numTags S := by
  induction h with
  | @start S₀ h =>
    constructor
    · have hnum : (initialDeterminization nfa S₀).dfa.regHandler.getNumRegs =
          RegisterHandler.new.getNumRegs + 2 * nfa.numTags :=
        RegisterHandler.getNumRegs_addRegisters _ _
      omega
    · intro S i hS
      have hcases : (initialDeterminization nfa S₀).dfaStates.find? S =
          if S = S₀ then some 0 else none :=
        OrderedMap.find?_insertOrAssign S₀ S 0 OrderedMap.empty
      rw [hcases] at hS
      split_ifs at hS with hsame
      rw [hsame]
      exact avoidsFinal_initial h
  | @explore g g' S rest hreached hqueue hexplore ih =>
    obtain ⟨hnum, hsets⟩ := ih
    obtain ⟨source, hsource, hexplore⟩ := Option.bind_eq_some_iff.1 hexplore
    obtain ⟨⟨regHandler, transitions⟩, htransitions, hexplore⟩ :=
      Option.bind_eq_some_iff.1 hexplore
    obtain ⟨m, hm⟩ := getTransitions_regOps htransitions
    rw [← Option.some.inj hexplore]
    constructor
    · rw [regHandler_foldl_addTransition]
      exact hnum.trans hm.fresh.le
    · refine forall_sets_foldl_addTransition source hsets ?_
      intro e he
      obtain ⟨byte, ops, D⟩ := e
      exact (hsets S source hsource).behind hm hnum (OrderedMap.mem_toList_iff.1 he)

/-- The sets of a generation assign a register to each tag. -/
theorem Reached.assignsTags (h : Reached nfa regMapOrder fuel g) {i : Nat}
    (hS : g.dfaStates.find? S = some i) :
    AssignsTags nfa.numTags g.dfa.regHandler.getNumRegs S := by
  obtain ⟨owner, howned⟩ := h.exists_owned
  obtain ⟨S₀, hinv⟩ := h.loopInvariant
  obtain ⟨hnum, hfinal⟩ := h.avoidsFinal
  exact ⟨(howned S i hS).total, hinv.registers S i hS, hfinal S i hS, hnum⟩

end Generation

/-! ### Overlapping rules -/

/-- The rules `(?<x>a)` and `a`. -/
def overlappingRules : List LexicalRule :=
  [⟨1, .mkCapture (.mkLiteral 97) ⟨0, "x"⟩⟩, ⟨2, .mkLiteral 97⟩]

/-- The state of a set reports the captures of its first match exactly when its
last accepting configuration treats their tags as the first one does. -/
theorem reportsFirstMatch_iff_lastAgrees {rules : List LexicalRule} {n : Nat}
    {S : ConfigurationSet} (h : AssignsTags (Nfa.ofRules rules).numTags n S) :
    ReportsFirstMatch rules n S ↔ LastAgrees rules S :=
  ⟨lastAgrees_of_reportsFirstMatch h, fun hagrees => hagrees.reportsFirstMatch h⟩

/-- The set of the generation behind `a`. -/
theorem reportsFirstMatch_iff_lastAgrees_overlapping :
    ∃ g S i, Reached (Nfa.ofRules overlappingRules) id 16 g ∧ g.dfaStates.find? S = some i ∧
      acceptingConfigurations (Nfa.ofRules overlappingRules) S ≠ [] ∧
      (ReportsFirstMatch overlappingRules g.dfa.regHandler.getNumRegs S ↔
        LastAgrees overlappingRules S) := by
  have hcheck : checkExplored (Nfa.ofRules overlappingRules) 16 1
      fun _ S _ _ => decide (acceptingConfigurations (Nfa.ofRules overlappingRules) S ≠ []) := by
    decide +kernel
  obtain ⟨g, S, regHandler, transitions, hexplores, hcheck⟩ := exists_explores_of_check hcheck
  obtain ⟨⟨i, hi⟩, -⟩ := hexplores.regsBelow
  exact ⟨g, S, i, hexplores.reached, hi, of_decide_eq_true hcheck,
    reportsFirstMatch_iff_lastAgrees (hexplores.reached.assignsTags hi)⟩

/-- Behind `a`, the rule without a capture is executed last, and overwrites the
position where the capture of the other starts. -/
theorem not_reportsFirstMatch_overlapping :
    ∃ g S i, Reached (Nfa.ofRules overlappingRules) id 16 g ∧ g.dfaStates.find? S = some i ∧
      acceptingConfigurations (Nfa.ofRules overlappingRules) S ≠ [] ∧
      ¬ ReportsFirstMatch overlappingRules g.dfa.regHandler.getNumRegs S := by
  have hcheck : checkExplored (Nfa.ofRules overlappingRules) 16 1
      fun _ S _ _ => decide (∃ first ∈ S.toList, ∃ last ∈ S.toList,
        (acceptingConfigurations (Nfa.ofRules overlappingRules) S).head? = some first ∧
        (acceptingConfigurations (Nfa.ofRules overlappingRules) S).getLast? = some last ∧
        variableOf (Nfa.ofRules overlappingRules) first = some 1 ∧
        ¬ SameOnTag first last 0) := by decide +kernel
  obtain ⟨g, S, regHandler, transitions, hexplores, hcheck⟩ := exists_explores_of_check hcheck
  obtain ⟨⟨i, hi⟩, -⟩ := hexplores.regsBelow
  obtain ⟨first, -, last, -, hfirst, hlast, hid, hdiffers⟩ := of_decide_eq_true hcheck
  refine ⟨g, S, i, hexplores.reached, hi, List.ne_nil_of_mem (List.mem_of_head? hfirst),
    fun hreports => hdiffers ?_⟩
  have hagrees := lastAgrees_of_reportsFirstMatch (hexplores.reached.assignsTags hi) hreports
  have htag : IsTagOf overlappingRules 1 0 := by
    refine ⟨_, List.mem_cons_self, rfl, ⟨0, "x"⟩, ?_, (0, 1), ?_, Or.inl rfl⟩
    · decide
    · decide
  exact hagrees first last 1 hfirst hlast hid 0 htag

end LogSurgeon.Dfa
