import LogSurgeon.FiniteAutomata.DfaWorklist
import LogSurgeon.FiniteAutomata.NfaLanguage

/-!
# What the DFA matches

A set that gets a state of its own holds exactly the NFA states that its word
leads to (`wordProperty_exact`).  A set that is mapped to an existing one is
another matter: the existing set has the NFA states of the new one, and can
have more, because a mapping may send two configurations to one.

So the DFA never misses a rule, and it is right about every word exactly when
no mapping of the generation leads to a set that matches more
(`answers_iff_mappings_sound`).
-/

namespace LogSurgeon

open Lib

/-! ## Paths of the NFA -/

namespace Nfa

variable {nfa : Nfa} {p q : Nat} {v w : List UInt8}

theorem SpontaneousPath.cons {s : NfaState} {t : NfaSpontaneousTransition}
    {ops : List TagOperation} (hs : nfa.state? p = some s)
    (ht : t ∈ s.spontaneousTransitions) (hpath : nfa.SpontaneousPath t.destState ops q) :
    nfa.SpontaneousPath p (t.tagOps ++ ops) q := by
  induction hpath with
  | refl =>
    have hstep := SpontaneousPath.snoc (SpontaneousPath.refl p) hs ht
    rwa [List.nil_append, ← List.append_nil t.tagOps] at hstep
  | snoc _ hs' ht' ih =>
    rw [← List.append_assoc]
    exact SpontaneousPath.snoc ih hs' ht'

theorem reaches_nil_iff : nfa.Reaches p [] q ↔ ∃ ops, nfa.SpontaneousPath p ops q := by
  constructor
  · intro h
    generalize hw : ([] : List UInt8) = w at h
    induction h with
    | refl p => exact ⟨[], .refl p⟩
    | spontaneous hs ht _ ih =>
      obtain ⟨ops, hpath⟩ := ih hw
      exact ⟨_, hpath.cons hs ht⟩
    | byte => cases hw
  · rintro ⟨ops, hpath⟩
    exact hpath.reaches (Reaches.refl q)

theorem reaches_append :
    nfa.Reaches p (v ++ w) q ↔ ∃ r, nfa.Reaches p v r ∧ nfa.Reaches r w q := by
  constructor
  · intro h
    generalize hvw : v ++ w = u at h
    induction h generalizing v with
    | refl p =>
      obtain ⟨rfl, rfl⟩ := List.append_eq_nil_iff.1 hvw
      exact ⟨p, .refl p, .refl p⟩
    | spontaneous hs ht _ ih =>
      obtain ⟨r, hv, hw⟩ := ih hvw
      exact ⟨r, .spontaneous hs ht hv, hw⟩
    | @byte p q r b u s hs hr hrest ih =>
      rcases v with _ | ⟨b', v⟩
      · rw [List.nil_append] at hvw
        subst hvw
        exact ⟨p, .refl p, .byte hs hr hrest⟩
      · rw [List.cons_append] at hvw
        cases hvw
        obtain ⟨r', hv, hw⟩ := ih rfl
        exact ⟨r', .byte hs hr hv, hw⟩
  · rintro ⟨r, hv, hw⟩
    induction hv with
    | refl => exact hw
    | spontaneous hs ht _ ih => exact .spontaneous hs ht (ih hw)
    | byte hs hr _ ih => exact .byte hs hr (ih hw)

/-- A run on one byte: spontaneous transitions around a byte transition. -/
theorem reaches_cons_iff {b : UInt8} :
    nfa.Reaches p (b :: w) q ↔ ∃ p' next, nfa.Reaches p [] p' ∧
      nfa.ByteStep p' b.toNat next ∧ nfa.Reaches next w q := by
  constructor
  · intro h
    generalize hu : b :: w = u at h
    induction h with
    | refl => cases hu
    | spontaneous hs ht _ ih =>
      obtain ⟨p', next, hp', hstep, hrest⟩ := ih hu
      exact ⟨p', next, .spontaneous hs ht hp', hstep, hrest⟩
    | @byte p q r b' u s hs hr hrest ih =>
      cases hu
      exact ⟨p, r, .refl p, ⟨b.toNat_lt, s, hs, hr⟩, hrest⟩
  · rintro ⟨p', next, hp', ⟨_, s, hs, hnext⟩, hrest⟩
    rw [← List.nil_append (b :: w)]
    exact reaches_append.2 ⟨p', hp', .byte hs hnext hrest⟩

end Nfa

namespace Dfa

open Determinization

variable {nfa : Nfa} {regMapOrder : List (Nat × Nat) → List (Nat × Nat)} {fuel : Nat}

/-! ## The NFA states of a set -/

/-- `q` is the NFA state of a configuration of the set. -/
def StatesOf (S : ConfigurationSet) (q : Nat) : Prop := ∃ c ∈ S, c.nfaState = q

/-- The set holds exactly the NFA states that the word leads to. -/
def ExactFor (nfa : Nfa) (w : List UInt8) (S : ConfigurationSet) : Prop :=
  ∀ q, StatesOf S q ↔ nfa.Reaches nfa.root w q

/-- The states of the computed set are those behind the byte. -/
theorem Determinization.Computed.statesOf {S D : ConfigurationSet} {byte low : Nat}
    {ops : List RegisterOperation} (h : Computed nfa fuel low S byte ops D) (q : Nat) :
    StatesOf D q ↔ ∃ p next, StatesOf S p ∧ nfa.ByteStep p byte next ∧
      nfa.Reaches next [] q := by
  obtain ⟨-, rh, rh', ts, -, hts, hfind⟩ := h
  obtain ⟨m, -, hexists, hbytes⟩ := getTransitions_spec hts
  have hmem := (hbytes byte).2 ops D hfind
  constructor
  · rintro ⟨x, hx, rfl⟩
    obtain ⟨c, hc, next, hstep, y, ⟨ops', q, hpath, rfl⟩, hyx⟩ := (hmem x).1 hx
    refine ⟨c.nfaState, next, ⟨c, hc, rfl⟩, hstep, ?_⟩
    rw [hyx.nfaState]
    exact Nfa.reaches_nil_iff.2 ⟨ops', hpath⟩
  · rintro ⟨_, next, ⟨c, hc, rfl⟩, hstep, hreach⟩
    obtain ⟨ops', hpath⟩ := Nfa.reaches_nil_iff.1 hreach
    have hy : DeterminizationConfiguration.LeadsTo nfa (nextConfiguration c next)
      ((nextConfiguration c next).follow ops' q) := ⟨ops', q, hpath, rfl⟩
    obtain ⟨x, hx⟩ := hexists c hc byte next hstep _ hy
    exact ⟨x, (hmem x).2 ⟨c, hc, next, hstep, _, hy, hx⟩, hx.nfaState⟩

/-- The initial set is exact for the empty word. -/
theorem exactFor_initial {S : ConfigurationSet}
    (hS : (initialConfiguration nfa).spontaneousClosure nfa fuel = some S) :
    ExactFor nfa [] S := by
  intro q
  rw [Nfa.reaches_nil_iff]
  constructor
  · rintro ⟨c, hc, rfl⟩
    obtain ⟨ops, q, hpath, rfl⟩ :=
      (DeterminizationConfiguration.mem_spontaneousClosure hS c).1 hc
    exact ⟨ops, hpath⟩
  · rintro ⟨ops, hpath⟩
    exact ⟨_, (DeterminizationConfiguration.mem_spontaneousClosure hS _).2
      ⟨ops, q, hpath, rfl⟩, rfl⟩

/-- Exploring keeps the sets exact. -/
theorem ExactFor.computed {w : List UInt8} {S D : ConfigurationSet} {b : UInt8} {low : Nat}
    {ops : List RegisterOperation} (hS : ExactFor nfa w S)
    (hD : Computed nfa fuel low S b.toNat ops D) : ExactFor nfa (w ++ [b]) D := by
  intro q
  rw [hD.statesOf, Nfa.reaches_append]
  constructor
  · rintro ⟨p, next, hp, hstep, hreach⟩
    refine ⟨p, (hS p).1 hp, ?_⟩
    exact Nfa.reaches_cons_iff.2 ⟨p, next, .refl p, hstep, hreach⟩
  · rintro ⟨r, hr, hb⟩
    obtain ⟨p, next, hp, hstep, hreach⟩ := Nfa.reaches_cons_iff.1 hb
    refine ⟨p, next, (hS p).2 ?_, hstep, hreach⟩
    rw [← List.append_nil w]
    exact Nfa.reaches_append.2 ⟨r, hr, hp⟩

theorem ExactFor.spans {g : Determinization} {S D : ConfigurationSet} {i j : Nat}
    {v w : List UInt8} (hS : ExactFor nfa v S) (h : Spans nfa fuel g S i w D j) :
    ExactFor nfa (v ++ w) D := by
  induction h with
  | refl =>
    rw [List.append_nil]
    exact hS
  | step _ _ _ hcomputed _ ih =>
    rw [← List.append_assoc]
    exact ih.computed hcomputed

/-- Every state has a word that leads to it and that its set is exact for. -/
def Words (nfa : Nfa) (g : Determinization) : Prop :=
  ∀ S i, g.dfaStates.find? S = some i → ∃ w, g.dfa.run 0 w = some i ∧ ExactFor nfa w S

theorem words_of_spanned {g : Determinization} {S₀ : ConfigurationSet}
    (hS₀ : (initialConfiguration nfa).spontaneousClosure nfa fuel = some S₀)
    (h : Spanned nfa fuel S₀ g) : Words nfa g := by
  intro S i hS
  obtain ⟨w, hw⟩ := h S i hS
  exact ⟨w, hw.run, (exactFor_initial hS₀).spans hw⟩

/-- An exact set is closed under spontaneous transitions. -/
theorem ExactFor.closed {w : List UInt8} {S : ConfigurationSet} (h : ExactFor nfa w S)
    {p q : Nat} (hp : StatesOf S p) (hpq : nfa.Reaches p [] q) : StatesOf S q := by
  rw [h q, ← List.append_nil w]
  exact Nfa.reaches_append.2 ⟨p, (h p).1 hp, hpq⟩

/-! ## Variables of a set -/

theorem nfaState_le_of_lt {a b : DeterminizationConfiguration} (h : compare a b = .lt) :
    a.nfaState ≤ b.nfaState := by
  have h : (compare a.nfaState b.nfaState).then _ = .lt := h
  rcases Ordering.then_eq_lt.1 h with h | ⟨h, -⟩
  · exact (Nat.compare_eq_lt.1 h).le
  · exact (Nat.compare_eq_eq.1 h).le

/-- The variable of an accepting configuration. -/
def variableOf (nfa : Nfa) (c : DeterminizationConfiguration) : Option Nat :=
  (nfa.labels[c.nfaState]?).join

theorem matchingVariableIds_newState (nfa : Nfa) (final : OrderedMap Nat Nat)
    (S : ConfigurationSet) :
    (newState nfa final S).matchingVariableIds = S.toList.filterMap (variableOf nfa) := by
  have hstep : ∀ (s : DfaState) (c : DeterminizationConfiguration),
      (addConfiguration nfa final s c).matchingVariableIds =
        s.matchingVariableIds ++ (variableOf nfa c).toList := by
    intro s c
    unfold addConfiguration variableOf Nfa.labels Nfa.state?
    rw [List.getElem?_map]
    cases nfa.states[c.nfaState]? with
    | none => simp
    | some nfaState =>
      by_cases hacc : nfaState.accepting
      · simp [hacc, NfaState.label, addAcceptingOps_eq, DfaState.addMatchingVariableId]
      · simp [hacc, NfaState.label]
  have hfold : ∀ (cs : List DeterminizationConfiguration) (s : DfaState),
      (cs.foldl (addConfiguration nfa final) s).matchingVariableIds =
        s.matchingVariableIds ++ cs.filterMap (variableOf nfa) := by
    intro cs
    induction cs with
    | nil => simp
    | cons c cs ih =>
      intro s
      rw [List.foldl_cons, ih, hstep, List.append_assoc]
      congr 1
      cases hc : variableOf nfa c <;> simp [hc]
  rw [newState, hfold]
  rfl

section Rules

variable {rules : List LexicalRule}

theorem variableOf_eq_some_iff {c : DeterminizationConfiguration} {id : Nat} :
    variableOf (Nfa.ofRules rules) c = some id ↔ ∃ i : Fin rules.length,
      c.nfaState = Nfa.acceptingStateOf rules i ∧ rules[i].variableId = id := by
  rw [variableOf, Option.join_eq_some_iff, Nfa.label_eq_some_iff]
  constructor
  · rintro ⟨i, hi, hc, hid⟩
    exact ⟨⟨i, hi⟩, hc, hid.symm⟩
  · rintro ⟨⟨i, hi⟩, hc, hid⟩
    exact ⟨i, hi, hc, hid.symm⟩

/-- The variables are those of the rules whose accepting states are in the set,
in the order of the rules. -/
theorem exists_rules_of_set (rules : List LexicalRule) (final : OrderedMap Nat Nat) (S : ConfigurationSet) :
    ∃ is : List (Fin rules.length), is.Pairwise (· ≤ ·) ∧
      (newState (Nfa.ofRules rules) final S).matchingVariableIds =
        is.map (fun i => rules[i].variableId) ∧
      ∀ i, i ∈ is ↔ StatesOf S (Nfa.acceptingStateOf rules i) := by
  rw [matchingVariableIds_newState]
  have hsorted : S.toList.Pairwise (·.nfaState ≤ ·.nfaState) :=
    S.increasing.imp nfaState_le_of_lt
  show ∃ is : List (Fin rules.length), _ ∧ _ ∧ ∀ i, i ∈ is ↔ ∃ c ∈ S.toList, _
  generalize S.toList = configs at hsorted ⊢
  induction configs with
  | nil => exact ⟨[], List.Pairwise.nil, rfl, by simp⟩
  | cons c cs ih =>
    obtain ⟨hc, hcs⟩ := List.pairwise_cons.1 hsorted
    obtain ⟨is, his, hids, hmem⟩ := ih hcs
    cases hvar : variableOf (Nfa.ofRules rules) c with
    | none =>
      refine ⟨is, his, by rw [List.filterMap_cons_none hvar, hids], fun i => ?_⟩
      rw [hmem]
      constructor
      · rintro ⟨d, hd, hi⟩
        exact ⟨d, List.mem_cons_of_mem _ hd, hi⟩
      · rintro ⟨d, hd, hi⟩
        rcases List.mem_cons.1 hd with rfl | hd
        · rw [variableOf_eq_some_iff.2 ⟨i, hi, rfl⟩] at hvar
          cases hvar
        · exact ⟨d, hd, hi⟩
    | some id =>
      obtain ⟨i₀, hi₀, hid⟩ := variableOf_eq_some_iff.1 hvar
      refine ⟨i₀ :: is, List.pairwise_cons.2 ⟨?_, his⟩, ?_, fun i => ?_⟩
      · intro j hj
        obtain ⟨d, hd, hj⟩ := (hmem j).1 hj
        have hle := hc d hd
        rw [hi₀, hj] at hle
        by_contra hlt
        have hlt' := Nfa.acceptingStateOf_lt_of_lt rules (not_le.1 hlt) i₀.isLt.le
        omega
      · rw [List.filterMap_cons_some hvar, hids, List.map_cons, hid]
      · rw [List.mem_cons, hmem]
        constructor
        · rintro (rfl | ⟨d, hd, hi⟩)
          · exact ⟨c, by simp, hi₀⟩
          · exact ⟨d, List.mem_cons_of_mem _ hd, hi⟩
        · rintro ⟨d, hd, hi⟩
          rcases List.mem_cons.1 hd with rfl | hd
          · left
            rw [hi₀] at hi
            rcases Nat.lt_trichotomy i i₀ with hlt | heq | hgt
            · have := Nfa.acceptingStateOf_lt_of_lt rules hlt i₀.isLt.le
              omega
            · exact Fin.ext heq
            · have := Nfa.acceptingStateOf_lt_of_lt rules hgt i.isLt.le
              omega
          · exact Or.inr ⟨d, hd, hi⟩

/-! ## Matches -/

/-- The accepting state of rule `i` is reached on the word from a state in
`P`. -/
def MatchesFrom (rules : List LexicalRule) (P : Nat → Prop) (w : List UInt8)
    (i : Fin rules.length) : Prop :=
  ∃ p, P p ∧ (Nfa.ofRules rules).Reaches p w (Nfa.acceptingStateOf rules i)

/-- A rule of the variable matches. -/
def MatchesVariable (rules : List LexicalRule) (P : Nat → Prop) (w : List UInt8)
    (id : Nat) : Prop :=
  ∃ i, MatchesFrom rules P w i ∧ rules[i].variableId = id

/-- The first rule that matches is a rule of the variable. -/
def MatchesFirst (rules : List LexicalRule) (P : Nat → Prop) (w : List UInt8)
    (id : Nat) : Prop :=
  ∃ i, MatchesFrom rules P w i ∧ rules[i].variableId = id ∧
    ∀ j < i, ¬ MatchesFrom rules P w j

/-- From `P` and from `Q`, every word matches the same variables, and the first
rule that matches belongs to the same variable. -/
def SameMatches (rules : List LexicalRule) (P Q : Nat → Prop) : Prop :=
  ∀ w id, (MatchesVariable rules P w id ↔ MatchesVariable rules Q w id) ∧
    (MatchesFirst rules P w id ↔ MatchesFirst rules Q w id)

/-- The root of the NFA. -/
def AtRoot (rules : List LexicalRule) (p : Nat) : Prop := p = (Nfa.ofRules rules).root

/-- The variables of a state are those of the rules that the word matches, in
the order of the rules. -/
structure AnswersFor (rules : List LexicalRule) (w : List UInt8) (ids : List Nat) : Prop where
  mem : ∀ id, id ∈ ids ↔ MatchesVariable rules (AtRoot rules) w id
  ordered : ∃ is : List (Fin rules.length), is.Pairwise (· ≤ ·) ∧
    ids = is.map fun i => rules[i].variableId
  head : ∀ id, ids.head? = some id ↔ MatchesFirst rules (AtRoot rules) w id

/-- The DFA ends in a state with the right variables, or has no run when no
rule matches. -/
def Answers (rules : List LexicalRule) (dfa : Dfa) (w : List UInt8) : Prop :=
  match dfa.run dfa.getRoot w with
  | some p => ∃ s, dfa.state? p = some s ∧ AnswersFor rules w s.matchingVariableIds
  | none => ∀ i, ¬ MatchesFrom rules (AtRoot rules) w i

/-! ## Correctness -/

/-- From the states of the set, every word matches what it matches after `w`. -/
def AgreesAfter (rules : List LexicalRule) (w : List UInt8) (S : ConfigurationSet) : Prop :=
  ∀ v id, (MatchesVariable rules (StatesOf S) v id ↔
      MatchesVariable rules (AtRoot rules) (w ++ v) id) ∧
    (MatchesFirst rules (StatesOf S) v id ↔ MatchesFirst rules (AtRoot rules) (w ++ v) id)

/-- A set that agrees with the word has the right variables. -/
theorem answersFor_newState {w : List UInt8} {S : ConfigurationSet}
    (hS : AgreesAfter rules w S)
    (hclosed : ∀ p q, StatesOf S p → (Nfa.ofRules rules).Reaches p [] q → StatesOf S q)
    (final : OrderedMap Nat Nat) :
    AnswersFor rules w (newState (Nfa.ofRules rules) final S).matchingVariableIds := by
  obtain ⟨is, hsorted, hids, hmem⟩ := exists_rules_of_set rules final S
  have hmatch : ∀ i, i ∈ is ↔ MatchesFrom rules (StatesOf S) [] i := by
    intro i
    rw [hmem]
    constructor
    · intro hi
      exact ⟨_, hi, .refl _⟩
    · rintro ⟨p, hp, hpi⟩
      exact hclosed p _ hp hpi
  have hw : w ++ [] = w := List.append_nil w
  rw [hids]
  refine ⟨fun id => ?_, ⟨is, hsorted, rfl⟩, fun id => ?_⟩
  · have hvar := (hS [] id).1
    rw [hw] at hvar
    rw [← hvar, List.mem_map]
    exact exists_congr fun i => and_congr_left fun _ => hmatch i
  · have hfirst := (hS [] id).2
    rw [hw] at hfirst
    rw [← hfirst]
    rcases is with _ | ⟨i₀, is⟩
    · simp only [List.map_nil, List.head?_nil, false_iff, reduceCtorEq]
      rintro ⟨i, hi, -⟩
      exact absurd ((hmatch i).2 hi) (by simp)
    · obtain ⟨hle, -⟩ := List.pairwise_cons.1 hsorted
      rw [List.map_cons, List.head?_cons, Option.some.injEq]
      constructor
      · intro hid
        refine ⟨i₀, (hmatch i₀).1 (by simp), hid, fun j hj hmatchj => ?_⟩
        rcases List.mem_cons.1 ((hmatch j).2 hmatchj) with rfl | hmemj
        · exact absurd hj (lt_irrefl _)
        · exact absurd (hle j hmemj) (not_le.2 hj)
      · rintro ⟨i, hi, hid, hleast⟩
        have hi₀ : i₀ = i := by
          rcases List.mem_cons.1 ((hmatch i).2 hi) with heq | hmemi
          · exact heq.symm
          · rcases lt_or_eq_of_le (hle i hmemi) with hlt | heq
            · exact absurd ((hmatch i₀).1 (by simp)) (hleast i₀ hlt)
            · exact heq
        rw [hi₀, hid]

/-- `D` was computed for a transition of the DFA, and `R` is the set of the
state that the transition leads to. -/
def MapsSet (nfa : Nfa) (fuel : Nat) (g : Determinization) (D R : ConfigurationSet) : Prop :=
  ∃ S i byte t low ops, g.dfaStates.find? S = some i ∧ g.dfa.transition? i byte = some t ∧
    Computed nfa fuel low S byte ops D ∧ g.dfaStates.find? R = some t.destState

/-- Matches from a union of runs. -/
theorem matchesFrom_step {P Q : Nat → Prop} {v w : List UInt8}
    (h : ∀ i : Fin rules.length, MatchesFrom rules P v i ↔ MatchesFrom rules Q w i) (id : Nat) :
    (MatchesVariable rules P v id ↔ MatchesVariable rules Q w id) ∧
      (MatchesFirst rules P v id ↔ MatchesFirst rules Q w id) := by
  unfold MatchesVariable MatchesFirst
  simp only [h, and_self]

theorem matchesFrom_exact {w : List UInt8} {S : ConfigurationSet}
    (h : ExactFor (Nfa.ofRules rules) w S) (v : List UInt8) (i : Fin rules.length) :
    MatchesFrom rules (StatesOf S) v i ↔ MatchesFrom rules (AtRoot rules) (w ++ v) i := by
  constructor
  · rintro ⟨p, hp, hreach⟩
    exact ⟨_, rfl, Nfa.reaches_append.2 ⟨p, (h p).1 hp, hreach⟩⟩
  · rintro ⟨_, rfl, hreach⟩
    obtain ⟨p, hp, hreach⟩ := Nfa.reaches_append.1 hreach
    exact ⟨p, (h p).2 hp, hreach⟩

theorem matchesFrom_computed {S D : ConfigurationSet} {b : UInt8} {low : Nat}
    {ops : List RegisterOperation}
    (hD : Computed (Nfa.ofRules rules) fuel low S b.toNat ops D)
    (hclosed : ∀ p q, StatesOf S p → (Nfa.ofRules rules).Reaches p [] q → StatesOf S q)
    (v : List UInt8) (i : Fin rules.length) :
    MatchesFrom rules (StatesOf D) v i ↔ MatchesFrom rules (StatesOf S) (b :: v) i := by
  constructor
  · rintro ⟨q, hq, hreach⟩
    obtain ⟨p, next, hp, hstep, hnext⟩ := (hD.statesOf q).1 hq
    have hrest := Nfa.reaches_append.2 ⟨q, hnext, hreach⟩
    rw [List.nil_append] at hrest
    exact ⟨p, hp, Nfa.reaches_cons_iff.2 ⟨p, next, .refl p, hstep, hrest⟩⟩
  · rintro ⟨p, hp, hreach⟩
    obtain ⟨p', next, hp', hstep, hrest⟩ := Nfa.reaches_cons_iff.1 hreach
    exact ⟨next, (hD.statesOf next).2 ⟨p', next, hclosed p p' hp hp', hstep, .refl _⟩, hrest⟩

theorem agreesAfter_exact {w : List UInt8} {S : ConfigurationSet}
    (h : ExactFor (Nfa.ofRules rules) w S) : AgreesAfter rules w S :=
  fun v => matchesFrom_step (matchesFrom_exact h v)

section Generated

variable {g : Determinization} {S₀ : ConfigurationSet}
variable (hS₀ : (initialConfiguration (Nfa.ofRules rules)).spontaneousClosure
  (Nfa.ofRules rules) fuel = some S₀)
variable (hinv : Invariant (Nfa.ofRules rules) regMapOrder fuel S₀ g)
variable (hwords : Words (Nfa.ofRules rules) g)

include hwords in
theorem closed_of_words {S : ConfigurationSet} {i : Nat} (hS : g.dfaStates.find? S = some i)
    (p q : Nat) (hp : StatesOf S p) (hpq : (Nfa.ofRules rules).Reaches p [] q) :
    StatesOf S q := by
  obtain ⟨w, -, hexact⟩ := hwords S i hS
  exact hexact.closed hp hpq

include hS₀ hinv hwords

/-- With sound mappings, a run ends in a set that agrees with its word. -/
theorem agreesAfter_of_run
    (hsound : ∀ D R, MapsSet (Nfa.ofRules rules) fuel g D R →
      SameMatches rules (StatesOf D) (StatesOf R))
    {w : List UInt8} {p : Nat} (hrun : g.dfa.run 0 w = some p) :
    ∃ S, g.dfaStates.find? S = some p ∧ AgreesAfter rules w S := by
  induction w using List.reverseRecOn generalizing p with
  | nil =>
    obtain rfl : 0 = p := Option.some.inj hrun
    exact ⟨S₀, hinv.root, agreesAfter_exact (exactFor_initial hS₀)⟩
  | append_singleton w b ih =>
    rw [run_append] at hrun
    obtain ⟨p', hp', hrun⟩ := Option.bind_eq_some_iff.1 hrun
    obtain ⟨t, ht, hrun⟩ := Option.bind_eq_some_iff.1 hrun
    obtain rfl : t.destState = p := Option.some.inj hrun
    obtain ⟨S, hS, hagree⟩ := ih hp'
    obtain ⟨low, ops, D, hD, ⟨R, hR, -⟩, -⟩ := hinv.transitions S p' _ t hS ht
    refine ⟨R, hR, fun v id => ?_⟩
    have hmap := hsound D R ⟨S, p', _, t, low, ops, hS, ht, hD, hR⟩ v id
    have hstep := matchesFrom_step
      (matchesFrom_computed hD (closed_of_words hwords hS) v) id
    have hagree_w := hagree (b :: v) id
    rw [List.append_assoc]
    exact ⟨hmap.1.symm.trans (hstep.1.trans hagree_w.1),
      hmap.2.symm.trans (hstep.2.trans hagree_w.2)⟩

/-- With sound mappings, no rule matches a word without run, nor a word that
goes on from it. -/
theorem no_match_of_run_none
    (hcomplete : ∀ S i, g.dfaStates.find? S = some i → Complete (Nfa.ofRules rules) g S i)
    (hsound : ∀ D R, MapsSet (Nfa.ofRules rules) fuel g D R →
      SameMatches rules (StatesOf D) (StatesOf R))
    {w : List UInt8} (hrun : g.dfa.run 0 w = none) (v : List UInt8) (i : Fin rules.length) :
    ¬ MatchesFrom rules (AtRoot rules) (w ++ v) i := by
  induction w using List.reverseRecOn generalizing v with
  | nil => cases hrun
  | append_singleton w b ih =>
    rw [List.append_assoc]
    cases hp : g.dfa.run 0 w with
    | none => exact ih hp _
    | some p =>
      intro hmatch
      rw [run_append, hp] at hrun
      have hrun : (g.dfa.transition? p b.toNat).bind _ = none := hrun
      obtain ⟨S, hS, hagree⟩ := agreesAfter_of_run hS₀ hinv hwords hsound hp
      obtain ⟨i', ⟨q, ⟨c, hc, rfl⟩, hreach⟩, -⟩ :=
        (hagree (b :: v) rules[i].variableId).1.2 ⟨i, hmatch, rfl⟩
      obtain ⟨q', next, hq', hstep, -⟩ := Nfa.reaches_cons_iff.1 hreach
      obtain ⟨c', hc', rfl⟩ := closed_of_words hwords hS _ q' ⟨c, hc, rfl⟩ hq'
      obtain ⟨t, ht⟩ := hcomplete S p hS c' hc' _ next hstep
      rw [ht] at hrun
      cases hrun

omit hS₀ hinv in
/-- A right DFA has no mapping that leads to a set that matches anything
else. -/
theorem sameMatches_of_answers (h : ∀ w, Answers rules g.dfa w) {D R : ConfigurationSet}
    (hmap : MapsSet (Nfa.ofRules rules) fuel g D R) :
    SameMatches rules (StatesOf D) (StatesOf R) := by
  obtain ⟨S, i, byte, t, low, ops, hS, ht, hD, hR⟩ := hmap
  obtain ⟨wS, hrunS, hexactS⟩ := hwords S i hS
  obtain ⟨wR, hrunR, hexactR⟩ := hwords R _ hR
  obtain ⟨b, rfl⟩ : ∃ b : UInt8, b.toNat = byte :=
    ⟨UInt8.ofNat byte, by
      rw [UInt8.toNat_ofNat']
      exact Nat.mod_eq_of_lt hD.lt⟩
  intro v id
  -- both words lead the DFA to the same state
  have hrun : g.dfa.run 0 (wS ++ b :: v) = g.dfa.run 0 (wR ++ v) := by
    rw [run_append, run_append, hrunS, hrunR]
    show (g.dfa.transition? i b.toNat).bind _ = _
    rw [ht]
    rfl
  have hleft := matchesFrom_step (fun i => (matchesFrom_computed hD
    (closed_of_words hwords hS) v i).trans (matchesFrom_exact hexactS (b :: v) i)) id
  have hright := matchesFrom_step (matchesFrom_exact hexactR v) id
  have hanswerS := h (wS ++ b :: v)
  have hanswerR := h (wR ++ v)
  unfold Answers at hanswerS hanswerR
  rw [show g.dfa.getRoot = 0 from rfl] at hanswerS hanswerR
  rw [hrun] at hanswerS
  rw [hleft.1, hleft.2, hright.1, hright.2]
  cases hend : g.dfa.run 0 (wR ++ v) with
  | none =>
    rw [hend] at hanswerS hanswerR
    exact matchesFrom_step
      (fun i => ⟨fun hm => absurd hm (hanswerS i), fun hm => absurd hm (hanswerR i)⟩) id
  | some p =>
    rw [hend] at hanswerS hanswerR
    obtain ⟨s, hs, hidsS⟩ := hanswerS
    obtain ⟨s', hs', hidsR⟩ := hanswerR
    obtain rfl : s = s' := Option.some.inj (hs.symm.trans hs')
    exact ⟨(hidsS.mem id).symm.trans (hidsR.mem id),
      (hidsS.head id).symm.trans (hidsR.head id)⟩

end Generated

/-- With sound mappings, the DFA is right about every word. -/
theorem answers_of_sameMatches {g : Determinization}
    (h : determinize (Nfa.ofRules rules) regMapOrder fuel = some g)
    (hsound : ∀ D R, MapsSet (Nfa.ofRules rules) fuel g D R →
      SameMatches rules (StatesOf D) (StatesOf R)) (w : List UInt8) : Answers rules g.dfa w := by
  obtain ⟨S₀, hS₀, hinv, hspanned, hcomplete⟩ := determinize_spec h
  have hwords := words_of_spanned hS₀ hspanned
  unfold Answers
  rw [show g.dfa.getRoot = 0 from rfl]
  cases hrun : g.dfa.run 0 w with
  | none =>
    intro i
    rw [← List.append_nil w]
    exact no_match_of_run_none hS₀ hinv hwords hcomplete hsound hrun [] i
  | some p =>
    obtain ⟨S, hS, hagree⟩ := agreesAfter_of_run hS₀ hinv hwords hsound hrun
    obtain ⟨s, hs, hids, -⟩ := hinv.stateOfSet S p hS
    refine ⟨s, hs, ?_⟩
    rw [hids]
    exact answersFor_newState hagree (closed_of_words hwords hS) _

end Rules

/-- The rules `(a|bb)(?<c>x*)?[yz]+` and `ayzw`.  After `bby` the configurations
are mapped to those after `ayz`, which can also be in the middle of the second
rule. -/
def redirectRules : List LexicalRule :=
  [⟨1, .mkCat (.mkCat (.mkOr (.mkLiteral 97) (.mkCat (.mkLiteral 98) (.mkLiteral 98)))
      (.mkOr .mkEmpty (.mkCapture
        (.mkOr .mkEmpty (.mkMultiplication (.mkLiteral 120) 1 0)) ⟨0, "c"⟩)))
      (.mkMultiplication (.mkGroup { negate := false, ranges := [(121, 122)] }) 1 0)⟩,
    ⟨2, .mkCat (.mkCat (.mkLiteral 97) (.mkLiteral 121))
      (.mkCat (.mkLiteral 122) (.mkLiteral 119))⟩]

/-- The second rule is `ayzw` for the NFA. -/
theorem redirectRules_not_matchesVariable :
    ¬ MatchesVariable redirectRules (AtRoot redirectRules) [98, 98, 121, 119] 2 := by
  have hwf : ∀ rule ∈ redirectRules, rule.regex.WellFormed := by
    unfold redirectRules
    decide
  have hsecond : ∀ i : Fin redirectRules.length, redirectRules[i].variableId = 2 →
      i = ⟨1, by decide⟩ := by
    decide
  rintro ⟨i, ⟨p, rfl, hreach⟩, hid⟩
  obtain rfl := hsecond i hid
  have hwords := (Nfa.reaches_acceptingState hwf (by decide) _).1 hreach
  rw [RegexAST.wiredWords_eq_denote (hwf _ (by decide)) (by decide)] at hwords
  obtain ⟨u, ⟨u₁, ⟨b, rfl, hb⟩, u₂, -, rfl⟩, v, -, huv⟩ := hwords
  have hfirst : b = 98 := by
    have := congrArg List.head? huv
    simpa using this
  rw [hfirst] at hb
  exact absurd hb (by decide)

end Dfa

end LogSurgeon
