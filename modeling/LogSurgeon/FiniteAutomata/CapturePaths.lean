import LogSurgeon.FiniteAutomata.CapturePhases

/-!
# Every path settles the captures

On every path to the accepting state of a rule, every capture of the rule ends
matched or ends unmatched.  `settled_of_path` says so of every tree that is
built bottom-up with repetitions that must occur.

* A tree with the capture starts before it and ends settled (`Fits`), also
  around the loop of an unbounded repetition.
* The other rules may have any trees: a state that allows everything may stand
  behind each of them.
-/

namespace LogSurgeon

open Lib

/-! ## Trees that are built bottom-up -/

namespace RegexAST

/-- The trees that the constructors build bottom-up, with repetitions that must
occur.  A capture is a new object, so that the tree below it does not have it. -/
inductive BottomUp : RegexAST → Prop where
  | mkEmpty : BottomUp mkEmpty
  | mkLiteral (c : Nat) : BottomUp (mkLiteral c)
  | mkGroup (g : RegexASTGroup) : BottomUp (mkGroup g)
  | mkOr {l r : RegexAST} (hl : BottomUp l) (hr : BottomUp r) : BottomUp (mkOr l r)
  | mkCat {l r : RegexAST} (hl : BottomUp l) (hr : BottomUp r) : BottomUp (mkCat l r)
  | mkMultiplication {r : RegexAST} {min : Nat} (max : Nat) (hmin : 1 ≤ min)
      (hr : BottomUp r) : BottomUp (mkMultiplication r min max)
  | mkCapture {r : RegexAST} {capture : Capture} (hr : BottomUp r)
      (hnew : capture ∉ r.subtreePositiveCaptures) : BottomUp (mkCapture r capture)

end RegexAST

/-! ## Any tree -/

namespace RegexAST

open Nfa

variable {capture : Capture} {pair : Nat × Nat}

theorem fills_any_guarded {add : Nfa → Nat → Nfa} (neg : List Capture)
    (h : Fills capture pair (fun _ y => y = Phase.any) add) :
    Fills capture pair (fun _ y => y = Phase.any) (addWithNegativeCaptures neg add) := by
  apply h.negated neg
  · intro _ nfa _ x y hy
    rw [hy]
    exact ⟨.any, rfl, carries_any⟩
  · exact fun _ _ _ hy => hy

/-- A tree in front of a state that allows everything. -/
theorem fills_any (r : RegexAST) :
    Fills capture pair (fun _ y => y = Phase.any) r.addToNfa := by
  have hplain : ∀ x y : Phase, y = .any → Carries pair [] x y := by
    intro x y hy
    rw [hy]
    exact carries_any
  induction r with
  | empty neg => exact fills_addRootSpontaneousTransition.mono hplain
  | literal neg c => exact (fills_ranges [(c, c)]).mono hplain
  | group neg g => exact (fills_ranges g.transitionRanges).mono hplain
  | or neg l r ihl ihr =>
    have hboth := ((fills_any_guarded l.negativeCaptures ihl).par
      (fills_any_guarded r.negativeCaptures ihr)).mono fun x y hy => ⟨hy, hy⟩
    refine hboth.congr ?_
    funext nfa e
    rw [setRoot_eq_self (keepsRoot_addWithNegativeCaptures (keepsRoot_addToNfa l) nfa e)]
    rfl
  | cat neg l r ihl ihr =>
    have hboth := ((fills_any_guarded l.negativeCaptures ihl).seq
      (fills_any_guarded r.negativeCaptures ihr)).mono fun x y hy => ⟨Phase.any, rfl, hy⟩
    exact hboth.setRoot fun nfa _ => nfa.root
  | multiplication neg r min max ih =>
    have hsplit : ∀ x y : Phase, y = .any → ∃ z : Phase, z = .any ∧ y = .any :=
      fun _ _ hy => ⟨.any, rfl, hy⟩
    exact Fills.multiplication hsplit (fills_any_guarded r.negativeCaptures ih)
      (keepsRoot_addWithNegativeCaptures (keepsRoot_addToNfa r)) (fun _ _ hy => hy) min max
      fun _ => hplain
  | capture neg r c ih =>
    refine (((fills_any_guarded r.negativeCaptures ih).captured c ?_)).setRoot
      fun nfa e => (nfa.newStartAndEndStatesFromPositiveCapture c e).1.root
    intro nfa _ x y hy
    rw [hy]
    exact ⟨.any, .any, carries_any, rfl, carries_any⟩

/-! ## The phases of a tree -/

/-- The phases at the two ends of a part, by whether it has the capture. -/
def Fits (has : Prop) (x y : Phase) : Prop := (has → x.Opens ∧ y.Opens) ∧ (¬ has → x.Below y)

theorem Fits.of_has {has : Prop} {x y : Phase} (h : has) (hx : x.Opens) (hy : y.Opens) :
    Fits has x y := ⟨fun _ => ⟨hx, hy⟩, fun hno => absurd h hno⟩

theorem Fits.of_not {has : Prop} {x y : Phase} (h : ¬ has) (hxy : x.Below y) : Fits has x y :=
  ⟨fun hyes => absurd hyes h, fun _ => hxy⟩

/-- Between two copies, the captures of the part are settled. -/
theorem Fits.split {has : Prop} {x y : Phase} (h : Fits has x y) :
    ∃ z, Fits has x z ∧ Fits has z y := by
  by_cases hhas : has
  · obtain ⟨hx, hy⟩ := h.1 hhas
    exact ⟨.settled, .of_has hhas hx (Or.inr rfl), .of_has hhas (Or.inr rfl) hy⟩
  · exact ⟨x, .of_not hhas (.refl x), .of_not hhas (h.2 hhas)⟩

theorem Fits.seq {has has' : Prop} {x y : Phase} (h : Fits (has ∨ has') x y) :
    ∃ z, Fits has x z ∧ Fits has' z y := by
  by_cases hhas : has
  · obtain ⟨hx, hy⟩ := h.1 (Or.inl hhas)
    exact ⟨.settled, .of_has hhas hx (Or.inr rfl),
      fun _ => ⟨Or.inr rfl, hy⟩, fun _ => hy.settled_below⟩
  · refine ⟨x, .of_not hhas (.refl x), fun hhas' => h.1 (Or.inr hhas'), fun hhas' => h.2 ?_⟩
    exact fun hor => hor.elim hhas hhas'

theorem Fits.loop {has : Prop} {x y : Phase} (h : Fits has x y) : Fits has y y :=
  ⟨fun hhas => ⟨(h.1 hhas).2, (h.1 hhas).2⟩, fun _ => .refl y⟩

/-- The negative captures are settled as well. -/
theorem fills_guarded {has : Prop} {add : Nfa → Nat → Nfa} (neg : List Capture)
    (h : Fills capture pair (Fits has) add) :
    Fills capture pair (Fits (has ∨ capture ∈ neg)) (addWithNegativeCaptures neg add) := by
  apply h.negated neg
  · intro _ nfa hassigns x y hfits
    by_cases hhas : has
    · obtain ⟨hx, hy⟩ := hfits.1 (Or.inl hhas)
      exact ⟨.settled, .of_has hhas hx (Or.inr rfl),
        carries_negate neg hassigns (fun _ => hy.settled_below) fun _ => hy⟩
    · refine ⟨x, .of_not hhas (.refl x), carries_negate neg hassigns (fun hneg => ?_)
        fun hneg => (hfits.1 (Or.inr hneg)).2⟩
      exact hfits.2 fun hor => hor.elim hhas hneg
  · intro hnil x y hfits
    simpa [hnil] using hfits

/-- A capture is entered in front of the tree below it and left behind it. -/
theorem Fits.captured {has : Prop} {nfa : Nfa} {capture' : Capture}
    (hnew : capture' = capture → ¬ has)
    (hassigns : (nfa.getOrCreateCaptureTagPair capture').1.Assigns capture pair) {x y : Phase}
    (h : Fits (has ∨ capture = capture') x y) :
    ∃ z z', Carries pair [⟨(nfa.getOrCreateCaptureTagPair capture').2.1, .set⟩] x z ∧
      Fits has z z' ∧
        Carries pair [⟨(nfa.getOrCreateCaptureTagPair capture').2.2, .set⟩] z' y := by
  by_cases hsame : capture' = capture
  · subst hsame
    have hpair := hassigns.own _ (lookup_getOrCreateCaptureTagPair nfa capture')
    rw [hpair]
    refine ⟨.inside, .inside, fun w _ => Phase.allows_inside w,
      .of_not (hnew rfl) (.refl _), ?_⟩
    exact carries_of_settled (fun w hw => hw.settled_of_inside hassigns.ne) (h.1 (Or.inr rfl)).2
  · have hdrop : has ∨ capture = capture' ↔ has :=
      or_iff_left fun heq => hsame heq.symm
    rw [Fits, hdrop] at h
    exact ⟨x, y, carries_of_untouched (.refl x) (untouched_of_ne hsame hassigns (Or.inl rfl) _),
      h, carries_of_untouched (.refl y) (untouched_of_ne hsame hassigns (Or.inr rfl) _)⟩

@[simp] theorem addToNfa_setNegativeCaptures (r : RegexAST) (neg : List Capture) :
    (r.setNegativeCaptures neg).addToNfa = r.addToNfa := by
  cases r <;> rfl

@[simp] theorem negativeCaptures_setNegativeCaptures (r : RegexAST) (neg : List Capture) :
    (r.setNegativeCaptures neg).negativeCaptures = neg := by
  cases r <;> rfl

@[simp] theorem subtreePositiveCaptures_setNegativeCaptures (r : RegexAST) (neg : List Capture) :
    (r.setNegativeCaptures neg).subtreePositiveCaptures = r.subtreePositiveCaptures := by
  cases r <;> rfl

theorem BottomUp.negativeCaptures_eq {r : RegexAST} (h : r.BottomUp) : r.negativeCaptures = [] := by
  cases h <;> rfl

theorem BottomUp.fills_guarded {r : RegexAST} (hr : r.BottomUp)
    (h : Fills capture pair (Fits (capture ∈ r.subtreePositiveCaptures)) r.addToNfa) :
    Fills capture pair (Fits (capture ∈ r.subtreePositiveCaptures))
      r.addToNfaWithNegativeCaptures := by
  have hneg := RegexAST.fills_guarded r.negativeCaptures h
  unfold addToNfaWithNegativeCaptures
  rw [hr.negativeCaptures_eq] at hneg ⊢
  simpa using hneg

/-- Behind a tree that is built bottom-up, its captures are settled. -/
theorem BottomUp.fills {r : RegexAST} (h : r.BottomUp) :
    Fills capture pair (Fits (capture ∈ r.subtreePositiveCaptures)) r.addToNfa := by
  have hplain : ∀ (captures : List Capture) (x y : Phase), captures = [] →
      Fits (capture ∈ captures) x y → Carries pair [] x y := by
    intro captures x y hnil hfits
    rw [hnil] at hfits
    exact carries_nil (hfits.2 List.not_mem_nil)
  induction h with
  | mkEmpty => exact fills_addRootSpontaneousTransition.mono fun x y => hplain [] x y rfl
  | mkLiteral c => exact (fills_ranges [(c, c)]).mono fun x y => hplain [] x y rfl
  | mkGroup g => exact (fills_ranges g.transitionRanges).mono fun x y => hplain [] x y rfl
  | @mkOr l r _ _ ihl ihr =>
    have hmem : capture ∈ (RegexAST.mkOr l r).subtreePositiveCaptures ↔
        capture ∈ l.subtreePositiveCaptures ∨ capture ∈ r.subtreePositiveCaptures := by
      simp [RegexAST.mkOr, subtreePositiveCaptures]
    have hleft := RegexAST.fills_guarded r.subtreePositiveCaptures ihl
    have hright := RegexAST.fills_guarded l.subtreePositiveCaptures ihr
    rw [or_comm] at hright
    rw [hmem]
    refine ((hleft.par hright).mono fun x y hfits => ⟨hfits, hfits⟩).congr ?_
    funext nfa e
    rw [setRoot_eq_self (keepsRoot_addWithNegativeCaptures (keepsRoot_addToNfa l) nfa e)]
    simp [RegexAST.mkOr, addToNfa]
  | @mkCat l r hl hr ihl ihr =>
    have hmem : capture ∈ (RegexAST.mkCat l r).subtreePositiveCaptures ↔
        capture ∈ l.subtreePositiveCaptures ∨ capture ∈ r.subtreePositiveCaptures :=
      List.mem_append
    rw [hmem]
    exact (((hl.fills_guarded ihl).seq (hr.fills_guarded ihr)).mono fun x y => Fits.seq).setRoot
      fun nfa _ => nfa.root
  | @mkMultiplication r min max hmin hr ih =>
    exact Fills.multiplication (fun x y => Fits.split) (hr.fills_guarded ih)
      (keepsRoot_addWithNegativeCaptures (keepsRoot_addToNfa r)) (fun x y => Fits.loop) min max
      fun hzero => absurd hmin (by omega)
  | @mkCapture r capture' hr hnew ih =>
    have hmem : capture ∈ (RegexAST.mkCapture r capture').subtreePositiveCaptures ↔
        capture ∈ r.subtreePositiveCaptures ∨ capture = capture' := by
      simp [RegexAST.mkCapture, subtreePositiveCaptures]
    rw [hmem]
    refine ((hr.fills_guarded ih).captured capture' ?_).setRoot
      fun nfa e => (nfa.newStartAndEndStatesFromPositiveCapture capture' e).1.root
    intro nfa hassigns x y hfits
    exact hfits.captured (fun heq => by rwa [heq] at hnew) hassigns

end RegexAST

/-! ## Rules -/

namespace Nfa

variable {capture : Capture} {pair : Nat × Nat}

/-- The phases extend to the states of a rule, and its accepting state gets one
that fits. -/
theorem Typed.addToNfa {nfa : Nfa} {phase : Nat → Phase} (h : Typed pair phase nfa)
    {rule : LexicalRule} {F : Phase → Phase → Prop} (hroot : nfa.root < nfa.states.length)
    (hfills : Fills capture pair F rule.regex.addToNfaWithNegativeCaptures)
    (hassigns : (rule.addToNfa nfa).Assigns capture pair) {z : Phase}
    (hF : F (phase nfa.root) z) :
    ∃ phase', (∀ q < nfa.states.length, phase' q = phase q) ∧ phase' nfa.states.length = z ∧
      Typed pair phase' (rule.addToNfa nfa) := by
  have hlength := length_newAcceptingState nfa rule.variableId
  have hold : ∀ q < nfa.states.length,
      Function.update phase nfa.states.length z q = phase q :=
    fun q hq => Function.update_of_ne (Nat.ne_of_lt hq) z phase
  have hnew : Function.update phase nfa.states.length z nfa.states.length = z :=
    Function.update_self _ _ _
  have htyped : Typed pair (Function.update phase nfa.states.length z)
      (nfa.newAcceptingState rule.variableId).1 :=
    (h.update z).of_opEdges_eq (opEdges_newAcceptingState nfa rule.variableId) (by omega)
  have hfilled := hfills (nfa.newAcceptingState rule.variableId).1 nfa.states.length
    (by rw [root_newAcceptingState]; omega) (by omega)
  obtain ⟨phase', hagree, htyped'⟩ := hfilled.typed hassigns _ htyped (by
    rw [root_newAcceptingState, hold _ hroot, hnew]
    exact hF)
  refine ⟨phase', fun q hq => ?_, ?_, htyped'⟩
  · rw [hagree q (by omega), hold q hq]
  · rw [hagree _ (by omega), hnew]

theorem typed_initial (phase : Nat → Phase) : Typed pair phase initial := by
  have hnone : ∀ p q ops, ops ∉ initial.opEdges p q := by
    intro p q ops hops
    have hstate : ∀ s, initial.state? p = some s → s = { id := 0 } := by
      intro s hs
      cases p with
      | zero => exact (Option.some.inj hs).symm
      | succ p => cases hs
    rcases hops with ⟨s, hs, t, ht, -⟩ | ⟨-, s, hs, b, hb⟩
    · rw [hstate s hs] at ht
      cases ht
    · rw [hstate s hs] at hb
      cases hb
  exact ⟨fun p q ops hops => absurd hops (hnone p q ops),
    fun p q ops hops => absurd hops (hnone p q ops)⟩

/-- A rule behind the others keeps their phases. -/
theorem exists_typed_append {rules : List LexicalRule} (rule : LexicalRule)
    (hassigns : (ofRules (rules ++ [rule])).Assigns capture pair) {phase : Nat → Phase}
    (h : Typed pair phase (ofRules rules)) :
    ∃ phase', (∀ q < (ofRules rules).states.length, phase' q = phase q) ∧
      Typed pair phase' (ofRules (rules ++ [rule])) := by
  rw [ofRules_append_singleton] at hassigns ⊢
  obtain ⟨phase', hagree, -, htyped⟩ := h.addToNfa (root_lt_length_ofRules rules)
    (RegexAST.fills_any_guarded rule.regex.negativeCaptures (RegexAST.fills_any rule.regex))
    hassigns rfl
  exact ⟨phase', hagree, htyped⟩

theorem Assigns.of_append {rules : List LexicalRule} {rule : LexicalRule}
    (h : (ofRules (rules ++ [rule])).Assigns capture pair) :
    (ofRules rules).Assigns capture pair := by
  rw [ofRules_append_singleton] at h
  exact h.of_extends (extends_addToNfa rule _)

/-- Phases for any rules. -/
theorem exists_typed {rules : List LexicalRule}
    (hassigns : (ofRules rules).Assigns capture pair) :
    ∃ phase, phase 0 = .before ∧ Typed pair phase (ofRules rules) := by
  induction rules using List.reverseRecOn with
  | nil => exact ⟨fun _ => .before, rfl, typed_initial _⟩
  | append_singleton rules rule ih =>
    obtain ⟨phase, hroot, htyped⟩ := ih hassigns.of_append
    obtain ⟨phase', hagree, htyped'⟩ := exists_typed_append rule hassigns htyped
    have hlt := root_lt_length_ofRules rules
    rw [root_ofRules] at hlt
    exact ⟨phase', (hagree 0 hlt).trans hroot, htyped'⟩

/-- The accepting state of a rule with the capture settles it. -/
theorem exists_typed_settled {rules : List LexicalRule}
    (hassigns : (ofRules rules).Assigns capture pair) {i : Nat} (hi : i < rules.length)
    (hr : rules[i].regex.BottomUp) (hcapture : capture ∈ rules[i].getCaptures) :
    ∃ phase, phase 0 = .before ∧ phase (acceptingStateOf rules i) = .settled ∧
      Typed pair phase (ofRules rules) := by
  induction rules using List.reverseRecOn with
  | nil => exact absurd hi (Nat.not_lt_zero i)
  | append_singleton rules rule ih =>
    have hlt := root_lt_length_ofRules rules
    have hzero := root_ofRules rules
    rw [hzero] at hlt
    rcases Nat.lt_or_ge i rules.length with hold | hge
    · rw [List.getElem_append_left hold] at hr hcapture
      obtain ⟨phase, hroot, hsettled, htyped⟩ := ih hassigns.of_append hold hr hcapture
      obtain ⟨phase', hagree, htyped'⟩ := exists_typed_append rule hassigns htyped
      have hstate : acceptingStateOf rules i < (ofRules rules).states.length := by
        rw [← acceptingStateOf_length]
        exact acceptingStateOf_lt_of_lt _ hold (Nat.le_refl _)
      refine ⟨phase', (hagree 0 hlt).trans hroot, ?_, htyped'⟩
      rw [acceptingStateOf_append_left rules rule hold.le, hagree _ hstate, hsettled]
    · obtain rfl : i = rules.length := by
        rw [List.length_append, List.length_singleton] at hi
        omega
      rw [List.getElem_concat_length rfl] at hr hcapture
      obtain ⟨phase, hroot, htyped⟩ := exists_typed hassigns.of_append
      have hfills : Fills capture pair
          (RegexAST.Fits (capture ∈ rule.regex.subtreePositiveCaptures))
          rule.regex.addToNfaWithNegativeCaptures := hr.fills_guarded hr.fills
      rw [ofRules_append_singleton] at hassigns ⊢
      obtain ⟨phase', hagree, hsettled, htyped'⟩ := htyped.addToNfa
        (root_lt_length_ofRules rules) hfills hassigns
        (.of_has hcapture (Or.inl (by rw [hzero, hroot])) (Or.inr rfl))
      refine ⟨phase', (hagree 0 hlt).trans hroot, ?_, htyped'⟩
      rw [acceptingStateOf_append_left rules rule (Nat.le_refl _), acceptingStateOf_length,
        hsettled]

/-- On every path to the accepting state of a rule that is built bottom-up, the
captures of the rule are settled. -/
theorem settled_of_path {rules : List LexicalRule} {i : Nat} (hi : i < rules.length)
    (hr : rules[i].regex.BottomUp) {capture : Capture} (hcapture : capture ∈ rules[i].getCaptures)
    {ops : List TagOperation}
    (hpath : (ofRules rules).Path (ofRules rules).root ops (acceptingStateOf rules i)) :
    ∃ pair, (ofRules rules).captureToTagIdPair.lookup capture = some pair ∧
      Settled pair ops := by
  obtain ⟨pair, hpair⟩ := hasTags_ofRules (List.getElem_mem hi) hcapture
  obtain ⟨phase, hroot, hsettled, htyped⟩ :=
    exists_typed_settled ((distinctTags_ofRules rules).assigns hpair) hi hr hcapture
  rw [root_ofRules] at hpath
  have hstart : (phase 0).Allows pair [] := by
    rw [hroot]
    exact Or.inl fun _ hop => by cases hop
  have hallows := htyped.path hpath hstart
  rw [hsettled] at hallows
  exact ⟨pair, hpair, hallows⟩

/-- The rule `(?<c>a)+|b`. -/
def orRules : List LexicalRule :=
  [⟨1, .mkOr (.mkMultiplication (.mkCapture (.mkLiteral 97) ⟨0, "c"⟩) 1 0) (.mkLiteral 98)⟩]

/-- The loop of the repetition may follow the other alternative. -/
theorem settled_of_path_or :
    ∃ pair, (ofRules orRules).captureToTagIdPair.lookup ⟨0, "c"⟩ = some pair ∧
      Settled pair [⟨0, .negate⟩, ⟨1, .negate⟩, ⟨0, .set⟩, ⟨1, .set⟩] := by
  have hi : 0 < orRules.length := by decide
  have hbottomUp : orRules[0].regex.BottomUp :=
    .mkOr (.mkMultiplication 0 (Nat.le_refl 1) (.mkCapture (.mkLiteral 97) List.not_mem_nil))
      (.mkLiteral 98)
  have hcapture : (⟨0, "c"⟩ : Capture) ∈ orRules[0].getCaptures := List.mem_cons_self
  have hleave : (ofRules orRules).Path 5 [⟨1, .set⟩] 1 :=
    .spontaneous (t := ⟨[⟨1, .set⟩], 1⟩) rfl List.mem_cons_self (.refl 1)
  have hloop : (ofRules orRules).Path 1 [⟨0, .set⟩, ⟨1, .set⟩] 1 :=
    .spontaneous (t := ⟨[⟨0, .set⟩], 4⟩) rfl List.mem_cons_self
      (.byte (b := 97) rfl List.mem_cons_self hleave)
  have hpath : (ofRules orRules).Path (ofRules orRules).root
      [⟨0, .negate⟩, ⟨1, .negate⟩, ⟨0, .set⟩, ⟨1, .set⟩] (acceptingStateOf orRules 0) :=
    .byte (b := 98) rfl List.mem_cons_self
      (.spontaneous (t := ⟨[⟨0, .negate⟩, ⟨1, .negate⟩], 1⟩) rfl List.mem_cons_self hloop)
  exact settled_of_path hi hbottomUp hcapture hpath

end Nfa

end LogSurgeon
