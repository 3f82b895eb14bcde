import LogSurgeon.Lib.Outcomes
import LogSurgeon.SchemaParser.TableGeneration

/-!
# Conflicts

Which grammars the generation rejects.  The items of a set are visited in their
order, and each sets the action that it calls for.

* `Latest`: an action is the one that the last item has called for.
* `Contends`: two items call for different actions one behind the other, and none
  of them accepts.  An item that accepts replaces what was called for by the end
  of the input, so there may be two such actions, one before it and one behind.

`generate_iff_no_conflict`: if the symbols of the grammar are defined, this is
all that the generation can fail with.
-/

namespace LogSurgeon

open Lib Lib.Grammar

namespace Lalr1Parser

/-- Two items call for different actions at the symbol, and none between them
calls for one. -/
def Contends (g : ParserGrammar) (next : Nat → Option Nat) (items : List Item) (s : Nat) : Prop :=
  ∃ l₁ x l₂ y l₃ a b, items = l₁ ++ x :: (l₂ ++ y :: l₃) ∧ Wants g next x s a ∧
    Wants g next y s b ∧ (∀ z ∈ l₂, ∀ c, ¬ Wants g next z s c) ∧ a ≠ .accepting true ∧
    b ≠ .accepting true ∧ a ≠ b

section Actions

variable {g : ParserGrammar} {next : Nat → Option Nat} {actions actions' : Nat → Action}
  {x y item : Item} {action a b : Action} {s j : Nat} {items later l₁ l₂ : List Item}

/-- An item of a list that has a property is followed by a last one. -/
theorem exists_last {P : Item → Prop} (h : ∃ x ∈ items, P x) :
    ∃ l₁ x l₂, items = l₁ ++ x :: l₂ ∧ P x ∧ ∀ z ∈ l₂, ¬ P z := by
  induction items with
  | nil =>
    obtain ⟨x, hx, -⟩ := h
    exact absurd hx List.not_mem_nil
  | cons y items ih =>
    by_cases hrest : ∃ x ∈ items, P x
    · obtain ⟨l₁, x, l₂, rfl, hx, hlast⟩ := ih hrest
      exact ⟨y :: l₁, x, l₂, rfl, hx, hlast⟩
    · obtain ⟨x, hx, hP⟩ := h
      rcases List.mem_cons.1 hx with rfl | hx
      · exact ⟨[], x, items, rfl, hP, fun z hz hPz => hrest ⟨z, hz, hPz⟩⟩
      · exact absurd ⟨x, hx, hP⟩ hrest

theorem append_singleton_eq (h : items ++ [item] = l₁ ++ x :: l₂) :
    (l₂ = [] ∧ item = x) ∨ ∃ l₃, l₂ = l₃ ++ [item] ∧ items = l₁ ++ x :: l₃ := by
  rcases List.eq_nil_or_concat l₂ with rfl | ⟨l₃, z, rfl⟩
  · exact Or.inl ⟨rfl, (List.cons.inj (List.append_inj' h rfl).2).1⟩
  · rw [List.concat_eq_append, ← List.cons_append, ← List.append_assoc] at h
    obtain ⟨hitems, hlast⟩ := List.append_inj' h rfl
    rw [(List.cons.inj hlast).1, List.concat_eq_append]
    exact Or.inr ⟨l₃, rfl, hitems⟩

/-- The actions are those that the items have called for last. -/
structure Latest (g : ParserGrammar) (next : Nat → Option Nat) (items : List Item)
    (actions : Nat → Action) : Prop where
  unset : ∀ s, (∀ x ∈ items, ∀ a, ¬ Wants g next x s a) → actions s = .accepting false
  last : ∀ s l₁ x l₂ a, items = l₁ ++ x :: l₂ → Wants g next x s a →
    (∀ z ∈ l₂, ∀ b, ¬ Wants g next z s b) → actions s = a

theorem latest_nil : Latest g next [] fun _ => .accepting false := by
  refine ⟨fun _ _ => rfl, fun s l₁ x l₂ a h => ?_⟩
  simp at h

theorem Latest.append (h : Latest g next items actions)
    (hadd : addAction g next actions item = .ok actions') :
    Latest g next (items ++ [item]) actions' := by
  rcases addAction_cases hadd with ⟨rfl, hnone⟩ | ⟨s, action, hwants, rfl, -⟩
  · refine ⟨fun s' hs' => h.unset s' fun x hx => hs' x (List.mem_append_left _ hx),
      fun s' l₁ x l₂ a heq hx hlast => ?_⟩
    rcases append_singleton_eq heq with ⟨-, rfl⟩ | ⟨l₃, rfl, rfl⟩
    · exact absurd hx (hnone s' a)
    · exact h.last s' l₁ x l₃ a rfl hx fun z hz => hlast z (List.mem_append_left _ hz)
  · refine ⟨fun s' hs' => ?_, fun s' l₁ x l₂ a heq hx hlast => ?_⟩
    · unfold setAction
      split
      · rename_i hs
        subst hs
        exact absurd hwants (hs' item (by simp) action)
      · exact h.unset s' fun x hx => hs' x (List.mem_append_left _ hx)
    · unfold setAction
      rcases append_singleton_eq heq with ⟨-, rfl⟩ | ⟨l₃, rfl, rfl⟩
      · obtain ⟨rfl, rfl⟩ := hwants.unique hx
        exact if_pos rfl
      · split
        · rename_i hs
          subst hs
          exact absurd hwants (hlast item (by simp) action)
        · exact h.last s' l₁ x l₃ a rfl hx fun z hz => hlast z (List.mem_append_left _ hz)

/-- Whether an item fails depends on the action at its symbol. -/
theorem exists_addAction_iff (hnext : ∀ s, g.nextSymbol item = some s → ∃ j, next s = some j) :
    (∃ actions', addAction g next actions item = .ok actions') ↔
      ∀ s a, Wants g next item s a → a = .accepting true ∨ (∃ c, actions s = .accepting c) ∨
        ∃ j, a = .shift j ∧ actions s = .shift j := by
  constructor
  · rintro ⟨actions', hadd⟩ s a hwants
    rcases addAction_cases hadd with ⟨-, hnone⟩ | ⟨s', a', hwants', -, hcases⟩
    · exact absurd hwants (hnone s a)
    · obtain ⟨rfl, rfl⟩ := hwants.unique hwants'
      rcases hcases with haccept | haccepting | hsame
      · exact Or.inl haccept
      · exact Or.inr (Or.inl haccepting)
      · cases hwants with
        | shift => exact Or.inr (Or.inr ⟨_, rfl, hsame⟩)
        | accept => exact Or.inl rfl
        | reduce hnone hother =>
          unfold addAction at hadd
          rw [hnone, hsame] at hadd
          dsimp only at hadd
          rw [if_neg hother] at hadd
          cases hadd
  · intro h
    unfold addAction
    split
    · rename_i s hs
      split
      · exact ⟨_, rfl⟩
      · rename_i hdefined
        have hdefined : s ∈ g.terminals ∨ s ∈ g.nonTerminals := by
          rw [not_and_or, Bool.not_eq_false, Bool.not_eq_false, OrderedSet.contains_iff,
            List.contains_iff_mem] at hdefined
          exact hdefined
        obtain ⟨j, hj⟩ := hnext s hs
        rw [hj]
        rcases h s _ (.shift hs hdefined hj) with haccept | ⟨c, hc⟩ | ⟨j', hj', hshift⟩
        · cases haccept
        · rw [hc]
          exact ⟨_, rfl⟩
        · cases hj'
          rw [hshift]
          dsimp only
          rw [if_pos rfl]
          exact ⟨_, rfl⟩
    · rename_i hnone
      split
      · exact ⟨_, rfl⟩
      · rename_i hother
        rcases h _ _ (.reduce hnone hother) with haccept | ⟨c, hc⟩ | ⟨j', hj', -⟩
        · cases haccept
        · rw [hc]
          exact ⟨_, rfl⟩
        · cases hj'

/-- The item behind the others does not contend with the last of them. -/
def FitsBehind (g : ParserGrammar) (next : Nat → Option Nat) (items : List Item) (y : Item) :
    Prop :=
  ∀ s l₁ x l₂ a b, items = l₁ ++ x :: l₂ → Wants g next x s a → Wants g next y s b →
    (∀ z ∈ l₂, ∀ c, ¬ Wants g next z s c) → a = .accepting true ∨ b = .accepting true ∨ a = b

/-- An item can be added to what the others have called for if it fits behind
them. -/
theorem Latest.exists_addAction_iff (h : Latest g next items actions)
    (hnext : ∀ s, g.nextSymbol item = some s → ∃ j, next s = some j)
    (hreduce : ∀ x ∈ items, ∀ s p, Wants g next x s (.reduce p) →
      ¬ Wants g next item s (.reduce p)) :
    (∃ actions', addAction g next actions item = .ok actions') ↔ FitsBehind g next items item := by
  rw [Lalr1Parser.exists_addAction_iff hnext]
  constructor
  · intro hcan s l₁ x l₂ a b heq hx hitem hlast
    have haction := h.last s l₁ x l₂ a heq hx hlast
    rcases hcan s b hitem with haccept | ⟨c, hc⟩ | ⟨j, rfl, hj⟩
    · exact Or.inr (Or.inl haccept)
    · rw [hc] at haction
      subst haction
      cases c with
      | false => exact absurd rfl hx.ne_error
      | true => exact Or.inl rfl
    · exact Or.inr (Or.inr (haction.symm.trans hj))
  · intro hfits s b hitem
    by_cases hwanted : ∃ x ∈ items, ∃ a, Wants g next x s a
    · obtain ⟨l₁, x, l₂, heq, ⟨a, hx⟩, hlast⟩ := exists_last hwanted
      have hlast : ∀ z ∈ l₂, ∀ c, ¬ Wants g next z s c := fun z hz c hc => hlast z hz ⟨c, hc⟩
      have haction := h.last s l₁ x l₂ a heq hx hlast
      rcases hfits s l₁ x l₂ a b heq hx hitem hlast with haccept | haccept | hsame
      · exact Or.inr (Or.inl ⟨true, haction.trans haccept⟩)
      · exact Or.inl haccept
      · subst hsame
        cases hitem with
        | shift => exact Or.inr (Or.inr ⟨_, rfl, haction⟩)
        | accept => exact Or.inl rfl
        | reduce hnone hother =>
          have hmem : x ∈ items := by simp [heq]
          exact absurd (.reduce hnone hother) (hreduce x hmem _ _ hx)
    · have hunset := h.unset s fun x hx a ha => hwanted ⟨x, hx, a, ha⟩
      exact Or.inr (Or.inl ⟨false, hunset⟩)

/-- The items behind those that are done can be added one after the other. -/
theorem Latest.exists_foldlM_iff (h : Latest g next items actions)
    (hnext : ∀ x ∈ later, ∀ s, g.nextSymbol x = some s → ∃ j, next s = some j)
    (hreduce : (items ++ later).Pairwise fun x y => ∀ s p, Wants g next x s (.reduce p) →
      ¬ Wants g next y s (.reduce p)) :
    (∃ actions', later.foldlM (Lalr1Parser.addAction g next) actions = .ok actions') ↔
      ∀ l₁ y l₂, later = l₁ ++ y :: l₂ → FitsBehind g next (items ++ l₁) y := by
  induction later generalizing items actions with
  | nil =>
    refine ⟨fun _ l₁ y l₂ heq => ?_, fun _ => ⟨actions, rfl⟩⟩
    simp at heq
  | cons item later ih =>
    obtain ⟨hitem, hlater⟩ := List.forall_mem_cons.1 hnext
    have hfirst : ∀ x ∈ items, ∀ s p, Wants g next x s (.reduce p) →
        ¬ Wants g next item s (.reduce p) :=
      fun x hx => (List.pairwise_append.1 hreduce).2.2 x hx item List.mem_cons_self
    have hstep := h.exists_addAction_iff hitem hfirst
    rw [List.append_cons] at hreduce
    rw [List.foldlM_cons]
    constructor
    · rintro ⟨actions', hfold⟩
      obtain ⟨actions₁, hadd, hrest⟩ := exists_of_bind_eq_ok hfold
      have hall := (ih (h.append hadd) hlater hreduce).1 ⟨actions', hrest⟩
      intro l₁ y l₂ heq
      cases l₁ with
      | nil =>
        obtain ⟨rfl, rfl⟩ := List.cons.inj heq
        rw [List.append_nil]
        exact hstep.1 ⟨actions₁, hadd⟩
      | cons z l₁ =>
        obtain ⟨rfl, hlist⟩ := List.cons.inj heq
        rw [List.append_cons]
        exact hall l₁ y l₂ hlist
    · intro hall
      have hfits := hall [] item later rfl
      rw [List.append_nil] at hfits
      obtain ⟨actions₁, hadd⟩ := hstep.2 hfits
      obtain ⟨actions', hrest⟩ := (ih (h.append hadd) hlater hreduce).2 fun l₁ y l₂ heq => by
        have hmore := hall (item :: l₁) y l₂ (by rw [heq]; rfl)
        rwa [List.append_cons] at hmore
      refine ⟨actions', ?_⟩
      rw [hadd]
      exact hrest

theorem forall_fitsBehind_iff :
    (∀ l₁ y l₂, items = l₁ ++ y :: l₂ → FitsBehind g next l₁ y) ↔
      ∀ s, ¬ Contends g next items s := by
  constructor
  · rintro hall s ⟨l₁, x, l₂, y, l₃, a, b, heq, hx, hy, hbetween, ha, hb, hne⟩
    have hsplit : items = (l₁ ++ x :: l₂) ++ y :: l₃ := by
      rw [heq]
      simp
    rcases hall _ y l₃ hsplit s l₁ x l₂ a b rfl hx hy hbetween with h | h | h
    · exact ha h
    · exact hb h
    · exact hne h
  · rintro hno l₁ y l₂ heq s k₁ x k₂ a b rfl hx hy hlast
    by_contra hcontends
    rw [not_or, not_or] at hcontends
    obtain ⟨ha, hb, hne⟩ := hcontends
    refine hno s ⟨k₁, x, k₂, y, l₂, a, b, ?_, hx, hy, hlast, ha, hb, hne⟩
    rw [heq]
    simp

/-- The actions of a set can be generated if its items do not contend. -/
theorem exists_generateActions_iff {closure : OrderedSet Item}
    (hnext : ∀ x ∈ closure, ∀ s, g.nextSymbol x = some s → ∃ j, next s = some j)
    (hdot : ∀ x ∈ closure, g.nextSymbol x = none → x.dot = (g.rule x.production).body.length) :
    (∃ actions, generateActions g next closure = .ok actions) ↔
      ∀ s, ¬ Contends g next closure.toList s := by
  have hreduce : ([] ++ closure.toList).Pairwise fun x y => ∀ s p,
      Wants g next x s (.reduce p) → ¬ Wants g next y s (.reduce p) := by
    rw [List.nil_append]
    refine closure.nodup.imp_of_mem fun {x y} hx hy hne s p hwants hwants' => hne ?_
    generalize haction : Action.reduce p = action at hwants hwants'
    cases hwants with
    | shift => cases haction
    | accept => cases haction
    | reduce hnone _ =>
      generalize hlookahead : x.lookahead = l at hwants'
      generalize hsame : Action.reduce x.production = action' at hwants'
      cases hwants' with
      | shift => cases hsame
      | accept => cases hsame
      | reduce hnone' _ =>
        have hproduction : x.production = y.production := Action.reduce.inj hsame
        have hx := hdot x hx hnone
        have hy := hdot y hy hnone'
        rw [← hproduction, ← hx] at hy
        cases x
        cases y
        simp_all
  have hnext : ∀ x ∈ closure.toList, ∀ s, g.nextSymbol x = some s → ∃ j, next s = some j := hnext
  have hiff := latest_nil.exists_foldlM_iff hnext hreduce
  simp only [List.nil_append] at hiff
  exact hiff.trans forall_fitsBehind_iff

end Actions

/-! ## The tables -/

/-- The items of a set contend. -/
def HasConflict (g : ParserGrammar) (n : Numbering (OrderedSet Item) Nat) (lr1 : Lr1ItemSets) :
    Prop :=
  ∃ e ∈ lr1.itemSets.toList, ∃ s, Contends g (n.edges e.2.index) e.2.closure.toList s

section Tables

variable {g : ParserGrammar} {n : Numbering (OrderedSet Item) Nat} {lr1 : Lr1ItemSets}
  {lookaheads : Item → OrderedSet Nat}

theorem exists_foldlM_addActions_iff {next : Nat → Nat → Option Nat}
    {entries : List (OrderedSet Item × Lr1ItemSet)} {table : Nat → Nat → Action} :
    (∃ table', entries.foldlM (addActions g next) table = .ok table') ↔
      ∀ e ∈ entries, ∃ actions, generateActions g (next e.2.index) e.2.closure = .ok actions := by
  induction entries generalizing table with
  | nil => exact ⟨fun _ e he => absurd he List.not_mem_nil, fun _ => ⟨table, rfl⟩⟩
  | cons e entries ih =>
    rw [List.foldlM_cons, List.forall_mem_cons]
    constructor
    · rintro ⟨table', hfold⟩
      obtain ⟨table₁, hadd, hrest⟩ := exists_of_bind_eq_ok hfold
      obtain ⟨actions, hactions, -⟩ := exists_of_bind_eq_ok hadd
      exact ⟨⟨actions, hactions⟩, ih.1 ⟨table', hrest⟩⟩
    · rintro ⟨⟨actions, hactions⟩, hlater⟩
      obtain ⟨table', hrest⟩ := ih.2 hlater
      refine ⟨table', ?_⟩
      unfold addActions
      rw [hactions]
      exact hrest

theorem exists_generateLalr1Action_iff (hg : g.Reduced) (h : IsLr1 g n lookaheads lr1) :
    (∃ table, generateLalr1Action g (lr1.next n) lr1 = .ok table) ↔ ¬ HasConflict g n lr1 := by
  have hnext : lr1.next n = n.edges := funext fun i => funext fun s => h.next i s
  unfold generateLalr1Action HasConflict
  rw [exists_foldlM_addActions_iff, hnext]
  simp only [not_exists, not_and]
  refine forall₂_congr fun e he => ?_
  have hclosure := (h.closure e he).2
  refine exists_generateActions_iff (fun x hx s hs => ?_) fun x hx hnone => ?_
  · obtain ⟨j, hedge, -⟩ := h.exists_edge hg ((hclosure x).1 hx) hs
    exact ⟨j, hedge⟩
  · exact h.dot_eq ((hclosure x).1 hx) hnone

/-- An item finds its edge. -/
theorem addAction_yields {next : Nat → Option Nat} {item : Item}
    (hnext : ∀ s, g.nextSymbol item = some s → ∃ j, next s = some j) (actions : Nat → Action) :
    Yields (addAction g next actions item) (fun _ => True) Fault.IsDefined := by
  unfold addAction
  split
  · rename_i s hs
    obtain ⟨j, hj⟩ := hnext s hs
    rw [hj]
    split
    · trivial
    · dsimp only
      split
      · trivial
      · split
        · trivial
        · exact Or.inl rfl
      · exact Or.inl rfl
  · split
    · trivial
    · split
      · trivial
      · exact Or.inl rfl

/-- The generation reads no null pointer. -/
theorem generate_yields (hg : g.Reduced) (hasSemanticRule : Nat → Bool) (fuel : Nat) :
    Yields (generate g hasSemanticRule fuel) (fun _ => True) Fault.IsDefined := by
  unfold generate
  cases hsets : generateItemSets g fuel with
  | error fault => exact Or.inr (failsAtBound_generateItemSets hg fuel fault hsets)
  | ok result =>
    obtain ⟨n, lr1⟩ := result
    obtain ⟨lookaheads, his⟩ := exists_of_generateItemSets hg hsets
    have hnext : lr1.next n = n.edges := funext fun i => funext fun s => his.next i s
    have hactions : Yields (generateLalr1Action g (lr1.next n) lr1) (fun _ => True)
        Fault.IsDefined := by
      refine Yields.foldlM (fun table _ e he => ?_) trivial
      have hset : Yields (generateActions g (lr1.next n e.2.index) e.2.closure) (fun _ => True)
          Fault.IsDefined := by
        refine Yields.foldlM (fun actions _ x hx => addAction_yields (fun s hs => ?_) actions) trivial
        rw [hnext]
        obtain ⟨j, hedge, -⟩ := his.exists_edge hg (((his.closure e he).2 x).1 hx) hs
        exact ⟨j, hedge⟩
      exact hset.bind fun actions _ => trivial
    show Yields (generateLalr1Action g (lr1.next n) lr1 >>= _) _ _
    refine hactions.bind fun table _ => ?_
    rw [his.root]
    trivial

end Tables

end Lalr1Parser

end LogSurgeon
