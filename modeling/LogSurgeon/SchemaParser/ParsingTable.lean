import LogSurgeon.Lib.ShiftReduce
import LogSurgeon.SchemaParser.Lr1ItemSets
import LogSurgeon.SchemaParser.SchemaString

/-!
# The parsing table

`generateLalr1Action` fills the actions of every item set from its items, and
`generate` makes the tables of a grammar.

* A shift that meets a reduction, and a reduction that meets an action, is a
  conflict, which fails the generation.
* The action that accepts is no conflict for a reduction by the end of the
  input, and it replaces one without a conflict.
* The texts of the conflicts are left out, and so is the number of actions of a
  set, which is the number of all symbols.

`soundItems` and `completeItems` say that the tables of a grammar have the items
of a shift-reduce machine.
-/

namespace LogSurgeon

open Lib Lib.Grammar

namespace Lalr1Parser

/-! ## The actions of an item set -/

def setAction (s : Nat) (action : Action) (actions : Nat → Action) : Nat → Action :=
  fun s' => if s' = s then action else actions s'

/-- The action of an item.  `next` is `m_next` of its set. -/
def addAction (g : ParserGrammar) (next : Nat → Option Nat) (actions : Nat → Action)
    (item : Item) : Except Fault (Nat → Action) :=
  match g.nextSymbol item with
  | some s =>
    if g.terminals.contains s = false ∧ g.nonTerminals.contains s = false then .ok actions
    else
      match next s with
      | none => .error .nullPointer
      | some j =>
        match actions s with
        | .accepting _ => .ok (setAction s (.shift j) actions)
        | .shift j' => if j' = j then .ok actions else .error .thrown
        | .reduce _ => .error .thrown
  | none =>
    if item.production = g.rootProductionId then
      .ok (setAction SymbolId.tokenEnd.toNat (.accepting true) actions)
    else
      match actions item.lookahead with
      | .accepting _ => .ok (setAction item.lookahead (.reduce item.production) actions)
      | _ => .error .thrown

/-- The actions of a set, which start as no actions. -/
def generateActions (g : ParserGrammar) (next : Nat → Option Nat) (closure : OrderedSet Item) :
    Except Fault (Nat → Action) :=
  closure.toList.foldlM (addAction g next) fun _ => .accepting false

def addActions (g : ParserGrammar) (next : Nat → Nat → Option Nat) (table : Nat → Nat → Action)
    (e : OrderedSet Item × Lr1ItemSet) : Except Fault (Nat → Nat → Action) := do
  let actions ← generateActions g (next e.2.index) e.2.closure
  return fun i => if i = e.2.index then actions else table i

def generateLalr1Action (g : ParserGrammar) (next : Nat → Nat → Option Nat) (lr1 : Lr1ItemSets) :
    Except Fault (Nat → Nat → Action) :=
  lr1.itemSets.toList.foldlM (addActions g next) fun _ _ => .accepting false

/-- The item sets of a grammar, and the edges between them. -/
def generateItemSets (g : ParserGrammar) (fuel : Nat) :
    Except Fault (Numbering (OrderedSet Item) Nat × Lr1ItemSets) := do
  let n ← generateLr0Kernels g fuel
  let sets ← derefOr .outOfSteps (generateFirstSets g.terminals.toList g.productions fuel)
  return (n, ← generateLr1ItemSets g sets fuel n)

/-- The tables of a grammar.  Some of the productions have semantic rules. -/
def generate (g : ParserGrammar) (hasSemanticRule : Nat → Bool) (fuel : Nat) :
    Except Fault ParseTables := do
  let (n, lr1) ← generateItemSets g fuel
  let actions ← generateLalr1Action g (lr1.next n) lr1
  let rootItemSet ← derefOr .nullPointer lr1.root
  return { productions := g.rule, hasSemanticRule, rootItemSet, actions }

section Actions

variable {g : ParserGrammar} {next : Nat → Option Nat} {actions actions' : Nat → Action}
  {item item' : Item} {action action' : Action} {s s' i j : Nat} {items later : List Item}

/-- The action that an item calls for. -/
inductive Wants (g : ParserGrammar) (next : Nat → Option Nat) : Item → Nat → Action → Prop
  | shift {item : Item} {s j : Nat} : g.nextSymbol item = some s →
      (s ∈ g.terminals ∨ s ∈ g.nonTerminals) → next s = some j → Wants g next item s (.shift j)
  | accept {item : Item} : g.nextSymbol item = none → item.production = g.rootProductionId →
      Wants g next item SymbolId.tokenEnd.toNat (.accepting true)
  | reduce {item : Item} : g.nextSymbol item = none → item.production ≠ g.rootProductionId →
      Wants g next item item.lookahead (.reduce item.production)

theorem Wants.ne_error (h : Wants g next item s action) : action ≠ .accepting false := by
  cases h <;> exact fun h => by cases h

theorem Wants.of_accept (h : Wants g next item s (.accepting true)) :
    g.nextSymbol item = none ∧ item.production = g.rootProductionId ∧
      s = SymbolId.tokenEnd.toNat := by
  cases h with
  | accept hnone hroot => exact ⟨hnone, hroot, rfl⟩

/-- An item calls for one action. -/
theorem Wants.unique (h : Wants g next item s action) (h' : Wants g next item s' action') :
    s = s' ∧ action = action' := by
  cases h with
  | shift hnext _ hj =>
    cases h' with
    | shift hnext' _ hj' =>
      rw [hnext] at hnext'
      cases hnext'
      rw [hj] at hj'
      cases hj'
      exact ⟨rfl, rfl⟩
    | accept hnone => simp [hnext] at hnone
    | reduce hnone => simp [hnext] at hnone
  | accept hnone hroot =>
    cases h' with
    | shift hnext => simp [hnone] at hnext
    | accept => exact ⟨rfl, rfl⟩
    | reduce _ hother => exact absurd hroot hother
  | reduce hnone hother =>
    cases h' with
    | shift hnext => simp [hnone] at hnext
    | accept _ hroot => exact absurd hroot hother
    | reduce => exact ⟨rfl, rfl⟩

/-- What an item does to the actions: nothing, for a symbol without productions,
or it sets the action that it calls for. -/
theorem addAction_cases (h : addAction g next actions item = .ok actions') :
    (actions' = actions ∧ ∀ s action, ¬ Wants g next item s action) ∨
      ∃ s action, Wants g next item s action ∧ actions' = setAction s action actions ∧
        (action = .accepting true ∨ (∃ b, actions s = .accepting b) ∨ actions s = action) := by
  unfold addAction at h
  split at h
  · rename_i s hnext
    split at h
    · rename_i hundefined
      cases h
      refine Or.inl ⟨rfl, fun s' action hwants => ?_⟩
      cases hwants with
      | shift hnext' hdefined =>
        rw [hnext] at hnext'
        cases hnext'
        rcases hdefined with hs | hs
        · rw [OrderedSet.contains_iff.2 hs] at hundefined
          exact Bool.noConfusion hundefined.1
        · rw [List.contains_iff_mem.2 hs] at hundefined
          exact Bool.noConfusion hundefined.2
      | accept hnone => simp [hnext] at hnone
      | reduce hnone => simp [hnext] at hnone
    · rename_i hdefined
      have hdefined : s ∈ g.terminals ∨ s ∈ g.nonTerminals := by
        rw [← OrderedSet.contains_iff, ← List.contains_iff_mem]
        rw [not_and_or, Bool.not_eq_false, Bool.not_eq_false] at hdefined
        exact hdefined
      split at h
      · cases h
      · rename_i j hj
        have hwants : Wants g next item s (.shift j) := .shift hnext hdefined hj
        split at h
        · rename_i b hold
          cases h
          exact Or.inr ⟨s, .shift j, hwants, rfl, Or.inr (Or.inl ⟨b, hold⟩)⟩
        · rename_i j' hold
          split at h
          · rename_i hsame
            subst hsame
            cases h
            refine Or.inr ⟨s, .shift j', hwants, ?_, Or.inr (Or.inr hold)⟩
            funext s'
            unfold setAction
            split
            · rename_i hs'
              rw [hs', hold]
            · rfl
          · cases h
        · cases h
  · rename_i hnone
    split at h
    · rename_i hroot
      cases h
      exact Or.inr ⟨_, _, .accept hnone hroot, rfl, Or.inl rfl⟩
    · rename_i hother
      split at h
      · rename_i b hold
        cases h
        exact Or.inr ⟨_, _, .reduce hnone hother, rfl, Or.inr (Or.inl ⟨b, hold⟩)⟩
      · cases h

/-- No item calls for another action where one calls for accepting. -/
def Uncontested (P : Item → Prop) (g : ParserGrammar) (next : Nat → Option Nat) (s : Nat) : Prop :=
  ∀ item item' action, P item → P item' → Wants g next item s (.accepting true) →
    Wants g next item' s action → action = .accepting true

/-- The actions are those that the items call for. -/
structure Fills (P : Item → Prop) (g : ParserGrammar) (next : Nat → Option Nat)
    (items : List Item) (actions : Nat → Action) : Prop where
  sound : ∀ s, actions s ≠ .accepting false → ∃ item ∈ items, Wants g next item s (actions s)
  complete : ∀ item ∈ items, ∀ s action, Wants g next item s action →
    Uncontested P g next s → actions s = action

theorem Fills.addAction {P : Item → Prop} (h : Fills P g next items actions)
    (hitems : ∀ item ∈ items, P item) (hitem : P item)
    (hadd : Lalr1Parser.addAction g next actions item = .ok actions') :
    Fills P g next (items ++ [item]) actions' := by
  rcases addAction_cases hadd with ⟨rfl, hnone⟩ | ⟨s, action, hwants, rfl, hcases⟩
  · refine ⟨fun s hs => ?_, fun item' hmem s action hwants => ?_⟩
    · obtain ⟨item', hmem, hwants⟩ := h.sound s hs
      exact ⟨item', List.mem_append_left _ hmem, hwants⟩
    · rcases List.mem_append.1 hmem with hold | hlast
      · exact h.complete item' hold s action hwants
      · rw [List.mem_singleton.1 hlast] at hwants
        exact absurd hwants (hnone s action)
  · refine ⟨fun s' hs' => ?_, fun item' hmem s' action' hwants' huncontested => ?_⟩
    · unfold setAction at hs' ⊢
      split
      · rename_i hs
        rw [hs]
        exact ⟨item, by simp, hwants⟩
      · rename_i hs
        rw [if_neg hs] at hs'
        obtain ⟨item', hmem, hold⟩ := h.sound s' hs'
        exact ⟨item', List.mem_append_left _ hmem, hold⟩
    · unfold setAction
      rcases List.mem_append.1 hmem with hold | hlast
      · have hbefore := h.complete item' hold s' action' hwants' huncontested
        split
        · rename_i hs
          subst hs
          -- The old action was set by an item, so it is no empty one.
          rcases hcases with rfl | ⟨b, haccepting⟩ | hsame
          · exact (huncontested item item' action' hitem (hitems item' hold) hwants hwants').symm
          · rw [hbefore] at haccepting
            subst haccepting
            cases b with
            | false => exact absurd rfl hwants'.ne_error
            | true =>
              exact huncontested item' item action (hitems item' hold) hitem hwants' hwants
          · exact hsame.symm.trans hbefore
        · exact hbefore
      · rw [List.mem_singleton.1 hlast] at hwants'
        obtain ⟨rfl, rfl⟩ := hwants.unique hwants'
        exact if_pos rfl

theorem Fills.foldlM {P : Item → Prop} (h : Fills P g next items actions)
    (hitems : ∀ item ∈ items ++ later, P item)
    (hfold : later.foldlM (Lalr1Parser.addAction g next) actions = .ok actions') :
    Fills P g next (items ++ later) actions' := by
  induction later generalizing items actions with
  | nil =>
    cases hfold
    rwa [List.append_nil]
  | cons item later ih =>
    rw [List.foldlM_cons] at hfold
    obtain ⟨actions₁, hadd, hrest⟩ := exists_of_bind_eq_ok hfold
    rw [List.append_cons] at hitems ⊢
    exact ih (h.addAction (fun item' hmem => hitems item' (by simp [hmem]))
      (hitems item (by simp)) hadd) hitems hrest

theorem fills_of_generateActions {closure : OrderedSet Item}
    (h : generateActions g next closure = .ok actions) :
    Fills (· ∈ closure) g next closure.toList actions := by
  have hempty : Fills (· ∈ closure) g next [] fun _ => .accepting false :=
    ⟨fun s hs => absurd rfl hs, fun item hmem => absurd hmem List.not_mem_nil⟩
  exact hempty.foldlM (fun item hmem => hmem) h

end Actions

/-! ## The actions of the grammar -/

section Table

variable {g : ParserGrammar} {n : Numbering (OrderedSet Item) Nat}
  {lookaheads : Item → OrderedSet Nat} {lr1 : Lr1ItemSets} {table : Nat → Nat → Action}
  {fuel i j s : Nat} {item : Item} {action : Action}

/-- The actions are those that the items of the sets call for. -/
structure IsTable (g : ParserGrammar) (n : Numbering (OrderedSet Item) Nat)
    (lookaheads : Item → OrderedSet Nat) (table : Nat → Nat → Action) : Prop where
  sound : ∀ i s, table i s ≠ .accepting false →
    ∃ item, Lr1Item g n lookaheads i item ∧ Wants g (n.edges i) item s (table i s)
  complete : ∀ i item s action, Lr1Item g n lookaheads i item →
    Wants g (n.edges i) item s action →
    Uncontested (Lr1Item g n lookaheads i) g (n.edges i) s → table i s = action

/-- The table after some of the sets. -/
theorem foldlM_addActions {next : Nat → Nat → Option Nat} {done later : List (OrderedSet Item × Lr1ItemSet)}
    {table' : Nat → Nat → Action}
    (hdone : (∀ i, (∀ e ∈ done, e.2.index ≠ i) → table i = fun _ => .accepting false) ∧
      ∀ e ∈ done, generateActions g (next e.2.index) e.2.closure = .ok (table e.2.index))
    (hunique : ∀ e ∈ done ++ later, ∀ e' ∈ done ++ later, e.2.index = e'.2.index → e = e')
    (hfold : later.foldlM (addActions g next) table = .ok table') :
    (∀ i, (∀ e ∈ done ++ later, e.2.index ≠ i) → table' i = fun _ => .accepting false) ∧
      ∀ e ∈ done ++ later,
        generateActions g (next e.2.index) e.2.closure = .ok (table' e.2.index) := by
  induction later generalizing done table with
  | nil =>
    cases hfold
    rwa [List.append_nil]
  | cons e later ih =>
    rw [List.foldlM_cons] at hfold
    obtain ⟨table₁, hadd, hrest⟩ := exists_of_bind_eq_ok hfold
    obtain ⟨actions, hactions, hadd⟩ := exists_of_bind_eq_ok hadd
    cases hadd
    rw [List.append_cons] at hunique ⊢
    refine ih ⟨fun i hi => ?_, fun e' he' => ?_⟩ hunique hrest
    · rw [if_neg fun heq => hi e (by simp) heq.symm]
      exact hdone.1 i fun e' he' => hi e' (List.mem_append_left _ he')
    · by_cases hindex : e'.2.index = e.2.index
      · obtain rfl := hunique e' (List.mem_append_left _ he') e (by simp) hindex
        rw [if_pos rfl]
        exact hactions
      · rw [if_neg hindex]
        rcases List.mem_append.1 he' with hold | hlast
        · exact hdone.2 e' hold
        · rw [List.mem_singleton.1 hlast] at hindex
          exact absurd rfl hindex

theorem isTable_of_generateLalr1Action (h : IsLr1 g n lookaheads lr1)
    (htable : generateLalr1Action g (lr1.next n) lr1 = .ok table) :
    IsTable g n lookaheads table := by
  have hnext : lr1.next n = n.edges := funext fun i => funext fun s => h.next i s
  rw [hnext] at htable
  obtain ⟨hnone, hsome⟩ := foldlM_addActions
    ⟨fun _ _ => rfl, fun e he => absurd he List.not_mem_nil⟩ h.unique htable
  rw [List.nil_append] at hnone hsome
  have hfills : ∀ e ∈ lr1.itemSets.toList, Fills (Lr1Item g n lookaheads e.2.index) g
      (n.edges e.2.index) e.2.closure.toList (table e.2.index) := by
    intro e he
    have hfills := fills_of_generateActions (hsome e he)
    have hmem : (fun item => item ∈ e.2.closure) = Lr1Item g n lookaheads e.2.index :=
      funext fun item => propext ((h.closure e he).2 item)
    rwa [hmem] at hfills
  refine ⟨fun i s hne => ?_, fun i item s action hitem hwants huncontested => ?_⟩
  · by_cases hset : ∃ e ∈ lr1.itemSets.toList, e.2.index = i
    · obtain ⟨e, he, rfl⟩ := hset
      obtain ⟨item, hitem, hwants⟩ := (hfills e he).sound s hne
      exact ⟨item, ((h.closure e he).2 item).1 (OrderedSet.mem_def.2 hitem), hwants⟩
    · rw [hnone i fun e he heq => hset ⟨e, he, heq⟩] at hne
      exact absurd rfl hne
  · have hi : i < n.nodes.length := by
      obtain ⟨kernel, hkernel, -⟩ := hitem
      exact (List.getElem?_eq_some_iff.1 hkernel).1
    obtain ⟨e, he, rfl⟩ := h.exists_set i hi
    exact (hfills e he).complete item (((h.closure e he).2 item).2 hitem) s action hwants
      huncontested

theorem exists_of_generateItemSets (hg : g.Reduced) (h : generateItemSets g fuel = .ok (n, lr1)) :
    ∃ lookaheads, IsLr1 g n lookaheads lr1 := by
  obtain ⟨n', hn, h⟩ := exists_of_bind_eq_ok h
  obtain ⟨sets, hfirst, h⟩ := exists_of_bind_eq_ok h
  obtain ⟨lr1', hlr1, h⟩ := exists_of_bind_eq_ok h
  cases h
  have hexact := FirstSets.exact_of_generateFirstSets (eq_some_of_derefOr hfirst)
  exact isLr1_of_generateLr1ItemSets hg (isLr0_of_generateLr0Kernels hn) hexact hlr1

/-- What `generate` computes. -/
theorem exists_of_generate {hasSemanticRule : Nat → Bool} {tables : ParseTables} (hg : g.Reduced)
    (h : generate g hasSemanticRule fuel = .ok tables) :
    ∃ n lookaheads lr1, generateItemSets g fuel = .ok (n, lr1) ∧ IsLr1 g n lookaheads lr1 ∧
      IsTable g n lookaheads tables.actions ∧ tables.productions = g.rule ∧
      tables.rootItemSet = 0 := by
  obtain ⟨⟨n, lr1⟩, hsets, h⟩ := exists_of_bind_eq_ok h
  obtain ⟨table, htable, h⟩ := exists_of_bind_eq_ok h
  obtain ⟨root, hroot, h⟩ := exists_of_bind_eq_ok h
  cases h
  obtain ⟨lookaheads, his⟩ := exists_of_generateItemSets hg hsets
  have hroot := eq_some_of_derefOr hroot
  rw [his.root] at hroot
  cases hroot
  exact ⟨n, lookaheads, lr1, hsets, his, isTable_of_generateLalr1Action his htable, rfl, rfl⟩

end Table

end Lalr1Parser

/-! ## The machine of a grammar -/

/-- The value of a token is the token, and a nonterminal keeps its symbols.  The
root production is no rule, since its head is in no body. -/
def ParserGrammar.semantics (g : ParserGrammar) : Semantics Nat Nat Token MatchedSymbol where
  rule := g.rule
  IsRule := fun i => i < g.productions.length ∧ i ≠ g.rootProductionId
  types := fun token => token.typeIds.getD []
  leaf := .token
  node := .nonTerminal

def ParseTables.move (tables : ParseTables) (i s : Nat) : Move Nat Nat :=
  match tables.actions i s with
  | .accepting true => .accept
  | .accepting false => .error
  | .shift j => .shift j
  | .reduce p => .reduce p

def ParseTables.machine (g : ParserGrammar) (tables : ParseTables) :
    ShiftReduce Nat Nat Nat Token MatchedSymbol :=
  { g.semantics with
    root := tables.rootItemSet
    move := tables.move }

/-- No terminal is a head, and the end of the input is in no body. -/
structure ParserGrammar.TokensApart (g : ParserGrammar) : Prop where
  heads : ∀ p ∈ g.productions, p.head ∉ g.terminals
  tokenEnd : ∀ p ∈ g.productions, SymbolId.tokenEnd.toNat ∉ p.body

namespace Lalr1Parser

/-- An item that is complete by the end of the input, in the set in which the
parser accepts, is the one that accepts. -/
def AcceptsAlone (g : ParserGrammar) (lr1 : Lr1ItemSets) : Prop :=
  ∀ e ∈ lr1.itemSets.toList, ∀ item ∈ e.2.closure.toList, g.nextSymbol item = none →
    item.production = g.rootProductionId → ∀ item' ∈ e.2.closure.toList,
      g.nextSymbol item' = none → item'.lookahead = SymbolId.tokenEnd.toNat →
        item'.production = g.rootProductionId

instance (g : ParserGrammar) (lr1 : Lr1ItemSets) : Decidable (AcceptsAlone g lr1) :=
  inferInstanceAs (Decidable (∀ e ∈ lr1.itemSets.toList, ∀ item ∈ e.2.closure.toList,
    g.nextSymbol item = none → item.production = g.rootProductionId →
      ∀ item' ∈ e.2.closure.toList, g.nextSymbol item' = none →
        item'.lookahead = SymbolId.tokenEnd.toNat → item'.production = g.rootProductionId))

section Machine

variable {g : ParserGrammar} {n : Numbering (OrderedSet Item) Nat}
  {lookaheads : Item → OrderedSet Nat} {lr1 : Lr1ItemSets} {tables : ParseTables}
  {i j p d s l : Nat} {item : Item}

theorem move_eq_shift : tables.move i s = .shift j ↔ tables.actions i s = .shift j := by
  unfold ParseTables.move
  split <;> simp [*]

theorem move_eq_reduce : tables.move i s = .reduce p ↔ tables.actions i s = .reduce p := by
  unfold ParseTables.move
  split <;> simp [*]

theorem move_eq_accept : tables.move i s = .accept ↔ tables.actions i s = .accepting true := by
  unfold ParseTables.move
  split <;> simp [*]

/-- A symbol of a body is a terminal or a head. -/
theorem mem_of_mem_body (hg : g.Reduced) {q : Production Nat} (hq : q ∈ g.productions)
    (hs : s ∈ q.body) : s ∈ g.terminals ∨ s ∈ g.nonTerminals := by
  obtain ⟨w, hw, hderives⟩ := hg.productive q hq s hs
  rcases hderives.cases_head with rfl | ⟨x, hstep, -⟩
  · exact Or.inl (hw s List.mem_cons_self)
  · generalize hfrom : [s] = y at hstep
    cases hstep with
    | @rewrite q' u v hmem =>
      have hhead : q'.head ∈ [s] := by
        rw [hfrom]
        simp
      rw [← List.mem_singleton.1 hhead]
      exact Or.inr ((g.mem_nonTerminals _).2 ⟨q', hmem, rfl⟩)

/-- The dot of an item is within the body. -/
theorem IsLr1.dot_le (h : IsLr1 g n lookaheads lr1)
    (hitem : Lr1Item g n lookaheads i ⟨p, d, l⟩) : d ≤ (g.rule p).body.length := by
  cases d with
  | zero => exact Nat.zero_le _
  | succ d =>
    have hitem' := h.lr0Item hitem
    obtain ⟨kernel, hkernel, -⟩ := hitem
    have hmem := IsLr0.mem_kernel hkernel hitem' (Nat.succ_ne_zero d)
    rcases h.lr0.kernel_cases hkernel hmem with ⟨-, hroot⟩ | ⟨hi, -⟩
    · exact absurd (congrArg Item.dot hroot) (Nat.succ_ne_zero d)
    · obtain ⟨hlt, -⟩ := List.getElem?_eq_some_iff.1 hkernel
      obtain ⟨i', s, -, hedge⟩ := h.lr0.found i (Nat.pos_of_ne_zero hi) hlt
      obtain ⟨kernel', hkernel', -, hiff⟩ := h.lr0.edge _ _ _ hedge
      rw [hkernel] at hkernel'
      cases hkernel'
      obtain ⟨item', -, hnext, heq⟩ := (hiff _).1 hmem
      obtain ⟨hd, -⟩ := List.getElem?_eq_some_iff.1 hnext
      obtain ⟨hp, hdot, -⟩ := Item.mk.inj heq
      have hp : p = item'.production := hp
      have hdot : d + 1 = item'.dot + 1 := hdot
      rw [hp, hdot]
      exact hd

/-- A complete item has its dot at the end. -/
theorem IsLr1.dot_eq (h : IsLr1 g n lookaheads lr1)
    (hitem : Lr1Item g n lookaheads i item) (hnext : g.nextSymbol item = none) :
    item.dot = (g.rule item.production).body.length :=
  Nat.le_antisymm (h.dot_le hitem) (List.getElem?_eq_none_iff.1 hnext)

/-- The items of the sets are those of a machine that reads sentences. -/
theorem soundItems (hg : g.Reduced) (h : IsLr1 g n lookaheads lr1)
    (htable : IsTable g n lookaheads tables.actions) (hroot : tables.rootItemSet = 0) :
    (tables.machine g).SoundItems g.rootProductionId
      fun i p d => ∃ l, Lr1Item g n lookaheads i ⟨p, d, l⟩ := by
  refine ⟨fun p d hitem => ?_, fun i s j hmove p d hitem => ?_, fun i s p hmove => ?_,
    fun i p hitem hp => ?_, fun i s hmove => ?_, fun i hitem => ?_, fun i s j hmove => ?_⟩
  · obtain ⟨l, hitem⟩ := hitem
    by_contra hd
    have hroot : Lr1Item g n lookaheads 0 ⟨p, d, l⟩ := hroot ▸ hitem
    have hmem := IsLr0.mem_kernel h.lr0.root (h.lr0Item hroot) hd
    rcases h.lr0.kernel_cases h.lr0.root hmem with ⟨-, heq⟩ | ⟨hzero, -⟩
    · exact hd (congrArg Item.dot heq)
    · exact hzero rfl
  · obtain ⟨l, hitem⟩ := hitem
    have haction := move_eq_shift.1 hmove
    obtain ⟨item', -, hwants⟩ := htable.sound i s (by rw [haction]; exact fun h => by cases h)
    rw [haction] at hwants
    cases hwants with
    | shift _ _ hedge => exact h.exists_back hg hedge hitem
  · have haction := move_eq_reduce.1 hmove
    obtain ⟨item', hitem', hwants⟩ :=
      htable.sound i s (by rw [haction]; exact fun h => by cases h)
    rw [haction] at hwants
    cases hwants with
    | reduce hnone hother =>
      refine ⟨⟨(h.lr0.item_spec (h.lr0Item hitem')).1, hother⟩, hother, item'.lookahead, ?_⟩
      have hdot := h.dot_eq hitem' hnone
      show Lr1Item g n lookaheads i
        ⟨item'.production, (g.rule item'.production).body.length, item'.lookahead⟩
      rwa [← hdot]
  · obtain ⟨l, kernel, hkernel, hclosed⟩ := hitem
    cases hclosed with
    | kernel hmem =>
      obtain ⟨item', hitem', hproduction, hdot, -⟩ := mem_lr1Kernel.1 hmem
      rcases h.lr0.kernel_cases hkernel hitem' with ⟨-, rfl⟩ | ⟨-, hmoved⟩
      · exact absurd hproduction.symm hp
      · exact absurd hdot hmoved
    | @expand item' s p l hclosed hnext hs hlt hhead hleads =>
      have hitem' : Lr1Item g n lookaheads i item' := ⟨kernel, hkernel, hclosed⟩
      obtain ⟨j, hedge, -⟩ := h.exists_edge hg hitem' hnext
      have hnonTerminal : s ∈ g.nonTerminals :=
        (g.mem_nonTerminals s).2 ⟨g.rule p, g.rule_mem hlt, hhead⟩
      refine ⟨j, move_eq_shift.2 ?_⟩
      show tables.actions i (g.rule p).head = .shift j
      rw [hhead]
      refine htable.complete i item' s _ hitem' (.shift hnext (Or.inr hnonTerminal) hedge) ?_
      intro item₁ item₂ action _ _ haccept
      obtain ⟨-, -, rfl⟩ := haccept.of_accept
      exact absurd g.tokenEnd_mem hs
  · have haction := move_eq_accept.1 hmove
    obtain ⟨item', hitem', hwants⟩ :=
      htable.sound i s (by rw [haction]; exact fun h => by cases h)
    rw [haction] at hwants
    cases hwants with
    | accept hnone hproduction =>
      have hdot := h.dot_eq hitem' hnone
      refine ⟨item'.lookahead, ?_⟩
      show Lr1Item g n lookaheads i
        ⟨g.rootProductionId, (g.rule g.rootProductionId).body.length, item'.lookahead⟩
      rwa [← hproduction, ← hdot]
  · obtain ⟨l, hitem⟩ := hitem
    rw [show (tables.machine g).root = 0 from hroot]
    exact h.lr0.eq_zero_of_root hg.root_fresh (h.lr0Item hitem) rfl rfl
  · have haction := move_eq_shift.1 hmove
    obtain ⟨item', -, hwants⟩ := htable.sound i s (by rw [haction]; exact fun h => by cases h)
    rw [haction] at hwants
    rw [show (tables.machine g).root = 0 from hroot]
    cases hwants with
    | shift _ _ hedge => exact h.lr0.edge_ne_zero hedge

/-- They are closed under the moves, if accepting is not contested. -/
theorem completeItems (hg : g.Reduced) (htokens : g.TokensApart) (h : IsLr1 g n lookaheads lr1)
    (htable : IsTable g n lookaheads tables.actions) (hroot : tables.rootItemSet = 0)
    (halone : AcceptsAlone g lr1) :
    (tables.machine g).CompleteItems g.productions (· ∈ g.terminals.toList) g.rootProductionId
      SymbolId.tokenEnd.toNat fun i p d l => Lr1Item g n lookaheads i ⟨p, d, l⟩ := by
  have huncontested : ∀ i, Uncontested (Lr1Item g n lookaheads i) g (n.edges i)
      SymbolId.tokenEnd.toNat := by
    intro i item item' action hitem hitem' haccept hwants
    obtain ⟨e, he, rfl⟩ : ∃ e ∈ lr1.itemSets.toList, e.2.index = i := by
      obtain ⟨kernel, hkernel, -⟩ := hitem
      exact h.exists_set i (List.getElem?_eq_some_iff.1 hkernel).1
    have hmem := (h.closure e he).2
    obtain ⟨hnone', hroot', -⟩ := haccept.of_accept
    generalize hend : SymbolId.tokenEnd.toNat = t at hwants
    cases hwants with
    | accept => rfl
    | shift hnext =>
      have hbody := List.mem_of_getElem? hnext
      rw [← hend] at hbody
      exact absurd hbody (htokens.tokenEnd _
        (g.rule_mem (h.lr0.item_spec (h.lr0Item hitem')).1))
    | reduce hnone hother =>
      exact absurd (halone e he item ((hmem item).2 hitem) hnone' hroot' item'
        ((hmem item').2 hitem') hnone hend.symm) hother
  refine ⟨?_, fun i p d l q a hitem hsymbol hrule hleads => ?_, fun i p d l s hitem hsymbol => ?_,
    fun i p l hrule hitem => ?_, fun i hitem => ?_⟩
  · rw [show (tables.machine g).root = 0 from hroot]
    exact h.rootItem
  · obtain ⟨kernel, hkernel, hclosed⟩ := hitem
    exact ⟨kernel, hkernel, hclosed.expand hsymbol
      (htokens.heads _ (g.rule_mem hrule.1)) hrule.1 rfl hleads⟩
  · obtain ⟨j, hedge, hnext⟩ := h.exists_edge hg hitem hsymbol
    have hproduction := g.rule_mem (h.lr0.item_spec (h.lr0Item hitem)).1
    have hbody := List.mem_of_getElem? hsymbol
    refine ⟨j, move_eq_shift.2 ?_, hnext⟩
    refine htable.complete i _ s _ hitem (.shift hsymbol (mem_of_mem_body hg hproduction hbody)
      hedge) fun item item' action _ _ haccept => ?_
    obtain ⟨-, -, rfl⟩ := haccept.of_accept
    exact absurd hbody (htokens.tokenEnd _ hproduction)
  · refine move_eq_reduce.2 (htable.complete i _ l _ hitem
      (.reduce (List.getElem?_eq_none_iff.2 (Nat.le_refl _)) hrule.2) ?_)
    by_cases hl : l = SymbolId.tokenEnd.toNat
    · rw [hl]
      exact huncontested i
    · intro item item' action _ _ haccept
      exact absurd haccept.of_accept.2.2 hl
  · exact move_eq_accept.2 (htable.complete i _ _ _ hitem
      (.accept (List.getElem?_eq_none_iff.2 (Nat.le_refl _)) rfl) (huncontested i))

end Machine

/-! ## A grammar of letters -/

/-- A list of letters: `8` is the list, and `7` the letter `a`. -/
def lettersGrammar : ParserGrammar where
  terminals := (OrderedSet.empty.insert 7).insert SymbolId.tokenEnd.toNat
  productions := [⟨8, []⟩, ⟨9, [8]⟩, ⟨8, [8, 7]⟩]
  nonTerminals := [8, 9]
  rootProductionId := 1
  startSymbol := 8
  tokenEnd_mem := OrderedSet.mem_insert.2 (Or.inl rfl)
  mem_nonTerminals := by
    intro s
    simp only [List.mem_cons, List.not_mem_nil, or_false, exists_eq_or_imp, exists_eq_left]
    omega
  root_body := rfl

theorem reduced_lettersGrammar : lettersGrammar.Reduced := by
  refine ⟨by decide, ?_, ?_⟩
  · intro hnull
    rcases OrderedSet.mem_insert.1 hnull with h | h
    · exact absurd h (by decide)
    · rcases OrderedSet.mem_insert.1 h with h | h
      · exact absurd h (by decide)
      · exact OrderedSet.not_mem_empty _ h
  · intro p hp s hs
    have hcases : s = 8 ∨ s = 7 := by
      revert p s
      decide
    rcases hcases with rfl | rfl
    · exact ⟨[], List.forall_mem_nil _, derives_of_mem (p := ⟨8, []⟩) (by decide)⟩
    · exact ⟨[7], fun t ht => by
        rw [List.mem_singleton.1 ht]
        exact OrderedSet.mem_insert.2 (Or.inr (OrderedSet.mem_insert.2 (Or.inl rfl))), .refl⟩

theorem tokensApart_lettersGrammar : lettersGrammar.TokensApart := by
  have hterminals : ∀ s, s ∈ lettersGrammar.terminals → s = 0 ∨ s = 7 := by
    intro s hs
    rcases OrderedSet.mem_insert.1 hs with h | h
    · exact Or.inl h
    · exact Or.inr ((OrderedSet.mem_insert.1 h).resolve_right (OrderedSet.not_mem_empty _))
  have hheads : ∀ p ∈ lettersGrammar.productions, p.head ≠ 0 ∧ p.head ≠ 7 := by decide
  exact ⟨fun p hp hhead => (hterminals _ hhead).elim (hheads p hp).1 (hheads p hp).2, by decide⟩

end Lalr1Parser

end LogSurgeon
