import LogSurgeon.Lib.Grammar
import LogSurgeon.Lib.Numbering
import LogSurgeon.Token

/-!
# LR(0) item sets

An item is a production with a dot in its body.  `generateLr0Kernels` is the
loop of `Lalr1Parser.tpp` that numbers the sets of items from the one of the root
production, each set being given by its kernel.

* Items compare by the index of their production, the dot and the lookahead.
  The items of this module have the lookahead `cNullSymbol`.
* `m_non_terminals` has no order, so the grammar has its keys in any order.
* A symbol that is no terminal and has no production fails the loop.

`mem_generateLr0Closure` says what a closure has, and `isLr0_of_generateLr0Kernels`
what the numbered sets and the edges between them are.
-/

namespace LogSurgeon

open Lib
open Std (TransOrd LawfulEqOrd TransCmp LawfulEqCmp)

/-! ## Items -/

/-- `production` is the index of the production. -/
structure Item where
  production : Nat
  dot : Nat
  lookahead : Nat
deriving DecidableEq, Repr

namespace Item

instance : Ord Item :=
  ⟨compareLex (compareOn production) (compareLex (compareOn dot) (compareOn lookahead))⟩

instance : TransOrd Item :=
  inferInstanceAs (TransCmp (compareLex (compareOn production)
    (compareLex (compareOn dot) (compareOn lookahead))))

instance : LawfulEqOrd Item where
  compare_self {a} := @Std.ReflCmp.compare_self _ (compareLex (compareOn production)
    (compareLex (compareOn dot) (compareOn lookahead))) _ a
  eq_of_compare {a b} h := by
    obtain ⟨hproduction, h⟩ := Ordering.then_eq_eq.1 h
    obtain ⟨hdot, hlookahead⟩ := Ordering.then_eq_eq.1 h
    have hproduction : a.production = b.production := LawfulEqCmp.eq_of_compare hproduction
    have hdot : a.dot = b.dot := LawfulEqCmp.eq_of_compare hdot
    have hlookahead : a.lookahead = b.lookahead := LawfulEqCmp.eq_of_compare hlookahead
    cases a
    cases b
    simp_all

end Item

/-! ## The grammar of a parser -/

/-- The fields of the parser that its tables are generated from.  The keys of
`m_non_terminals` are the heads of the productions, the end of the input is a
terminal, and the body of the root production is the start symbol. -/
structure ParserGrammar where
  terminals : OrderedSet Nat
  productions : List (Production Nat)
  nonTerminals : List Nat
  rootProductionId : Nat
  startSymbol : Nat
  tokenEnd_mem : SymbolId.tokenEnd.toNat ∈ terminals
  mem_nonTerminals : ∀ s, s ∈ nonTerminals ↔ ∃ p ∈ productions, p.head = s
  root_body : productions[rootProductionId]?.map Production.body = some [startSymbol]

namespace ParserGrammar

/-- `m_productions`. -/
def rule (g : ParserGrammar) (i : Nat) : Production Nat := g.productions.getD i ⟨0, []⟩

/-- `m_non_terminals.at(s)`. -/
def productionsOf (g : ParserGrammar) (s : Nat) : Except Fault (List Nat) :=
  if g.nonTerminals.contains s then
    .ok ((List.range g.productions.length).filter fun i => (g.rule i).head = s)
  else .error .thrown

/-- The symbol behind the dot, and none for an item with its dot at the end. -/
def nextSymbol (g : ParserGrammar) (item : Item) : Option Nat :=
  (g.rule item.production).body[item.dot]?

variable {g : ParserGrammar} {i s : Nat} {item item' : Item}

theorem rule_mem (hi : i < g.productions.length) : g.rule i ∈ g.productions := by
  unfold rule
  rw [List.getD_eq_getElem?_getD, List.getElem?_eq_getElem hi]
  exact List.getElem_mem hi

theorem root_lt (g : ParserGrammar) : g.rootProductionId < g.productions.length := by
  obtain ⟨p, hp, -⟩ := Option.map_eq_some_iff.1 g.root_body
  exact (List.getElem?_eq_some_iff.1 hp).1

theorem body_root (g : ParserGrammar) : (g.rule g.rootProductionId).body = [g.startSymbol] := by
  obtain ⟨p, hp, hbody⟩ := Option.map_eq_some_iff.1 g.root_body
  unfold rule
  rw [List.getD_eq_getElem?_getD, hp]
  exact hbody

theorem mem_productionsOf {ps : List Nat} (h : g.productionsOf s = .ok ps) :
    i ∈ ps ↔ i < g.productions.length ∧ (g.rule i).head = s := by
  unfold productionsOf at h
  split at h
  · cases h
    simp
  · cases h

end ParserGrammar

/-! ## Closures and kernels -/

namespace Lalr1Parser

/-- The symbol to expand, for an item that is new in the closure. -/
def lrClosureHelper (g : ParserGrammar) (item : Item) : Option Nat :=
  match g.nextSymbol item with
  | none => none
  | some s => if g.terminals.contains s then none else some s

/-- The items that an item brings in. -/
def lr0Items (g : ParserGrammar) (item : Item) : Except Fault (List Item) :=
  match lrClosureHelper g item with
  | none => .ok []
  | some s => (g.productionsOf s).map fun ps => ps.map fun i => ⟨i, 0, cNullSymbol⟩

def generateLr0Closure (g : ParserGrammar) (fuel : Nat) (kernel : OrderedSet Item) :
    Except Fault (OrderedSet Item) :=
  StackClosure.close (lr0Items g) .outOfSteps fuel kernel.toList

/-- The kernel of the next item set, unless it is empty. -/
def goTo (g : ParserGrammar) (closure : OrderedSet Item) (nextSymbol : Nat) :
    Option (OrderedSet Item) :=
  let kernel := OrderedSet.empty.insertAll (closure.toList.filterMap fun item =>
    if g.nextSymbol item = some nextSymbol then
      some ⟨item.production, item.dot + 1, item.lookahead⟩
    else none)
  if kernel.toList = [] then none else some kernel

def rootItem (g : ParserGrammar) : Item := ⟨g.rootProductionId, 0, cNullSymbol⟩

/-- The kernels by their indices, and `m_go_to_table`. -/
def generateLr0Kernels (g : ParserGrammar) (fuel : Nat) :
    Except Fault (Numbering (OrderedSet Item) Nat) :=
  Numbering.number (fun kernel => (generateLr0Closure g fuel kernel).map (goTo g))
    (g.terminals.toList ++ g.nonTerminals) .outOfSteps fuel (OrderedSet.empty.insert (rootItem g))

variable {g : ParserGrammar} {fuel s i d : Nat} {item item' : Item} {kernel closure : OrderedSet Item}

theorem lrClosureHelper_eq_some_iff :
    lrClosureHelper g item = some s ↔ g.nextSymbol item = some s ∧ s ∉ g.terminals := by
  unfold lrClosureHelper
  cases g.nextSymbol item with
  | none => simp
  | some s' =>
    simp only
    split
    · rename_i hs'
      rw [OrderedSet.contains_iff] at hs'
      constructor
      · exact fun h => by cases h
      · rintro ⟨h, hs⟩
        cases h
        exact absurd hs' hs
    · rename_i hs'
      rw [OrderedSet.contains_iff] at hs'
      constructor
      · intro h
        cases h
        exact ⟨rfl, hs'⟩
      · exact fun h => h.1

theorem mem_goTo {next : OrderedSet Item} (h : goTo g closure s = some next) :
    item ∈ next ↔ ∃ item' ∈ closure, g.nextSymbol item' = some s ∧
      item = ⟨item'.production, item'.dot + 1, item'.lookahead⟩ := by
  unfold goTo at h
  dsimp only at h
  split at h
  · cases h
  · cases h
    rw [OrderedSet.mem_insertAll, List.mem_filterMap]
    constructor
    · rintro (⟨item', hmem, hitem⟩ | hmem)
      · split at hitem
        · rename_i hnext
          cases hitem
          exact ⟨item', hmem, hnext, rfl⟩
        · cases hitem
      · exact absurd hmem (OrderedSet.not_mem_empty item)
    · rintro ⟨item', hmem, hnext, rfl⟩
      exact Or.inl ⟨item', hmem, if_pos hnext⟩

theorem exists_goTo (hitem : item ∈ closure) (hnext : g.nextSymbol item = some s) :
    ∃ next, goTo g closure s = some next := by
  unfold goTo
  dsimp only
  split
  · rename_i hempty
    have hmem : (⟨item.production, item.dot + 1, item.lookahead⟩ : Item) ∈
        OrderedSet.empty.insertAll (closure.toList.filterMap fun item =>
          if g.nextSymbol item = some s then
            some ⟨item.production, item.dot + 1, item.lookahead⟩
          else none) := by
      rw [OrderedSet.mem_insertAll, List.mem_filterMap]
      exact Or.inl ⟨item, hitem, if_pos hnext⟩
    rw [OrderedSet.mem_def, hempty] at hmem
    exact absurd hmem List.not_mem_nil
  · exact ⟨_, rfl⟩

theorem exists_mem_of_goTo {next : OrderedSet Item} (h : goTo g closure s = some next) :
    ∃ item ∈ closure, g.nextSymbol item = some s := by
  have hne : next.toList ≠ [] := by
    unfold goTo at h
    dsimp only at h
    split at h
    · cases h
    · rename_i hne
      cases h
      exact hne
  obtain ⟨item, hitem⟩ := List.exists_mem_of_ne_nil _ hne
  obtain ⟨item', hmem, hnext, -⟩ := (mem_goTo h).1 (OrderedSet.mem_def.2 hitem)
  exact ⟨item', hmem, hnext⟩

/-! ## What a closure has -/

/-- The kernel, and the productions of the symbols behind a dot. -/
inductive Lr0Closure (g : ParserGrammar) (kernel : OrderedSet Item) : Item → Prop
  | kernel {item : Item} : item ∈ kernel → Lr0Closure g kernel item
  | expand {item : Item} {s i : Nat} : Lr0Closure g kernel item → g.nextSymbol item = some s →
      s ∉ g.terminals → i < g.productions.length → (g.rule i).head = s →
      Lr0Closure g kernel ⟨i, 0, cNullSymbol⟩

theorem mem_lr0Items {items : List Item} (h : lr0Items g item = .ok items) :
    item' ∈ items ↔ ∃ s i, g.nextSymbol item = some s ∧ s ∉ g.terminals ∧
      i < g.productions.length ∧ (g.rule i).head = s ∧ item' = ⟨i, 0, cNullSymbol⟩ := by
  unfold lr0Items at h
  split at h
  · rename_i hnone
    cases h
    refine ⟨fun h => absurd h List.not_mem_nil, ?_⟩
    rintro ⟨s, i, hnext, hs, -⟩
    rw [lrClosureHelper_eq_some_iff.2 ⟨hnext, hs⟩] at hnone
    cases hnone
  · rename_i s hsome
    obtain ⟨hnext, hs⟩ := lrClosureHelper_eq_some_iff.1 hsome
    cases hproductions : g.productionsOf s with
    | error fault =>
      rw [hproductions] at h
      cases h
    | ok ps =>
      rw [hproductions] at h
      cases h
      rw [List.mem_map]
      constructor
      · rintro ⟨i, hi, rfl⟩
        obtain ⟨hlt, hhead⟩ := (ParserGrammar.mem_productionsOf hproductions).1 hi
        exact ⟨s, i, hnext, hs, hlt, hhead, rfl⟩
      · rintro ⟨s', i, hnext', -, hlt, hhead, rfl⟩
        rw [hnext] at hnext'
        cases hnext'
        exact ⟨i, (ParserGrammar.mem_productionsOf hproductions).2 ⟨hlt, hhead⟩, rfl⟩

theorem mem_generateLr0Closure (h : generateLr0Closure g fuel kernel = .ok closure) :
    item ∈ closure ↔ Lr0Closure g kernel item := by
  obtain ⟨hmem, hok⟩ := StackClosure.mem_close h
  constructor
  · intro hitem
    obtain ⟨start, hstart, hpath⟩ := (hmem item).1 hitem
    induction hpath with
    | refl => exact .kernel (OrderedSet.mem_def.2 hstart)
    | tail hpath hstep ih =>
      obtain ⟨items, hitems, hbrings⟩ := hstep
      obtain ⟨s, i, hnext, hs, hlt, hhead, rfl⟩ := (mem_lr0Items hitems).1 hbrings
      exact .expand (ih ((hmem _).2 ⟨start, hstart, hpath⟩)) hnext hs hlt hhead
  · intro hitem
    induction hitem with
    | kernel hkernel => exact (hmem _).2 ⟨_, OrderedSet.mem_def.1 hkernel, .refl⟩
    | expand _ hnext hs hlt hhead ih =>
      obtain ⟨items, hitems⟩ := hok _ ih
      obtain ⟨start, hstart, hpath⟩ := (hmem _).1 ih
      refine (hmem _).2 ⟨start, hstart, hpath.tail ⟨items, hitems, ?_⟩⟩
      exact (mem_lr0Items hitems).2 ⟨_, _, hnext, hs, hlt, hhead, rfl⟩

/-- The symbols behind the dots of a closure are terminals or heads. -/
theorem next_mem_of_generateLr0Closure (h : generateLr0Closure g fuel kernel = .ok closure)
    (hitem : item ∈ closure) (hnext : g.nextSymbol item = some s) :
    s ∈ g.terminals.toList ++ g.nonTerminals := by
  rw [List.mem_append]
  by_cases hs : s ∈ g.terminals
  · exact Or.inl hs
  · obtain ⟨items, hitems⟩ := (StackClosure.mem_close h).2 item hitem
    unfold lr0Items at hitems
    rw [lrClosureHelper_eq_some_iff.2 ⟨hnext, hs⟩] at hitems
    unfold ParserGrammar.productionsOf at hitems
    dsimp only at hitems
    split at hitems
    · rename_i hcontains
      rw [List.contains_iff_mem] at hcontains
      exact Or.inr hcontains
    · cases hitems

/-! ## The numbered item sets -/

/-- The items of the set `i`. -/
def Lr0Item (g : ParserGrammar) (n : Numbering (OrderedSet Item) Nat) (i : Nat) (item : Item) :
    Prop :=
  ∃ kernel, n.nodes[i]? = some kernel ∧ Lr0Closure g kernel item

/-- `n` numbers the item sets of the grammar. -/
structure IsLr0 (g : ParserGrammar) (n : Numbering (OrderedSet Item) Nat) : Prop where
  nodup : n.nodes.Nodup
  root : n.nodes[0]? = some (OrderedSet.empty.insert (rootItem g))
  edge : ∀ i s j, n.edges i s = some j → ∃ kernel, n.nodes[j]? = some kernel ∧
    (∃ item, Lr0Item g n i item ∧ g.nextSymbol item = some s) ∧
    ∀ item, item ∈ kernel ↔ ∃ item', Lr0Item g n i item' ∧ g.nextSymbol item' = some s ∧
      item = ⟨item'.production, item'.dot + 1, item'.lookahead⟩
  exists_edge : ∀ i item s, Lr0Item g n i item → g.nextSymbol item = some s →
    ∃ j, n.edges i s = some j
  found : ∀ j, 0 < j → j < n.nodes.length → ∃ i s, i < j ∧ n.edges i s = some j

theorem isLr0_of_generateLr0Kernels {n : Numbering (OrderedSet Item) Nat}
    (h : generateLr0Kernels g fuel = .ok n) : IsLr0 g n := by
  have hcomplete := Numbering.complete_of_number h
  -- The closure of a set was computed when the set was expanded.
  have hclosure : ∀ {kernel successor},
      (generateLr0Closure g fuel kernel).map (goTo g) = .ok successor →
      ∃ closure, generateLr0Closure g fuel kernel = .ok closure ∧ successor = goTo g closure := by
    intro kernel successor hmap
    cases hclose : generateLr0Closure g fuel kernel with
    | error fault =>
      rw [hclose] at hmap
      cases hmap
    | ok closure =>
      rw [hclose] at hmap
      cases hmap
      exact ⟨closure, rfl, rfl⟩
  have hitems : ∀ {i kernel closure}, n.nodes[i]? = some kernel →
      generateLr0Closure g fuel kernel = .ok closure →
      ∀ item, Lr0Item g n i item ↔ item ∈ closure := by
    intro i kernel closure hkernel hclose item
    rw [mem_generateLr0Closure hclose]
    constructor
    · rintro ⟨kernel', hkernel', hitem⟩
      rw [hkernel] at hkernel'
      cases hkernel'
      exact hitem
    · exact fun hitem => ⟨kernel, hkernel, hitem⟩
  refine ⟨hcomplete.nodup, hcomplete.root, fun i s j hedge => ?_, fun i item s hitem hnext => ?_,
    hcomplete.found⟩
  · obtain ⟨kernel, successor, next, hkernel, hexpand, -, hnext, hj⟩ := hcomplete.edge i s j hedge
    obtain ⟨closure, hclose, rfl⟩ := hclosure hexpand
    have hmem := hitems hkernel hclose
    refine ⟨next, hj, ?_, fun item => ?_⟩
    · obtain ⟨item, hitem, hsymbol⟩ := exists_mem_of_goTo hnext
      exact ⟨item, (hmem item).2 hitem, hsymbol⟩
    · rw [mem_goTo hnext]
      simp only [hmem]
  · obtain ⟨kernel, hkernel, hclosed⟩ := hitem
    obtain ⟨successor, hexpand, hedges⟩ := hcomplete.expanded i kernel hkernel
      (fun e he => by rw [hcomplete.done] at he; exact absurd he List.not_mem_nil)
      List.not_mem_nil
    obtain ⟨closure, hclose, rfl⟩ := hclosure hexpand
    have hitem : item ∈ closure := (mem_generateLr0Closure hclose).2 hclosed
    obtain ⟨next, hgoto⟩ := exists_goTo hitem hnext
    obtain ⟨j, hj, -⟩ :=
      hedges s (next_mem_of_generateLr0Closure hclose hitem hnext) next hgoto
    exact ⟨j, hj⟩

namespace IsLr0

variable {n : Numbering (OrderedSet Item) Nat} {j : Nat}

/-- What holds of the first set and along the edges holds of all sets. -/
theorem forall_sets (h : IsLr0 g n) {P : Nat → Prop} (hroot : P 0)
    (hedge : ∀ i s j, n.edges i s = some j → P i → P j) : ∀ j < n.nodes.length, P j := by
  intro j
  induction j using Nat.strong_induction_on with
  | _ j ih =>
    intro hj
    rcases Nat.eq_zero_or_pos j with rfl | hpos
    · exact hroot
    · obtain ⟨i, s, hlt, hij⟩ := h.found j hpos hj
      exact hedge i s j hij (ih i hlt (by omega))

/-- The first set has the root item, and the kernels of the others have items
whose dot has moved. -/
theorem kernel_cases (h : IsLr0 g n) (hkernel : n.nodes[i]? = some kernel)
    (hitem : item ∈ kernel) : (i = 0 ∧ item = rootItem g) ∨ (i ≠ 0 ∧ item.dot ≠ 0) := by
  obtain ⟨hi, -⟩ := List.getElem?_eq_some_iff.1 hkernel
  rcases Nat.eq_zero_or_pos i with rfl | hpos
  · rw [h.root] at hkernel
    cases hkernel
    rw [OrderedSet.mem_insert] at hitem
    exact Or.inl ⟨rfl, hitem.resolve_right (OrderedSet.not_mem_empty item)⟩
  · obtain ⟨i', s, -, hedge⟩ := h.found i hpos hi
    obtain ⟨kernel', hkernel', -, hmem⟩ := h.edge _ _ _ hedge
    rw [hkernel] at hkernel'
    cases hkernel'
    obtain ⟨item', -, -, rfl⟩ := (hmem item).1 hitem
    exact Or.inr ⟨by omega, Nat.succ_ne_zero _⟩

theorem edge_ne_zero (h : IsLr0 g n) (hedge : n.edges i s = some j) : j ≠ 0 := by
  obtain ⟨kernel, hkernel, ⟨item, hitem, hnext⟩, hmem⟩ := h.edge _ _ _ hedge
  have hmoved := (hmem _).2 ⟨item, hitem, hnext, rfl⟩
  rcases h.kernel_cases hkernel hmoved with ⟨-, hroot⟩ | ⟨hj, -⟩
  · have hdot := congrArg Item.dot hroot
    exact absurd hdot (Nat.succ_ne_zero item.dot)
  · exact hj

/-- An item whose dot has moved is in the kernel. -/
theorem mem_kernel (hkernel : n.nodes[i]? = some kernel) (hitem : Lr0Item g n i item)
    (hdot : item.dot ≠ 0) : item ∈ kernel := by
  obtain ⟨kernel', hkernel', hclosed⟩ := hitem
  rw [hkernel] at hkernel'
  cases hkernel'
  cases hclosed with
  | kernel hmem => exact hmem
  | expand => exact absurd rfl hdot

/-- The production of an item is one of the grammar, and it has no lookahead. -/
theorem item_spec (h : IsLr0 g n) (hitem : Lr0Item g n i item) :
    item.production < g.productions.length ∧ item.lookahead = cNullSymbol := by
  obtain ⟨kernel, hkernel, hclosed⟩ := hitem
  obtain ⟨hi, -⟩ := List.getElem?_eq_some_iff.1 hkernel
  let P : Nat → Prop := fun i => ∀ kernel item, n.nodes[i]? = some kernel →
    Lr0Closure g kernel item →
      item.production < g.productions.length ∧ item.lookahead = cNullSymbol
  have hall : ∀ i < n.nodes.length, P i := by
    refine h.forall_sets (fun kernel item hkernel hclosed => ?_)
      fun i s j hedge ih kernel item hkernel hclosed => ?_
    · induction hclosed with
      | @kernel item hmem =>
        obtain ⟨-, rfl⟩ | ⟨hzero, -⟩ := h.kernel_cases hkernel hmem
        · exact ⟨g.root_lt, rfl⟩
        · exact absurd rfl hzero
      | expand _ _ _ hlt => exact ⟨hlt, rfl⟩
    · induction hclosed with
      | @kernel item hmem =>
        obtain ⟨kernel', hkernel', -, hiff⟩ := h.edge _ _ _ hedge
        rw [hkernel] at hkernel'
        cases hkernel'
        obtain ⟨item', ⟨kernel₀, hkernel₀, hclosed₀⟩, -, rfl⟩ := (hiff item).1 hmem
        exact ih kernel₀ item' hkernel₀ hclosed₀
      | expand _ _ _ hlt => exact ⟨hlt, rfl⟩
  exact hall i hi kernel item hkernel hclosed

/-- The root production has its dot at the start in the first set only, if its
head is in no body. -/
theorem eq_zero_of_root (h : IsLr0 g n)
    (hfresh : ∀ p ∈ g.productions, (g.rule g.rootProductionId).head ∉ p.body)
    (hitem : Lr0Item g n i item) (hproduction : item.production = g.rootProductionId)
    (hdot : item.dot = 0) : i = 0 := by
  obtain ⟨kernel, hkernel, hclosed⟩ := hitem
  cases hclosed with
  | kernel hmem =>
    rcases h.kernel_cases hkernel hmem with ⟨hi, -⟩ | ⟨-, hmoved⟩
    · exact hi
    · exact absurd hdot hmoved
  | @expand item' s q hclosed hnext hs hlt hhead =>
    have hspec := (h.item_spec ⟨kernel, hkernel, hclosed⟩).1
    have hbody : s ∈ (g.rule item'.production).body := List.mem_of_getElem? hnext
    have hproduction : q = g.rootProductionId := hproduction
    rw [← hhead, hproduction] at hbody
    exact absurd hbody (hfresh _ (g.rule_mem hspec))

end IsLr0

end Lalr1Parser

end LogSurgeon
