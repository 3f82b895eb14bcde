import LogSurgeon.Lib.Propagation
import LogSurgeon.Lib.Sentences
import LogSurgeon.SchemaParser.FirstSets
import LogSurgeon.SchemaParser.ItemSets

/-!
# Lookaheads

The start of `generate_lr1_item_sets`, which gives the items of the numbered sets
their lookaheads.  An item of a kernel gets the lookaheads that arise for its
production in any closure, and what the propagation along `m_propagate_map`
brings.

* The lookaheads of an item are the same in every set that has it in its
  kernel, so they are kept by item and not by set.

`mem_generateLr1Closure` says what a closure has, and `Lookaheads` what the
lookaheads are.
-/

namespace LogSurgeon

open Lib Lib.Grammar

namespace Lalr1Parser

/-! ## Closures -/

/-- The tokens that may come behind the next symbol of an item. -/
def lookaheadsFrom (sets : FirstSets) (lookahead : Nat) : List Nat → List Nat
  | [] => [lookahead]
  | s :: body =>
    (sets.firsts s).toList ++
      if sets.nullable.contains s then lookaheadsFrom sets lookahead body else []

def lr1Items (g : ParserGrammar) (sets : FirstSets) (item : Item) : Except Fault (List Item) :=
  match lrClosureHelper g item with
  | none => .ok []
  | some s =>
    let lookaheads := lookaheadsFrom sets item.lookahead
      ((g.rule item.production).body.drop (item.dot + 1))
    (g.productionsOf s).map fun ps => ps.flatMap fun i => lookaheads.map fun l => ⟨i, 0, l⟩

def generateLr1Closure (g : ParserGrammar) (sets : FirstSets) (fuel : Nat)
    (kernel : OrderedSet Item) : Except Fault (OrderedSet Item) :=
  StackClosure.close (lr1Items g sets) .outOfSteps fuel kernel.toList

/-- A text of the symbols in front of the lookahead may begin with the token. -/
def ParserGrammar.Leads (g : ParserGrammar) (body : List Nat) (lookahead l : Nat) : Prop :=
  Semantics.Leads g.productions (· ∈ g.terminals.toList) body lookahead l

/-- The kernel, and the productions of the symbols behind a dot with the tokens
that may come next. -/
inductive Lr1Closure (g : ParserGrammar) (kernel : OrderedSet Item) : Item → Prop
  | kernel {item : Item} : item ∈ kernel → Lr1Closure g kernel item
  | expand {item : Item} {s i l : Nat} : Lr1Closure g kernel item → g.nextSymbol item = some s →
      s ∉ g.terminals → i < g.productions.length → (g.rule i).head = s →
      ParserGrammar.Leads g ((g.rule item.production).body.drop (item.dot + 1)) item.lookahead l →
      Lr1Closure g kernel ⟨i, 0, l⟩

section Closure

variable {g : ParserGrammar} {sets : FirstSets} {fuel l s : Nat} {item item' : Item}
  {kernel closure : OrderedSet Item}

theorem mem_lookaheadsFrom (h : sets.Exact g.terminals.toList g.productions) {body : List Nat}
    {lookahead : Nat} :
    l ∈ lookaheadsFrom sets lookahead body ↔ ParserGrammar.Leads g body lookahead l := by
  unfold ParserGrammar.Leads Semantics.Leads
  induction body with
  | nil => simp [lookaheadsFrom, BeginsWith]
  | cons s body ih =>
    have hfirst : l ∈ (sets.firsts s).toList ↔
        First g.productions (· ∈ g.terminals.toList) l s := by
      rw [first_iff]
      exact h.firsts s l
    have hnull : sets.nullable.contains s = true ↔ Null g.productions s := by
      rw [OrderedSet.contains_iff, null_iff]
      exact h.nullable s
    unfold lookaheadsFrom
    rw [List.mem_append, hfirst, BeginsWith, List.forall_mem_cons]
    split
    · rename_i hcontains
      rw [ih]
      have hs := hnull.1 hcontains
      simp only [hs, true_and]
      exact or_assoc.symm
    · rename_i hcontains
      have hs : ¬ Null g.productions s := fun hs => hcontains (hnull.2 hs)
      simp [hs]

theorem mem_lr1Items (h : sets.Exact g.terminals.toList g.productions) {items : List Item}
    (hitems : lr1Items g sets item = .ok items) :
    item' ∈ items ↔ ∃ s i l, g.nextSymbol item = some s ∧ s ∉ g.terminals ∧
      i < g.productions.length ∧ (g.rule i).head = s ∧
      ParserGrammar.Leads g ((g.rule item.production).body.drop (item.dot + 1)) item.lookahead l ∧
      item' = ⟨i, 0, l⟩ := by
  unfold lr1Items at hitems
  split at hitems
  · rename_i hnone
    cases hitems
    refine ⟨fun h => absurd h List.not_mem_nil, ?_⟩
    rintro ⟨s, i, l, hnext, hs, -⟩
    rw [lrClosureHelper_eq_some_iff.2 ⟨hnext, hs⟩] at hnone
    cases hnone
  · rename_i s hsome
    obtain ⟨hnext, hs⟩ := lrClosureHelper_eq_some_iff.1 hsome
    cases hproductions : g.productionsOf s with
    | error fault =>
      rw [hproductions] at hitems
      cases hitems
    | ok ps =>
      rw [hproductions] at hitems
      cases hitems
      rw [List.mem_flatMap]
      constructor
      · rintro ⟨i, hi, hmem⟩
        obtain ⟨l, hl, rfl⟩ := List.mem_map.1 hmem
        obtain ⟨hlt, hhead⟩ := (ParserGrammar.mem_productionsOf hproductions).1 hi
        exact ⟨s, i, l, hnext, hs, hlt, hhead, (mem_lookaheadsFrom h).1 hl, rfl⟩
      · rintro ⟨s', i, l, hnext', -, hlt, hhead, hl, rfl⟩
        rw [hnext] at hnext'
        cases hnext'
        exact ⟨i, (ParserGrammar.mem_productionsOf hproductions).2 ⟨hlt, hhead⟩,
          List.mem_map.2 ⟨l, (mem_lookaheadsFrom h).2 hl, rfl⟩⟩

theorem mem_generateLr1Closure (h : sets.Exact g.terminals.toList g.productions)
    (hclosure : generateLr1Closure g sets fuel kernel = .ok closure) :
    item ∈ closure ↔ Lr1Closure g kernel item := by
  obtain ⟨hmem, hok⟩ := StackClosure.mem_close hclosure
  constructor
  · intro hitem
    obtain ⟨start, hstart, hpath⟩ := (hmem item).1 hitem
    induction hpath with
    | refl => exact .kernel (OrderedSet.mem_def.2 hstart)
    | tail hpath hstep ih =>
      obtain ⟨items, hitems, hbrings⟩ := hstep
      obtain ⟨s, i, l, hnext, hs, hlt, hhead, hl, rfl⟩ := (mem_lr1Items h hitems).1 hbrings
      exact .expand (ih ((hmem _).2 ⟨start, hstart, hpath⟩)) hnext hs hlt hhead hl
  · intro hitem
    induction hitem with
    | kernel hkernel => exact (hmem _).2 ⟨_, OrderedSet.mem_def.1 hkernel, .refl⟩
    | expand _ hnext hs hlt hhead hl ih =>
      obtain ⟨items, hitems⟩ := hok _ ih
      obtain ⟨start, hstart, hpath⟩ := (hmem _).1 ih
      refine (hmem _).2 ⟨start, hstart, hpath.tail ⟨items, hitems, ?_⟩⟩
      exact (mem_lr1Items h hitems).2 ⟨_, _, _, hnext, hs, hlt, hhead, hl, rfl⟩

end Closure

/-! ## The lookaheads of the kernels -/

/-- `m_spontaneous_map` and `m_propagate_map`. -/
structure LookaheadMaps where
  spontaneous : Nat → OrderedSet Nat
  propagate : OrderedMap Item (OrderedSet Item)

namespace LookaheadMaps

def empty : LookaheadMaps where
  spontaneous := fun _ => .empty
  propagate := .empty

/-- `m_propagate_map[l0_item]`. -/
def propagated (maps : LookaheadMaps) (l0Item : Item) : OrderedSet Item :=
  (maps.propagate.find? l0Item).getD .empty

/-- An item of the closure of `l0Item`. -/
def note (g : ParserGrammar) (l0Item : Item) (maps : LookaheadMaps) (l1Item : Item) :
    LookaheadMaps :=
  if l1Item.lookahead ≠ cNullSymbol then
    { maps with
      spontaneous := Propagation.assign maps.spontaneous l1Item.production
        ((maps.spontaneous l1Item.production).insert l1Item.lookahead) }
  else if l1Item.dot < (g.rule l1Item.production).body.length then
    { maps with
      propagate := maps.propagate.insertOrAssign l0Item
        ((maps.propagated l0Item).insert ⟨l1Item.production, l1Item.dot + 1, cNullSymbol⟩) }
  else maps

/-- The pairs of an item and one to which its lookaheads are handed. -/
def edges (maps : LookaheadMaps) : List (Item × Item) :=
  maps.propagate.toList.flatMap fun e => e.2.toList.map fun item => (e.1, item)

end LookaheadMaps

/-- The closure of an item of a kernel. -/
def noteClosure (g : ParserGrammar) (sets : FirstSets) (fuel : Nat) (maps : LookaheadMaps)
    (l0Item : Item) : Except Fault LookaheadMaps := do
  let closure ← generateLr1Closure g sets fuel (OrderedSet.empty.insert l0Item)
  return closure.toList.foldl (LookaheadMaps.note g l0Item) maps

def collectLookaheads (g : ParserGrammar) (sets : FirstSets) (fuel : Nat) (l0Items : List Item) :
    Except Fault LookaheadMaps :=
  l0Items.foldlM (noteClosure g sets fuel) .empty

def startLookahead (g : ParserGrammar) (maps : LookaheadMaps) (lookaheads : Item → OrderedSet Nat)
    (l0Item : Item) : Item → OrderedSet Nat :=
  let set := (lookaheads l0Item).insertAll (maps.spontaneous l0Item.production).toList
  Propagation.assign lookaheads l0Item
    (if l0Item.production = g.rootProductionId then set.insert SymbolId.tokenEnd.toNat else set)

/-- What the items of the kernels start with. -/
def startLookaheads (g : ParserGrammar) (maps : LookaheadMaps) (l0Items : List Item) :
    Item → OrderedSet Nat :=
  l0Items.foldl (startLookahead g maps) fun _ => .empty

def generateLookaheads (g : ParserGrammar) (sets : FirstSets) (fuel : Nat) (l0Items : List Item) :
    Except Fault (Item → OrderedSet Nat) := do
  let maps ← collectLookaheads g sets fuel l0Items
  Propagation.propagate maps.edges .outOfSteps fuel (startLookaheads g maps l0Items)

section Lookaheads

variable {g : ParserGrammar} {sets : FirstSets} {fuel l p : Nat} {item l0Item target : Item}
  {maps maps' : LookaheadMaps} {l0Items items : List Item}

theorem mem_spontaneous_note {closureItem : Item} :
    l ∈ (maps.note g l0Item closureItem).spontaneous p ↔
      (closureItem.production = p ∧ closureItem.lookahead = l ∧ l ≠ cNullSymbol) ∨
        l ∈ maps.spontaneous p := by
  unfold LookaheadMaps.note
  split
  · rename_i hne
    show l ∈ Propagation.assign maps.spontaneous closureItem.production
      ((maps.spontaneous closureItem.production).insert closureItem.lookahead) p ↔ _
    unfold Propagation.assign
    split
    · rename_i hp
      subst hp
      rw [OrderedSet.mem_insert]
      constructor
      · rintro (rfl | hl)
        · exact Or.inl ⟨rfl, rfl, hne⟩
        · exact Or.inr hl
      · rintro (⟨-, rfl, -⟩ | hl)
        · exact Or.inl rfl
        · exact Or.inr hl
    · rename_i hp
      simp [Ne.symm hp]
  · rename_i hnull
    rw [not_not] at hnull
    have hkept : (if closureItem.dot < (g.rule closureItem.production).body.length then
        { maps with
          propagate := maps.propagate.insertOrAssign l0Item ((maps.propagated l0Item).insert
            ⟨closureItem.production, closureItem.dot + 1, cNullSymbol⟩) }
        else maps).spontaneous = maps.spontaneous := by
      split <;> rfl
    rw [hkept]
    constructor
    · exact Or.inr
    · rintro (⟨-, rfl, hne⟩ | hl)
      · exact absurd hnull hne
      · exact hl

theorem mem_propagated_note {closureItem : Item} :
    target ∈ (maps.note g l0Item closureItem).propagated item ↔
      (item = l0Item ∧ closureItem.lookahead = cNullSymbol ∧
          closureItem.dot < (g.rule closureItem.production).body.length ∧
          target = ⟨closureItem.production, closureItem.dot + 1, cNullSymbol⟩) ∨
        target ∈ maps.propagated item := by
  unfold LookaheadMaps.note
  split
  · rename_i hne
    show target ∈ maps.propagated item ↔ _
    simp [hne]
  · rename_i hnull
    rw [not_not] at hnull
    split
    · rename_i hdot
      unfold LookaheadMaps.propagated
      dsimp only
      rw [OrderedMap.find?_insertOrAssign]
      split
      · rename_i hitem
        subst hitem
        rw [Option.getD_some, OrderedSet.mem_insert]
        simp [hnull, hdot]
      · rename_i hitem
        simp [hitem]
    · rename_i hdot
      simp [hdot]

theorem mem_spontaneous_foldl :
    l ∈ (items.foldl (LookaheadMaps.note g l0Item) maps).spontaneous p ↔
      (l ≠ cNullSymbol ∧ ∃ d, ⟨p, d, l⟩ ∈ items) ∨ l ∈ maps.spontaneous p := by
  induction items generalizing maps with
  | nil => simp
  | cons item items ih =>
    rw [List.foldl_cons, ih, mem_spontaneous_note]
    constructor
    · rintro (⟨hne, d, hd⟩ | ⟨rfl, rfl, hne⟩ | hl)
      · exact Or.inl ⟨hne, d, List.mem_cons_of_mem item hd⟩
      · exact Or.inl ⟨hne, item.dot, List.mem_cons_self⟩
      · exact Or.inr hl
    · rintro (⟨hne, d, hd⟩ | hl)
      · rcases List.mem_cons.1 hd with rfl | hd
        · exact Or.inr (Or.inl ⟨rfl, rfl, hne⟩)
        · exact Or.inl ⟨hne, d, hd⟩
      · exact Or.inr (Or.inr hl)

theorem mem_propagated_foldl :
    target ∈ (items.foldl (LookaheadMaps.note g l0Item) maps).propagated item ↔
      (item = l0Item ∧ ∃ p d, ⟨p, d, cNullSymbol⟩ ∈ items ∧ d < (g.rule p).body.length ∧
          target = ⟨p, d + 1, cNullSymbol⟩) ∨ target ∈ maps.propagated item := by
  induction items generalizing maps with
  | nil => simp
  | cons first items ih =>
    rw [List.foldl_cons, ih, mem_propagated_note]
    constructor
    · rintro (⟨rfl, p, d, hmem, hrest⟩ | ⟨rfl, hnull, hdot, rfl⟩ | hold)
      · exact Or.inl ⟨rfl, p, d, List.mem_cons_of_mem first hmem, hrest⟩
      · refine Or.inl ⟨rfl, first.production, first.dot, ?_, hdot, rfl⟩
        rw [← hnull]
        exact List.mem_cons_self
      · exact Or.inr hold
    · rintro (⟨rfl, p, d, hmem, hdot, rfl⟩ | hold)
      · rcases List.mem_cons.1 hmem with rfl | hmem
        · exact Or.inr (Or.inl ⟨rfl, rfl, hdot, rfl⟩)
        · exact Or.inl ⟨rfl, p, d, hmem, hdot, rfl⟩
      · exact Or.inr (Or.inr hold)

theorem mem_edges : (item, target) ∈ maps.edges ↔ target ∈ maps.propagated item := by
  unfold LookaheadMaps.edges LookaheadMaps.propagated
  rw [List.mem_flatMap]
  constructor
  · rintro ⟨⟨k, targets⟩, hentry, hmem⟩
    obtain ⟨target', htarget, heq⟩ := List.mem_map.1 hmem
    cases heq
    rw [OrderedMap.mem_toList_iff.1 hentry]
    exact htarget
  · intro htarget
    cases hfind : maps.propagate.find? item with
    | none =>
      rw [hfind] at htarget
      exact absurd htarget (OrderedSet.not_mem_empty target)
    | some targets =>
      rw [hfind] at htarget
      exact ⟨(item, targets), OrderedMap.mem_toList_iff.2 hfind,
        List.mem_map.2 ⟨target, htarget, rfl⟩⟩

/-- An item of the closure of `l0Item` alone. -/
def Closes (g : ParserGrammar) (l0Item item : Item) : Prop :=
  Lr1Closure g (OrderedSet.empty.insert l0Item) item

/-- What the maps have. -/
structure Collected (g : ParserGrammar) (l0Items : List Item) (maps : LookaheadMaps) : Prop where
  spontaneous : ∀ p l, l ∈ maps.spontaneous p ↔
    l ≠ cNullSymbol ∧ ∃ l0Item ∈ l0Items, ∃ d, Closes g l0Item ⟨p, d, l⟩
  propagated : ∀ l0Item target, target ∈ maps.propagated l0Item ↔ l0Item ∈ l0Items ∧
    ∃ p d, Closes g l0Item ⟨p, d, cNullSymbol⟩ ∧ d < (g.rule p).body.length ∧
      target = ⟨p, d + 1, cNullSymbol⟩

theorem Collected.append (h : sets.Exact g.terminals.toList g.productions)
    (hmaps : Collected g items maps) (hmaps' : l0Items.foldlM (noteClosure g sets fuel) maps = .ok maps') :
    Collected g (items ++ l0Items) maps' := by
  induction l0Items generalizing maps items with
  | nil =>
    cases hmaps'
    rwa [List.append_nil]
  | cons k l0Items ih =>
    rw [List.foldlM_cons] at hmaps'
    obtain ⟨maps₁, hmaps₁, hrest⟩ := exists_of_bind_eq_ok hmaps'
    obtain ⟨closure, hclosure, hmaps₁⟩ := exists_of_bind_eq_ok hmaps₁
    cases hmaps₁
    have hclose : ∀ item, item ∈ closure.toList ↔ Closes g k item :=
      fun item => mem_generateLr1Closure h hclosure
    rw [List.append_cons]
    refine ih ⟨fun p l => ?_, fun item target => ?_⟩ hrest
    · rw [mem_spontaneous_foldl, hmaps.spontaneous]
      simp only [hclose, List.mem_append, List.mem_singleton, or_and_right, exists_or,
        exists_eq_left, and_or_left]
      exact or_comm
    · rw [mem_propagated_foldl, hmaps.propagated]
      simp only [hclose, List.mem_append, List.mem_singleton]
      constructor
      · rintro (⟨rfl, hnew⟩ | ⟨hmem, hold⟩)
        · exact ⟨Or.inr rfl, hnew⟩
        · exact ⟨Or.inl hmem, hold⟩
      · rintro ⟨hmem | rfl, hitem⟩
        · exact Or.inr ⟨hmem, hitem⟩
        · exact Or.inl ⟨rfl, hitem⟩

theorem collected_of_collectLookaheads (h : sets.Exact g.terminals.toList g.productions)
    (hmaps : collectLookaheads g sets fuel l0Items = .ok maps) : Collected g l0Items maps := by
  have hempty : Collected g [] .empty := by
    refine ⟨fun p l => ?_, fun l0Item target => ?_⟩
    · simp [LookaheadMaps.empty]
    · simp [LookaheadMaps.empty, LookaheadMaps.propagated]
  exact hempty.append h hmaps

/-- A lookahead of the kernel item arises for its production, or it is the end
of the input behind the root production. -/
def Starts (g : ParserGrammar) (l0Items : List Item) (item : Item) (l : Nat) : Prop :=
  (l ≠ cNullSymbol ∧ ∃ l0Item ∈ l0Items, ∃ d, Closes g l0Item ⟨item.production, d, l⟩) ∨
    item.production = g.rootProductionId ∧ l = SymbolId.tokenEnd.toNat

theorem mem_startLookahead (hmaps : Collected g l0Items maps) {lookaheads : Item → OrderedSet Nat} :
    l ∈ startLookahead g maps lookaheads l0Item item ↔
      (item = l0Item ∧ Starts g l0Items item l) ∨ l ∈ lookaheads item := by
  unfold startLookahead Propagation.assign Starts
  rw [← hmaps.spontaneous]
  split
  · rename_i hitem
    subst hitem
    split
    · rename_i hroot
      rw [OrderedSet.mem_insert, OrderedSet.mem_insertAll, ← OrderedSet.mem_def]
      tauto
    · rename_i hroot
      rw [OrderedSet.mem_insertAll, ← OrderedSet.mem_def]
      tauto
  · rename_i hitem
    simp [hitem]

theorem mem_startLookaheads (hmaps : Collected g l0Items maps) :
    l ∈ startLookaheads g maps l0Items item ↔ item ∈ l0Items ∧ Starts g l0Items item l := by
  have hfold : ∀ (later : List Item) (lookaheads : Item → OrderedSet Nat),
      l ∈ later.foldl (startLookahead g maps) lookaheads item ↔
        (item ∈ later ∧ Starts g l0Items item l) ∨ l ∈ lookaheads item := by
    intro later
    induction later with
    | nil => simp
    | cons first later ih =>
      intro lookaheads
      rw [List.foldl_cons, ih, mem_startLookahead hmaps, List.mem_cons]
      tauto
  unfold startLookaheads
  rw [hfold]
  simp

/-- `target` has the production and the dot of an item one symbol further in the
closure of `item`, and its lookaheads are handed on. -/
def Hands (g : ParserGrammar) (l0Items : List Item) (item target : Item) : Prop :=
  item ∈ l0Items ∧ ∃ p d, Closes g item ⟨p, d, cNullSymbol⟩ ∧ d < (g.rule p).body.length ∧
    target = ⟨p, d + 1, cNullSymbol⟩

/-- The lookaheads of the items of the kernels. -/
structure Lookaheads (g : ParserGrammar) (l0Items : List Item) (lookaheads : Item → OrderedSet Nat) :
    Prop where
  mem_iff : ∀ item l, l ∈ lookaheads item ↔ ∃ start ∈ l0Items, Starts g l0Items start l ∧
    Relation.ReflTransGen (Hands g l0Items) start item

theorem lookaheads_of_generateLookaheads (h : sets.Exact g.terminals.toList g.productions)
    {lookaheads : Item → OrderedSet Nat}
    (hlookaheads : generateLookaheads g sets fuel l0Items = .ok lookaheads) :
    Lookaheads g l0Items lookaheads := by
  obtain ⟨maps, hmaps, hpropagate⟩ := exists_of_bind_eq_ok hlookaheads
  have hmaps := collected_of_collectLookaheads h hmaps
  have hresult := Propagation.result_of_propagate hpropagate
  refine ⟨fun item l => ?_⟩
  rw [hresult.mem_iff]
  have hpath : Propagation.Path maps.edges = Relation.ReflTransGen (Hands g l0Items) := by
    unfold Propagation.Path
    congr 1
    funext item target
    rw [mem_edges, hmaps.propagated]
    rfl
  simp only [hpath, mem_startLookaheads hmaps, and_assoc]

end Lookaheads

end Lalr1Parser

end LogSurgeon
