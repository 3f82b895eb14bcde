import LogSurgeon.SchemaParser.Lookaheads

/-!
# The LR(1) item sets of a grammar

The end of `generate_lr1_item_sets`: every kernel gets its lookaheads and a
closure, and the sets are connected as the table of the LR(0) sets says.

* `m_lr1_item_sets` is ordered by the kernels with their lookaheads, and of two
  sets with one kernel the later one stays.
* `ParserGrammar.Reduced` is what the sets rely on.  A symbol of a body from
  which no terminals can be derived leaves items without lookaheads, and then
  sets that differ get one kernel.

`isLr1_of_generateLr1ItemSets`: no set is lost, the sets have the items that
their kernels lead to, and a set has an edge for every symbol behind a dot.
-/

namespace LogSurgeon

open Lib Lib.Grammar

/-- The head of the root production is in no body, `cNullSymbol` is no terminal,
and every symbol of a body derives terminals. -/
structure ParserGrammar.Reduced (g : ParserGrammar) : Prop where
  root_fresh : ∀ p ∈ g.productions, (g.rule g.rootProductionId).head ∉ p.body
  null_fresh : cNullSymbol ∉ g.terminals
  productive : ∀ p ∈ g.productions, ∀ s ∈ p.body,
    ∃ w, (∀ t ∈ w, t ∈ g.terminals) ∧ Derives g.productions [s] w

namespace Lalr1Parser

/-! ## The sets -/

structure Lr1ItemSet where
  index : Nat
  closure : OrderedSet Item

/-- `m_lr1_item_sets` and the index of the root set. -/
structure Lr1ItemSets where
  itemSets : OrderedMap (OrderedSet Item) Lr1ItemSet
  root : Option Nat

/-- The keys of `m_lr0_item_sets` in their order. -/
def kernels (n : Numbering (OrderedSet Item) Nat) : List (OrderedSet Item) :=
  (OrderedSet.empty.insertAll n.nodes).toList

def kernelItems (n : Numbering (OrderedSet Item) Nat) : List Item :=
  (kernels n).flatMap fun kernel => kernel.toList

def lr1Kernel (lookaheads : Item → OrderedSet Nat) (kernel : OrderedSet Item) : OrderedSet Item :=
  OrderedSet.empty.insertAll (kernel.toList.flatMap fun item =>
    (lookaheads item).toList.map fun l => ⟨item.production, item.dot, l⟩)

def addItemSet (g : ParserGrammar) (sets : FirstSets) (fuel : Nat)
    (n : Numbering (OrderedSet Item) Nat) (lookaheads : Item → OrderedSet Nat)
    (lr1 : Lr1ItemSets) (kernel : OrderedSet Item) : Except Fault Lr1ItemSets := do
  let index := n.nodes.idxOf kernel
  let isRoot := kernel.toList.any fun item =>
    item.production = g.rootProductionId ∧ item.dot = 0
  let closure ← generateLr1Closure g sets fuel (lr1Kernel lookaheads kernel)
  return {
    itemSets := lr1.itemSets.insertOrAssign (lr1Kernel lookaheads kernel) ⟨index, closure⟩
    root := if isRoot then some index else lr1.root }

def generateLr1ItemSets (g : ParserGrammar) (sets : FirstSets) (fuel : Nat)
    (n : Numbering (OrderedSet Item) Nat) : Except Fault Lr1ItemSets := do
  let lookaheads ← generateLookaheads g sets fuel (kernelItems n)
  (kernels n).foldlM (addItemSet g sets fuel n lookaheads) { itemSets := .empty, root := none }

/-- `m_next`: the set with the index that the table of the LR(0) sets gives. -/
def Lr1ItemSets.next (lr1 : Lr1ItemSets) (n : Numbering (OrderedSet Item) Nat) (i s : Nat) :
    Option Nat :=
  (n.edges i s).filter fun j => lr1.itemSets.toList.any fun e => e.2.index = j

section Sets

variable {g : ParserGrammar} {sets : FirstSets} {fuel i j l s : Nat} {item : Item}
  {n : Numbering (OrderedSet Item) Nat} {lookaheads : Item → OrderedSet Nat}
  {kernel kernel' closure : OrderedSet Item} {l0Items : List Item}

theorem mem_kernels : kernel ∈ kernels n ↔ kernel ∈ n.nodes := by
  unfold kernels
  rw [← OrderedSet.mem_def, OrderedSet.mem_insertAll]
  simp

theorem mem_kernelItems : item ∈ kernelItems n ↔
    ∃ (i : Nat) (kernel : OrderedSet Item), n.nodes[i]? = some kernel ∧ item ∈ kernel := by
  unfold kernelItems
  rw [List.mem_flatMap]
  constructor
  · rintro ⟨kernel, hkernel, hitem⟩
    obtain ⟨i, hi⟩ := List.mem_iff_getElem?.1 (mem_kernels.1 hkernel)
    exact ⟨i, kernel, hi, hitem⟩
  · rintro ⟨i, kernel, hi, hitem⟩
    exact ⟨kernel, mem_kernels.2 (List.mem_of_getElem? hi), hitem⟩

theorem mem_lr1Kernel : item ∈ lr1Kernel lookaheads kernel ↔
    ∃ item' ∈ kernel, item'.production = item.production ∧ item'.dot = item.dot ∧
      item.lookahead ∈ lookaheads item' := by
  unfold lr1Kernel
  rw [OrderedSet.mem_insertAll, List.mem_flatMap]
  constructor
  · rintro (⟨item', hitem', hmem⟩ | hmem)
    · obtain ⟨l, hl, rfl⟩ := List.mem_map.1 hmem
      exact ⟨item', hitem', rfl, rfl, hl⟩
    · exact absurd hmem (OrderedSet.not_mem_empty item)
  · rintro ⟨item', hitem', hproduction, hdot, hl⟩
    refine Or.inl ⟨item', hitem', List.mem_map.2 ⟨item.lookahead, hl, ?_⟩⟩
    rw [hproduction, hdot]

/-! ## What may come next -/

/-- A part of a body can be followed by some token. -/
theorem exists_leads (hg : g.Reduced) {p : Production Nat} (hp : p ∈ g.productions)
    {body : List Nat} (hbody : ∀ s ∈ body, s ∈ p.body) (lookahead : Nat) :
    ∃ l, ParserGrammar.Leads g body lookahead l := by
  have hderives : ∃ w, (∀ t ∈ w, t ∈ g.terminals) ∧ Derives g.productions body w := by
    induction body with
    | nil => exact ⟨[], by simp, .refl⟩
    | cons s body ih =>
      obtain ⟨hs, hbody⟩ := List.forall_mem_cons.1 hbody
      obtain ⟨w, hw, hfirst⟩ := hg.productive p hp s hs
      obtain ⟨w', hw', hrest⟩ := ih hbody
      have hleft := hfirst.append [] body
      have hright := hrest.append w []
      rw [List.append_nil, List.append_nil] at hright
      exact ⟨w ++ w', List.forall_mem_append.2 ⟨hw, hw'⟩, hleft.trans hright⟩
  obtain ⟨w, hw, hderives⟩ := hderives
  cases w with
  | nil => exact ⟨lookahead, Or.inr ⟨forall_null_of_derives hderives, rfl⟩⟩
  | cons t w => exact ⟨t, Or.inl (beginsWith_of_derives (hw t List.mem_cons_self) hderives)⟩

/-- What comes next is a terminal, or it is the lookahead for any other one
too. -/
theorem leads_cases {body : List Nat} {lookahead : Nat}
    (h : ParserGrammar.Leads g body lookahead l) :
    (l ∈ g.terminals ∧ ∀ lookahead', ParserGrammar.Leads g body lookahead' l) ∨
      (l = lookahead ∧ ∀ lookahead', ParserGrammar.Leads g body lookahead' lookahead') := by
  rcases h with hbegins | ⟨hnull, hl⟩
  · obtain ⟨-, s, -, -, -, hfirst⟩ := hbegins.exists_split
    exact Or.inl ⟨hfirst.isToken, fun _ => Or.inl hbegins⟩
  · exact Or.inr ⟨hl, fun _ => Or.inr ⟨hnull, rfl⟩⟩

/-! ## The closures -/

/-- An item of a closure comes from one item of the kernel: its lookahead arises
on the way, or it is one of that item. -/
theorem exists_closes (hg : g.Reduced) (h : Lr1Closure g (lr1Kernel lookaheads kernel) item)
    (hnull : ∀ item ∈ kernel, item.lookahead = cNullSymbol) :
    ∃ l0Item ∈ kernel, (item.lookahead ≠ cNullSymbol ∧ Closes g l0Item item) ∨
      (item.lookahead ∈ lookaheads l0Item ∧
        Closes g l0Item ⟨item.production, item.dot, cNullSymbol⟩) := by
  induction h with
  | @kernel item hmem =>
    obtain ⟨item', hitem', hproduction, hdot, hl⟩ := mem_lr1Kernel.1 hmem
    refine ⟨item', hitem', Or.inr ⟨hl, .kernel ?_⟩⟩
    rw [OrderedSet.mem_insert, ← hproduction, ← hdot, ← hnull item' hitem']
    exact Or.inl rfl
  | @expand item s i l _ hnext hs hlt hhead hleads ih =>
    obtain ⟨k, hk, ⟨hne, hclose⟩ | ⟨hl, hclose⟩⟩ := ih
    · refine ⟨k, hk, Or.inl ⟨?_, hclose.expand hnext hs hlt hhead hleads⟩⟩
      rcases leads_cases hleads with ⟨hterminal, -⟩ | ⟨rfl, -⟩
      · intro heq
        have heq : l = cNullSymbol := heq
        exact hg.null_fresh (heq ▸ hterminal)
      · exact hne
    · rcases leads_cases hleads with ⟨hterminal, hany⟩ | ⟨rfl, hany⟩
      · refine ⟨k, hk, Or.inl ⟨fun heq => ?_, hclose.expand hnext hs hlt hhead (hany _)⟩⟩
        have heq : l = cNullSymbol := heq
        exact hg.null_fresh (heq ▸ hterminal)
      · exact ⟨k, hk, Or.inr ⟨hl, hclose.expand hnext hs hlt hhead (hany _)⟩⟩

/-- Without the lookaheads it is an item of the LR(0) closure. -/
theorem lr0Closure_of_lr1Closure (h : Lr1Closure g (lr1Kernel lookaheads kernel) item)
    (hnull : ∀ item ∈ kernel, item.lookahead = cNullSymbol) :
    Lr0Closure g kernel ⟨item.production, item.dot, cNullSymbol⟩ := by
  induction h with
  | @kernel item hmem =>
    obtain ⟨item', hitem', hproduction, hdot, -⟩ := mem_lr1Kernel.1 hmem
    rw [← hproduction, ← hdot, ← hnull item' hitem']
    exact .kernel hitem'
  | expand _ hnext hs hlt hhead _ ih => exact ih.expand hnext hs hlt hhead

/-- Every item of the LR(0) closure has a lookahead, if those of the kernel
do. -/
theorem exists_lr1Closure (hg : g.Reduced) (h : Lr0Closure g kernel item)
    (hproductions : ∀ item, Lr0Closure g kernel item → item.production < g.productions.length)
    {kernel' : OrderedSet Item}
    (hkernel : ∀ item ∈ kernel, ∃ l, (⟨item.production, item.dot, l⟩ : Item) ∈ kernel') :
    ∃ l, Lr1Closure g kernel' ⟨item.production, item.dot, l⟩ := by
  induction h with
  | kernel hmem =>
    obtain ⟨l, hl⟩ := hkernel _ hmem
    exact ⟨l, .kernel hl⟩
  | @expand item s i hclosed hnext hs hlt hhead ih =>
    obtain ⟨l, hl⟩ := ih
    obtain ⟨l', hleads⟩ := exists_leads hg (g.rule_mem (hproductions item hclosed))
      (fun s hs => List.mem_of_mem_drop hs) l
    exact ⟨l', .expand hl hnext hs hlt hhead hleads⟩

/-- Every item of the LR(0) closure comes from one item of the kernel. -/
theorem exists_closes_of_lr0Closure (hg : g.Reduced) (h : Lr0Closure g kernel item)
    (hproductions : ∀ item, Lr0Closure g kernel item → item.production < g.productions.length)
    (hnull : ∀ item ∈ kernel, item.lookahead = cNullSymbol) :
    ∃ l0Item ∈ kernel, ∃ l, Closes g l0Item ⟨item.production, item.dot, l⟩ := by
  induction h with
  | @kernel item hmem =>
    refine ⟨item, hmem, cNullSymbol, .kernel ?_⟩
    rw [OrderedSet.mem_insert, ← hnull item hmem]
    exact Or.inl rfl
  | @expand item s i hclosed hnext hs hlt hhead ih =>
    obtain ⟨k, hk, l, hl⟩ := ih
    obtain ⟨l', hleads⟩ := exists_leads hg (g.rule_mem (hproductions item hclosed))
      (fun s hs => List.mem_of_mem_drop hs) l
    exact ⟨k, hk, l', .expand hl hnext hs hlt hhead hleads⟩

/-! ## The lookaheads along the edges -/

theorem null_of_mem_kernel (hn : IsLr0 g n) (hkernel : n.nodes[i]? = some kernel) :
    ∀ item ∈ kernel, item.lookahead = cNullSymbol :=
  fun _ hitem => (hn.item_spec ⟨kernel, hkernel, .kernel hitem⟩).2

/-- What an item of a closure brings to the next set. -/
theorem mem_lookaheads_next (hn : IsLr0 g n) (hl : Lookaheads g (kernelItems n) lookaheads)
    (hkernel : n.nodes[i]? = some kernel) {k : Item} (hk : k ∈ kernel) (item : Item)
    (hitem : Lr0Item g n i ⟨item.production, item.dot, cNullSymbol⟩)
    (hnext : g.nextSymbol item = some s)
    (hclose : (item.lookahead ≠ cNullSymbol ∧ Closes g k item ∧ l = item.lookahead) ∨
      (l ∈ lookaheads k ∧ Closes g k ⟨item.production, item.dot, cNullSymbol⟩)) :
    l ∈ lookaheads ⟨item.production, item.dot + 1, cNullSymbol⟩ := by
  have hmem : k ∈ kernelItems n := mem_kernelItems.2 ⟨i, kernel, hkernel, hk⟩
  rcases hclose with ⟨hne, hclose, rfl⟩ | ⟨hold, hclose⟩
  · obtain ⟨j, hj⟩ := hn.exists_edge _ _ _ hitem hnext
    obtain ⟨kernel', hkernel', -, hiff⟩ := hn.edge _ _ _ hj
    refine (hl.mem_iff _ _).2 ⟨_, mem_kernelItems.2 ⟨j, kernel', hkernel', (hiff _).2
      ⟨_, hitem, hnext, rfl⟩⟩, Or.inl ⟨hne, k, hmem, item.dot, hclose⟩, .refl⟩
  · obtain ⟨start, hstart, harises, hpath⟩ := (hl.mem_iff _ _).1 hold
    obtain ⟨hlt, -⟩ := List.getElem?_eq_some_iff.1 hnext
    exact (hl.mem_iff _ _).2 ⟨start, hstart, harises,
      hpath.tail ⟨hmem, item.production, item.dot, hclose, hlt, rfl⟩⟩

/-- No item of a kernel is without a lookahead. -/
theorem exists_lookahead (hg : g.Reduced) (hn : IsLr0 g n)
    (hl : Lookaheads g (kernelItems n) lookaheads) (hkernel : n.nodes[i]? = some kernel)
    (hitem : item ∈ kernel) : ∃ l, l ∈ lookaheads item := by
  have hall : ∀ i < n.nodes.length, ∀ kernel, n.nodes[i]? = some kernel → ∀ item ∈ kernel,
      ∃ l, l ∈ lookaheads item := by
    refine hn.forall_sets (fun kernel hkernel item hitem => ?_) fun i s j hedge ih kernel hkernel
      item hitem => ?_
    · rcases hn.kernel_cases hkernel hitem with ⟨-, rfl⟩ | ⟨hzero, -⟩
      · exact ⟨SymbolId.tokenEnd.toNat, (hl.mem_iff _ _).2 ⟨rootItem g,
          mem_kernelItems.2 ⟨0, kernel, hkernel, hitem⟩, Or.inr ⟨rfl, rfl⟩, .refl⟩⟩
      · exact absurd rfl hzero
    · obtain ⟨kernel', hkernel', -, hiff⟩ := hn.edge _ _ _ hedge
      rw [hkernel] at hkernel'
      cases hkernel'
      obtain ⟨item', hitem', hnext, rfl⟩ := (hiff item).1 hitem
      obtain ⟨kernel₀, hkernel₀, hclosed⟩ := hitem'
      have hspec : ∀ item, Lr0Closure g kernel₀ item → item.production < g.productions.length :=
        fun item h => (hn.item_spec ⟨kernel₀, hkernel₀, h⟩).1
      obtain ⟨k, hk, l, hclose⟩ := exists_closes_of_lr0Closure hg hclosed hspec
        (null_of_mem_kernel hn hkernel₀)
      have hnull := (hn.item_spec ⟨kernel₀, hkernel₀, hclosed⟩).2
      have hitem₀ : Lr0Item g n i ⟨item'.production, item'.dot, cNullSymbol⟩ := by
        rw [← hnull]
        exact ⟨kernel₀, hkernel₀, hclosed⟩
      rw [hnull]
      by_cases hne : l = cNullSymbol
      · subst hne
        obtain ⟨l, hold⟩ := ih kernel₀ hkernel₀ k hk
        exact ⟨l, mem_lookaheads_next hn hl hkernel₀ hk item' hitem₀ hnext
          (Or.inr ⟨hold, hclose⟩)⟩
      · exact ⟨l, mem_lookaheads_next hn hl hkernel₀ hk ⟨item'.production, item'.dot, l⟩ hitem₀
          hnext (Or.inl ⟨hne, hclose, rfl⟩)⟩
  obtain ⟨hi, -⟩ := List.getElem?_eq_some_iff.1 hkernel
  exact hall i hi kernel hkernel item hitem

/-- Two sets with the same lookaheads have the same kernel. -/
theorem lr1Kernel_injective (hg : g.Reduced) (hn : IsLr0 g n)
    (hl : Lookaheads g (kernelItems n) lookaheads) (hkernel : kernel ∈ n.nodes)
    (hkernel' : kernel' ∈ n.nodes)
    (h : lr1Kernel lookaheads kernel = lr1Kernel lookaheads kernel') : kernel = kernel' := by
  have hsubset : ∀ {kernel kernel'}, kernel ∈ n.nodes → kernel' ∈ n.nodes →
      lr1Kernel lookaheads kernel = lr1Kernel lookaheads kernel' →
      ∀ item ∈ kernel, item ∈ kernel' := by
    intro kernel kernel' hmem hmem' h item hitem
    obtain ⟨i, hi⟩ := List.mem_iff_getElem?.1 hmem
    obtain ⟨j, hj⟩ := List.mem_iff_getElem?.1 hmem'
    obtain ⟨l, hlook⟩ := exists_lookahead hg hn hl hi hitem
    have hlr1 : (⟨item.production, item.dot, l⟩ : Item) ∈ lr1Kernel lookaheads kernel' := by
      rw [← h, mem_lr1Kernel]
      exact ⟨item, hitem, rfl, rfl, hlook⟩
    obtain ⟨item', hitem', hproduction, hdot, -⟩ := mem_lr1Kernel.1 hlr1
    have hsame : item' = item := by
      have hnull := null_of_mem_kernel hn hi item hitem
      have hnull' := null_of_mem_kernel hn hj item' hitem'
      cases item
      cases item'
      simp_all
    rwa [← hsame]
  exact OrderedSet.ext fun item =>
    ⟨hsubset hkernel hkernel' h item, hsubset hkernel' hkernel h.symm item⟩

/-! ## The numbered sets with lookaheads -/

/-- The items of the set `i`. -/
def Lr1Item (g : ParserGrammar) (n : Numbering (OrderedSet Item) Nat)
    (lookaheads : Item → OrderedSet Nat) (i : Nat) (item : Item) : Prop :=
  ∃ kernel, n.nodes[i]? = some kernel ∧ Lr1Closure g (lr1Kernel lookaheads kernel) item

/-- Each numbered set has one entry, and its closure. -/
structure HasSets (g : ParserGrammar) (n : Numbering (OrderedSet Item) Nat)
    (lookaheads : Item → OrderedSet Nat) (done : List (OrderedSet Item)) (lr1 : Lr1ItemSets) :
    Prop where
  entries : ∀ e, e ∈ lr1.itemSets.toList → ∃ kernel ∈ done,
    e.1 = lr1Kernel lookaheads kernel ∧ e.2.index = n.nodes.idxOf kernel ∧
      ∀ item, item ∈ e.2.closure ↔ Lr1Closure g e.1 item
  exists_entry : ∀ kernel ∈ done, ∃ e ∈ lr1.itemSets.toList, e.2.index = n.nodes.idxOf kernel
  root : lr1.root = if OrderedSet.empty.insert (rootItem g) ∈ done then some 0 else none

theorem HasSets.addItemSet (hg : g.Reduced) (hn : IsLr0 g n)
    (hexact : sets.Exact g.terminals.toList g.productions)
    (hl : Lookaheads g (kernelItems n) lookaheads) {done : List (OrderedSet Item)}
    {lr1 lr1' : Lr1ItemSets} (h : HasSets g n lookaheads done lr1)
    (hdone : ∀ kernel ∈ done, kernel ∈ n.nodes) (hkernel : kernel ∈ n.nodes)
    (hnew : kernel ∉ done)
    (hadd : Lalr1Parser.addItemSet g sets fuel n lookaheads lr1 kernel = .ok lr1') :
    HasSets g n lookaheads (done ++ [kernel]) lr1' := by
  obtain ⟨closure, hclosure, hadd⟩ := exists_of_bind_eq_ok hadd
  cases hadd
  have hmem : ∀ key set, (key, set) ∈ (lr1.itemSets.insertOrAssign (lr1Kernel lookaheads kernel)
      ⟨n.nodes.idxOf kernel, closure⟩).toList ↔
        (key = lr1Kernel lookaheads kernel ∧ set = ⟨n.nodes.idxOf kernel, closure⟩) ∨
          (key ≠ lr1Kernel lookaheads kernel ∧ (key, set) ∈ lr1.itemSets.toList) := by
    intro key set
    rw [OrderedMap.mem_toList_iff, OrderedMap.mem_toList_iff, OrderedMap.find?_insertOrAssign]
    split
    · rename_i hkey
      simp [hkey, eq_comm]
    · rename_i hkey
      simp [hkey]
  refine ⟨fun e he => ?_, fun kernel' hkernel' => ?_, ?_⟩
  · obtain ⟨key, set⟩ := e
    rcases (hmem key set).1 he with ⟨rfl, rfl⟩ | ⟨-, hold⟩
    · exact ⟨kernel, by simp, rfl, rfl, fun item => mem_generateLr1Closure hexact hclosure⟩
    · obtain ⟨kernel', hkernel', hrest⟩ := h.entries _ hold
      exact ⟨kernel', List.mem_append_left _ hkernel', hrest⟩
  · rcases List.mem_append.1 hkernel' with hold | hlast
    · obtain ⟨⟨key, set⟩, he, hindex⟩ := h.exists_entry kernel' hold
      refine ⟨(key, set), (hmem key set).2 (Or.inr ⟨fun hkey => ?_, he⟩), hindex⟩
      obtain ⟨kernel₁, hkernel₁, hkey₁, -⟩ := h.entries _ he
      have hsame := lr1Kernel_injective hg hn hl (hdone kernel₁ hkernel₁) hkernel
        (hkey₁.symm.trans hkey)
      exact hnew (hsame ▸ hkernel₁)
    · rw [List.mem_singleton.1 hlast]
      exact ⟨_, (hmem _ _).2 (Or.inl ⟨rfl, rfl⟩), rfl⟩
  · obtain ⟨i, hi⟩ := List.mem_iff_getElem?.1 hkernel
    have hisRoot : (kernel.toList.any fun item =>
        item.production = g.rootProductionId ∧ item.dot = 0) = true ↔
        kernel = OrderedSet.empty.insert (rootItem g) := by
      rw [List.any_eq_true]
      constructor
      · rintro ⟨item, hitem, hroot⟩
        obtain ⟨-, hdot⟩ := of_decide_eq_true hroot
        rcases hn.kernel_cases hi (OrderedSet.mem_def.2 hitem) with ⟨rfl, -⟩ | ⟨-, hmoved⟩
        · exact Option.some.inj (hi.symm.trans hn.root)
        · exact absurd hdot hmoved
      · rintro rfl
        exact ⟨rootItem g, OrderedSet.mem_insert.2 (Or.inl rfl), by simp [rootItem]⟩
    show (if _ then _ else _) = _
    split
    · rename_i hroot
      have hroot := hisRoot.1 hroot
      have hindex : n.nodes.idxOf kernel = 0 := by
        obtain ⟨hlt, hget⟩ := List.getElem?_eq_some_iff.1 hn.root
        rw [hroot, ← hget]
        exact hn.nodup.idxOf_getElem 0 hlt
      rw [if_pos (by simp [hroot]), hindex]
    · rename_i hroot
      have hother : OrderedSet.empty.insert (rootItem g) ∈ done ++ [kernel] ↔
          OrderedSet.empty.insert (rootItem g) ∈ done := by
        rw [List.mem_append, List.mem_singleton]
        exact ⟨fun h => h.resolve_right fun heq => hroot (hisRoot.2 heq.symm), Or.inl⟩
      rw [h.root]
      simp only [hother]

theorem HasSets.foldlM (hg : g.Reduced) (hn : IsLr0 g n)
    (hexact : sets.Exact g.terminals.toList g.productions)
    (hl : Lookaheads g (kernelItems n) lookaheads) {done later : List (OrderedSet Item)}
    {lr1 lr1' : Lr1ItemSets} (h : HasSets g n lookaheads done lr1)
    (hnodes : ∀ kernel ∈ done ++ later, kernel ∈ n.nodes) (hnodup : (done ++ later).Nodup)
    (hfold : later.foldlM (Lalr1Parser.addItemSet g sets fuel n lookaheads) lr1 = .ok lr1') :
    HasSets g n lookaheads (done ++ later) lr1' := by
  induction later generalizing done lr1 with
  | nil =>
    cases hfold
    rwa [List.append_nil]
  | cons kernel later ih =>
    rw [List.foldlM_cons] at hfold
    obtain ⟨lr1₁, hadd, hrest⟩ := exists_of_bind_eq_ok hfold
    have hnew : kernel ∉ done := by
      intro hmem
      exact (List.nodup_append.1 hnodup).2.2 kernel hmem kernel List.mem_cons_self rfl
    have hstep := h.addItemSet hg hn hexact hl
      (fun kernel hkernel => hnodes kernel (List.mem_append_left _ hkernel))
      (hnodes kernel (by simp)) hnew hadd
    rw [List.append_cons] at hnodes hnodup ⊢
    exact ih hstep hnodes hnodup hrest

/-- The sets of the grammar, with the edges of the LR(0) sets. -/
structure IsLr1 (g : ParserGrammar) (n : Numbering (OrderedSet Item) Nat)
    (lookaheads : Item → OrderedSet Nat) (lr1 : Lr1ItemSets) : Prop where
  lr0 : IsLr0 g n
  looks : Lookaheads g (kernelItems n) lookaheads
  closure : ∀ e ∈ lr1.itemSets.toList, e.2.index < n.nodes.length ∧
    ∀ item, item ∈ e.2.closure ↔ Lr1Item g n lookaheads e.2.index item
  exists_set : ∀ i < n.nodes.length, ∃ e ∈ lr1.itemSets.toList, e.2.index = i
  unique : ∀ e ∈ lr1.itemSets.toList, ∀ e' ∈ lr1.itemSets.toList, e.2.index = e'.2.index → e = e'
  root : lr1.root = some 0
  next : ∀ i s, lr1.next n i s = n.edges i s

theorem isLr1_of_generateLr1ItemSets (hg : g.Reduced) (hn : IsLr0 g n)
    (hexact : sets.Exact g.terminals.toList g.productions) {lr1 : Lr1ItemSets}
    (h : generateLr1ItemSets g sets fuel n = .ok lr1) :
    ∃ lookaheads, IsLr1 g n lookaheads lr1 := by
  obtain ⟨lookaheads, hlookaheads, hfold⟩ := exists_of_bind_eq_ok h
  have hl := lookaheads_of_generateLookaheads hexact hlookaheads
  have hempty : HasSets g n lookaheads [] { itemSets := .empty, root := none } :=
    ⟨fun e he => absurd he List.not_mem_nil, fun kernel hkernel => absurd hkernel List.not_mem_nil,
      rfl⟩
  have hsets : HasSets g n lookaheads (kernels n) lr1 := hempty.foldlM hg hn hexact hl
    (fun kernel hkernel => mem_kernels.1 hkernel) (OrderedSet.nodup _) hfold
  have hindex : ∀ {i : Nat} {kernel : OrderedSet Item}, n.nodes[i]? = some kernel →
      n.nodes.idxOf kernel = i := by
    intro i kernel hkernel
    obtain ⟨hlt, rfl⟩ := List.getElem?_eq_some_iff.1 hkernel
    exact hn.nodup.idxOf_getElem i hlt
  have hentry : ∀ e ∈ lr1.itemSets.toList, ∃ kernel, n.nodes[e.2.index]? = some kernel ∧
      e.1 = lr1Kernel lookaheads kernel ∧ ∀ item, item ∈ e.2.closure ↔ Lr1Closure g e.1 item := by
    intro e he
    obtain ⟨kernel, hkernel, hkey, hidx, hclosure⟩ := hsets.entries e he
    obtain ⟨i, hi⟩ := List.mem_iff_getElem?.1 (mem_kernels.1 hkernel)
    rw [hindex hi] at hidx
    exact ⟨kernel, hidx ▸ hi, hkey, hclosure⟩
  have hexists : ∀ i < n.nodes.length, ∃ e ∈ lr1.itemSets.toList, e.2.index = i := by
    intro i hi
    obtain ⟨e, he, hidx⟩ :=
      hsets.exists_entry n.nodes[i] (mem_kernels.2 (List.getElem_mem hi))
    rw [hindex (List.getElem?_eq_getElem hi)] at hidx
    exact ⟨e, he, hidx⟩
  refine ⟨lookaheads, hn, hl, fun e he => ?_, hexists, fun e he e' he' hsame => ?_, ?_,
    fun i s => ?_⟩
  · obtain ⟨kernel, hkernel, hkey, hclosure⟩ := hentry e he
    obtain ⟨hlt, -⟩ := List.getElem?_eq_some_iff.1 hkernel
    refine ⟨hlt, fun item => ?_⟩
    rw [hclosure, hkey]
    constructor
    · exact fun hitem => ⟨kernel, hkernel, hitem⟩
    · rintro ⟨kernel', hkernel', hitem⟩
      rw [hkernel] at hkernel'
      cases hkernel'
      exact hitem
  · obtain ⟨kernel, hkernel, hkey, -⟩ := hentry e he
    obtain ⟨kernel', hkernel', hkey', -⟩ := hentry e' he'
    rw [hsame, hkernel'] at hkernel
    cases hkernel
    obtain ⟨key, set⟩ := e
    obtain ⟨key', set'⟩ := e'
    obtain rfl : key = key' := hkey.trans hkey'.symm
    rw [OrderedMap.mem_toList_iff] at he he'
    rw [he] at he'
    cases he'
    rfl
  · rw [hsets.root, if_pos (mem_kernels.2 (List.mem_of_getElem? hn.root))]
  · unfold Lr1ItemSets.next
    cases hedge : n.edges i s with
    | none => rfl
    | some j =>
      obtain ⟨kernel, hkernel, -⟩ := hn.edge _ _ _ hedge
      obtain ⟨hlt, -⟩ := List.getElem?_eq_some_iff.1 hkernel
      obtain ⟨e, he, hidx⟩ := hexists j hlt
      rw [Option.filter_some, if_pos]
      rw [List.any_eq_true]
      exact ⟨e, he, decide_eq_true hidx⟩

/-! ## The items of the sets -/

namespace IsLr1

variable {lr1 : Lr1ItemSets}

theorem lr0Item (h : IsLr1 g n lookaheads lr1) (hitem : Lr1Item g n lookaheads i item) :
    Lr0Item g n i ⟨item.production, item.dot, cNullSymbol⟩ := by
  obtain ⟨kernel, hkernel, hclosed⟩ := hitem
  exact ⟨kernel, hkernel, lr0Closure_of_lr1Closure hclosed (null_of_mem_kernel h.lr0 hkernel)⟩

theorem exists_lr1Item (h : IsLr1 g n lookaheads lr1) (hg : g.Reduced)
    (hitem : Lr0Item g n i item) :
    ∃ l, Lr1Item g n lookaheads i ⟨item.production, item.dot, l⟩ := by
  obtain ⟨kernel, hkernel, hclosed⟩ := hitem
  have hspec : ∀ item, Lr0Closure g kernel item → item.production < g.productions.length :=
    fun item hitem => (h.lr0.item_spec ⟨kernel, hkernel, hitem⟩).1
  obtain ⟨l, hl⟩ := exists_lr1Closure hg hclosed hspec fun item hitem => by
    obtain ⟨l, hl⟩ := exists_lookahead hg h.lr0 h.looks hkernel hitem
    exact ⟨l, mem_lr1Kernel.2 ⟨item, hitem, rfl, rfl, hl⟩⟩
  exact ⟨l, kernel, hkernel, hl⟩

/-- The dot of an item moves along an edge, and the lookahead stays. -/
theorem exists_edge (h : IsLr1 g n lookaheads lr1) (hg : g.Reduced)
    (hitem : Lr1Item g n lookaheads i item) (hnext : g.nextSymbol item = some s) :
    ∃ j, n.edges i s = some j ∧
      Lr1Item g n lookaheads j ⟨item.production, item.dot + 1, item.lookahead⟩ := by
  have hlr0 := h.lr0Item hitem
  obtain ⟨kernel, hkernel, hclosed⟩ := hitem
  obtain ⟨k, hk, hclose⟩ := exists_closes hg hclosed (null_of_mem_kernel h.lr0 hkernel)
  obtain ⟨j, hj⟩ := h.lr0.exists_edge _ _ _ hlr0 hnext
  obtain ⟨kernel', hkernel', -, hiff⟩ := h.lr0.edge _ _ _ hj
  have hlook := mem_lookaheads_next h.lr0 h.looks hkernel hk item hlr0 hnext
    (hclose.imp_left fun hclose => ⟨hclose.1, hclose.2, rfl⟩)
  exact ⟨j, hj, kernel', hkernel', .kernel (mem_lr1Kernel.2
    ⟨_, (hiff _).2 ⟨_, hlr0, hnext, rfl⟩, rfl, rfl, hlook⟩)⟩

/-- An item behind an edge comes from one in front of it. -/
theorem exists_back (h : IsLr1 g n lookaheads lr1) (hg : g.Reduced) (hedge : n.edges i s = some j)
    {p d : Nat} (hitem : Lr1Item g n lookaheads j ⟨p, d + 1, l⟩) :
    (g.rule p).body[d]? = some s ∧ ∃ l', Lr1Item g n lookaheads i ⟨p, d, l'⟩ := by
  obtain ⟨kernel, hkernel, -, hiff⟩ := h.lr0.edge _ _ _ hedge
  have hmem := IsLr0.mem_kernel hkernel (h.lr0Item hitem) (Nat.succ_ne_zero d)
  obtain ⟨item', hitem', hnext, heq⟩ := (hiff _).1 hmem
  obtain ⟨l', hl'⟩ := h.exists_lr1Item hg hitem'
  obtain ⟨p', d', lookahead⟩ := item'
  obtain ⟨rfl, hd, -⟩ := Item.mk.inj heq
  obtain rfl : d = d' := Nat.succ.inj hd
  exact ⟨hnext, l', hl'⟩

theorem rootItem (h : IsLr1 g n lookaheads lr1) :
    Lr1Item g n lookaheads 0 ⟨g.rootProductionId, 0, SymbolId.tokenEnd.toNat⟩ := by
  refine ⟨_, h.lr0.root, .kernel (mem_lr1Kernel.2 ⟨Lalr1Parser.rootItem g,
    OrderedSet.mem_insert.2 (Or.inl rfl), rfl, rfl, (h.looks.mem_iff _ _).2 ?_⟩)⟩
  exact ⟨Lalr1Parser.rootItem g, mem_kernelItems.2 ⟨0, _, h.lr0.root,
    OrderedSet.mem_insert.2 (Or.inl rfl)⟩, Or.inr ⟨rfl, rfl⟩, .refl⟩

end IsLr1

end Sets

end Lalr1Parser

end LogSurgeon
