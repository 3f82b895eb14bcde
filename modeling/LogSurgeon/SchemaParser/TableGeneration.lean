import LogSurgeon.SchemaParser.ParsingTable
import Mathlib.Data.Finset.Prod

/-!
# The generation of the tables ends

The loops of the generation take a bound on their steps.  Each of them works on
finitely many items or tokens, so from some bound on the generation returns the
same, and this is not that the bound was reached.

`settles_generate` is the result.  It holds of every grammar: one with a conflict
or with a symbol that has no productions fails, but does not keep a loop going.
-/

namespace LogSurgeon

open Lib Lib.Grammar

namespace Lalr1Parser

variable {g : ParserGrammar} {sets : FirstSets} {item : Item} {n : Numbering (OrderedSet Item) Nat}

/-! ## The closures -/

theorem productionsOf_ne (s : Nat) : g.productionsOf s ≠ .error .outOfSteps := by
  unfold ParserGrammar.productionsOf
  split <;> exact fun h => by cases h

theorem lr0Items_ne (item : Item) : lr0Items g item ≠ .error .outOfSteps := by
  unfold lr0Items
  split
  · exact fun h => by cases h
  · rename_i s _
    have hne := @productionsOf_ne g s
    cases hproductions : g.productionsOf s with
    | error fault =>
      intro h
      cases h
      exact hne hproductions
    | ok ps => exact fun h => by cases h

theorem lr1Items_ne (item : Item) : lr1Items g sets item ≠ .error .outOfSteps := by
  unfold lr1Items
  split
  · exact fun h => by cases h
  · rename_i s _
    have hne := @productionsOf_ne g s
    cases hproductions : g.productionsOf s with
    | error fault =>
      intro h
      cases h
      exact hne hproductions
    | ok ps => exact fun h => by cases h

theorem settles_generateLr0Closure (kernel : OrderedSet Item) :
    Settles .outOfSteps fun fuel => generateLr0Closure g fuel kernel := by
  refine StackClosure.settles_close (kernel.toList.toFinset ∪
    (Finset.range g.productions.length).image fun i => ⟨i, 0, cNullSymbol⟩) ?_ lr0Items_ne ?_
  · intro x _ xs hxs y hy
    obtain ⟨s, i, -, -, hi, -, rfl⟩ := (mem_lr0Items hxs).1 hy
    exact Finset.mem_union_right _ (Finset.mem_image.2 ⟨i, Finset.mem_range.2 hi, rfl⟩)
  · exact fun x hx => Finset.mem_union_left _ (List.mem_toFinset.2 hx)

/-- A new item has a lookahead of the kernel, or a terminal. -/
theorem settles_generateLr1Closure (h : sets.Exact g.terminals.toList g.productions)
    (kernel : OrderedSet Item) :
    Settles .outOfSteps fun fuel => generateLr1Closure g sets fuel kernel := by
  let lookaheads := (g.terminals.toList ++ kernel.toList.map Item.lookahead).toFinset
  let items := kernel.toList.toFinset ∪
    (Finset.range g.productions.length ×ˢ lookaheads).image fun e => (⟨e.1, 0, e.2⟩ : Item)
  have hlookahead : ∀ x ∈ items, x.lookahead ∈ lookaheads := by
    intro x hx
    rcases Finset.mem_union.1 hx with hx | hx
    · refine List.mem_toFinset.2 (List.mem_append_right _ ?_)
      exact List.mem_map_of_mem (List.mem_toFinset.1 hx)
    · obtain ⟨e, he, rfl⟩ := Finset.mem_image.1 hx
      exact (Finset.mem_product.1 he).2
  refine StackClosure.settles_close items ?_ lr1Items_ne ?_
  · intro x hx xs hxs y hy
    obtain ⟨s, i, l, -, -, hi, -, hleads, rfl⟩ := (mem_lr1Items h hxs).1 hy
    have hl : l ∈ lookaheads := by
      rcases leads_cases hleads with ⟨hterminal, -⟩ | ⟨rfl, -⟩
      · exact List.mem_toFinset.2 (List.mem_append_left _ hterminal)
      · exact hlookahead x hx
    exact Finset.mem_union_right _
      (Finset.mem_image.2 ⟨(i, l), Finset.mem_product.2 ⟨Finset.mem_range.2 hi, hl⟩, rfl⟩)
  · exact fun x hx => Finset.mem_union_left _ (List.mem_toFinset.2 hx)

/-! ## The item sets -/

/-- The dots of the items of the kernels are within the longest body. -/
theorem settles_generateLr0Kernels (g : ParserGrammar) :
    Settles .outOfSteps fun fuel => generateLr0Kernels g fuel := by
  let longest := (Finset.range g.productions.length).sup fun i => (g.rule i).body.length
  let items := (Finset.range g.productions.length ×ˢ Finset.range (longest + 1)).image
    fun e => (⟨e.1, e.2, cNullSymbol⟩ : Item)
  have hitems : ∀ i d, i < g.productions.length → d ≤ longest →
      (⟨i, d, cNullSymbol⟩ : Item) ∈ items := by
    intro i d hi hd
    refine Finset.mem_image.2 ⟨(i, d), Finset.mem_product.2 ⟨Finset.mem_range.2 hi, ?_⟩, rfl⟩
    exact Finset.mem_range.2 (Nat.lt_succ_of_le hd)
  obtain ⟨univ, huniv⟩ := Numbering.exists_univ items
  refine Numbering.settles_number univ ?_
    (fun kernel _ => (settles_generateLr0Closure kernel).map (goTo g)) ?_
  · rw [huniv]
    intro x hx
    rcases OrderedSet.mem_insert.1 hx with rfl | hx
    · exact hitems _ _ g.root_lt (Nat.zero_le _)
    · exact absurd hx (OrderedSet.not_mem_empty x)
  · intro fuel kernel successor s next hkernel hexpand _ hnext
    rw [huniv] at hkernel ⊢
    cases hclose : generateLr0Closure g fuel kernel with
    | error fault =>
      rw [hclose] at hexpand
      cases hexpand
    | ok closure =>
      rw [hclose] at hexpand
      cases hexpand
      intro x hx
      obtain ⟨item, hitem, hsymbol, rfl⟩ := (mem_goTo hnext).1 hx
      have hspec : item.production < g.productions.length ∧ item.lookahead = cNullSymbol := by
        have hclosed := (mem_generateLr0Closure hclose).1 hitem
        cases hclosed with
        | kernel hmem =>
          obtain ⟨e, he, rfl⟩ := Finset.mem_image.1 (hkernel item hmem)
          exact ⟨Finset.mem_range.1 (Finset.mem_product.1 he).1, rfl⟩
        | expand _ _ _ hlt => exact ⟨hlt, rfl⟩
      obtain ⟨hproduction, hnull⟩ := hspec
      obtain ⟨hdot, -⟩ := List.getElem?_eq_some_iff.1 hsymbol
      have hlongest : (g.rule item.production).body.length ≤ longest :=
        Finset.le_sup (f := fun i => (g.rule i).body.length) (Finset.mem_range.2 hproduction)
      rw [hnull]
      exact hitems _ _ hproduction (by omega)

theorem settles_generateLookaheads (h : sets.Exact g.terminals.toList g.productions)
    (l0Items : List Item) :
    Settles .outOfSteps fun fuel => generateLookaheads g sets fuel l0Items := by
  have hcollect : Settles .outOfSteps fun fuel => collectLookaheads g sets fuel l0Items :=
    Settles.foldlM (fun maps l0Item _ =>
      (settles_generateLr1Closure h (OrderedSet.empty.insert l0Item)).bind
        fun closure _ _ => Settles.ok (closure.toList.foldl (LookaheadMaps.note g l0Item) maps)) _
  refine hcollect.bind fun maps fuel hmaps => ?_
  have hcollected := collected_of_collectLookaheads h hmaps
  refine Propagation.settles_propagate
    (l0Items.flatMap fun item => (startLookaheads g maps l0Items item).toList) ?_
  intro item l hl
  exact List.mem_flatMap.2 ⟨item, ((mem_startLookaheads hcollected).1 hl).1, hl⟩

theorem settles_generateLr1ItemSets (h : sets.Exact g.terminals.toList g.productions)
    (n : Numbering (OrderedSet Item) Nat) :
    Settles .outOfSteps fun fuel => generateLr1ItemSets g sets fuel n := by
  refine (settles_generateLookaheads h (kernelItems n)).bind fun lookaheads _ _ => ?_
  refine Settles.foldlM (fun lr1 kernel _ => ?_) _
  exact (settles_generateLr1Closure h (lr1Kernel lookaheads kernel)).bind
    fun closure _ _ => Settles.ok _

theorem settles_generateFirstSets (g : ParserGrammar) :
    Settles .outOfSteps fun fuel =>
      derefOr .outOfSteps (generateFirstSets g.terminals.toList g.productions fuel) := by
  obtain ⟨sets, hsets, -⟩ := FirstSets.exists_generateFirstSets
    (Nat.lt_succ_self (g.productions.length * (g.terminals.toList.length + 1)))
  refine (Settles.ok sets).congr
    (n := g.productions.length * (g.terminals.toList.length + 1) + 1) fun fuel hle => ?_
  have hmore : generateFirstSets g.terminals.toList g.productions fuel = some sets :=
    FirstSets.loop_mono hle hsets
  rw [hmore]
  rfl

theorem settles_generateItemSets (g : ParserGrammar) :
    Settles .outOfSteps fun fuel => generateItemSets g fuel := by
  refine (settles_generateLr0Kernels g).bind fun n _ _ => ?_
  refine (settles_generateFirstSets g).bind fun sets _ hsets => ?_
  have hexact := FirstSets.exact_of_generateFirstSets (eq_some_of_derefOr hsets)
  exact (settles_generateLr1ItemSets hexact n).bind fun lr1 _ _ => Settles.ok (n, lr1)

/-! ## Grammars whose symbols are defined -/

theorem exists_productionsOf_next (hg : g.Reduced) {s : Nat} (hnext : g.nextSymbol item = some s)
    (hs : s ∉ g.terminals) : ∃ ps, g.productionsOf s = .ok ps := by
  have hlt : item.production < g.productions.length := by
    by_contra hge
    unfold ParserGrammar.nextSymbol ParserGrammar.rule at hnext
    rw [List.getD_eq_getElem?_getD, List.getElem?_eq_none (Nat.not_lt.1 hge)] at hnext
    cases hnext
  have hbody : s ∈ (g.rule item.production).body := List.mem_of_getElem? hnext
  have hhead := (mem_of_mem_body hg (g.rule_mem hlt) hbody).resolve_left hs
  exact ⟨_, if_pos (List.contains_iff_mem.2 hhead)⟩

theorem exists_lr0Items (hg : g.Reduced) (item : Item) : ∃ items, lr0Items g item = .ok items := by
  unfold lr0Items
  split
  · exact ⟨[], rfl⟩
  · rename_i s hsome
    obtain ⟨hnext, hs⟩ := lrClosureHelper_eq_some_iff.1 hsome
    obtain ⟨ps, hps⟩ := exists_productionsOf_next hg hnext hs
    rw [hps]
    exact ⟨_, rfl⟩

theorem exists_lr1Items (hg : g.Reduced) (item : Item) :
    ∃ items, lr1Items g sets item = .ok items := by
  unfold lr1Items
  split
  · exact ⟨[], rfl⟩
  · rename_i s hsome
    obtain ⟨hnext, hs⟩ := lrClosureHelper_eq_some_iff.1 hsome
    obtain ⟨ps, hps⟩ := exists_productionsOf_next hg hnext hs
    rw [hps]
    exact ⟨_, rfl⟩

theorem failsAtBound_generateItemSets (hg : g.Reduced) (fuel : Nat) :
    FailsAtBound .outOfSteps (generateItemSets g fuel) := by
  have hlr1 : ∀ (sets : FirstSets) (kernel : OrderedSet Item),
      FailsAtBound .outOfSteps (generateLr1Closure g sets fuel kernel) :=
    fun sets kernel => StackClosure.failsAtBound_close (exists_lr1Items hg) fuel _
  have hkernels : FailsAtBound .outOfSteps (generateLr0Kernels g fuel) :=
    Numbering.failsAtBound_number (fun kernel =>
      (StackClosure.failsAtBound_close (exists_lr0Items hg) fuel _).map (goTo g)) _ fuel _
  refine hkernels.bind fun n _ => ?_
  have hfirst : FailsAtBound .outOfSteps
      (derefOr .outOfSteps (generateFirstSets g.terminals.toList g.productions fuel)) := by
    intro e herror
    cases hsets : generateFirstSets g.terminals.toList g.productions fuel with
    | none =>
      rw [hsets] at herror
      cases herror
      rfl
    | some sets =>
      rw [hsets] at herror
      cases herror
  refine hfirst.bind fun sets _ => ?_
  have hlookaheads : FailsAtBound .outOfSteps (generateLookaheads g sets fuel (kernelItems n)) := by
    have hcollect : FailsAtBound .outOfSteps (collectLookaheads g sets fuel (kernelItems n)) :=
      .foldlM (fun maps l0Item _ => (hlr1 sets _).bind fun closure _ => .ok _) _
    exact hcollect.bind fun maps _ => Propagation.failsAtBound_propagate fuel _
  have hsets : FailsAtBound .outOfSteps (generateLr1ItemSets g sets fuel n) :=
    hlookaheads.bind fun lookaheads _ =>
      .foldlM (fun lr1 kernel _ => (hlr1 sets _).bind fun closure _ => .ok _) _
  exact hsets.bind fun lr1 _ => .ok _

/-- The item sets of a grammar whose symbols are defined can be generated. -/
theorem exists_generateItemSets (hg : g.Reduced) :
    ∃ bound n lr1, ∀ fuel, bound ≤ fuel → generateItemSets g fuel = .ok (n, lr1) := by
  obtain ⟨bound, result, hresult⟩ :=
    (settles_generateItemSets g).exists_ok (failsAtBound_generateItemSets hg)
  exact ⟨bound, result.1, result.2, hresult⟩

/-! ## The table -/

theorem addAction_ne (next : Nat → Option Nat) (actions : Nat → Action) (item : Item) :
    addAction g next actions item ≠ .error .outOfSteps := by
  unfold addAction
  split
  · split
    · exact fun h => by cases h
    · split
      · exact fun h => by cases h
      · split
        · exact fun h => by cases h
        · split <;> exact fun h => by cases h
        · exact fun h => by cases h
  · split
    · exact fun h => by cases h
    · split <;> exact fun h => by cases h

/-- The generation of the tables ends, for every grammar. -/
theorem settles_generate (g : ParserGrammar) (hasSemanticRule : Nat → Bool) :
    Settles .outOfSteps fun fuel => generate g hasSemanticRule fuel := by
  refine (settles_generateItemSets g).bind fun result _ _ => ?_
  have hactions : Settles .outOfSteps fun _ =>
      generateLalr1Action g (result.2.next result.1) result.2 := by
    refine Settles.foldlM (fun table e _ => ?_) _
    have hset : Settles .outOfSteps fun _ =>
        generateActions g (result.2.next result.1 e.2.index) e.2.closure := by
      refine Settles.foldlM (fun actions item _ => ?_) _
      exact Settles.of_ne (addAction_ne _ actions item)
    exact hset.bind fun actions _ _ => Settles.ok _
  refine hactions.bind fun actions _ _ => ?_
  refine (Settles.of_ne (x := derefOr .nullPointer result.2.root) ?_).bind
    fun root _ _ => Settles.ok _
  cases result.2.root <;> exact fun h => by cases h

end Lalr1Parser

end LogSurgeon
