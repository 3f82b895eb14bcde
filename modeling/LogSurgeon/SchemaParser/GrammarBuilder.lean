import LogSurgeon.Lib.Interning
import LogSurgeon.Schema
import LogSurgeon.SchemaParser.ItemSets
import Mathlib.Algebra.GroupWithZero.Nat

/-!
# Building a grammar

`Lalr1Parser` collects rules and productions by `add_rule` and `add_production`
before it generates its tables.  A name gets an id when it is used first, and a
production that was added before only gets another semantic rule.

* The first production is followed by that of `$START_PRIME`, which is the root.
* `m_productions_map` and `m_non_terminals` keep the index of a production and
  not a pointer to it.  What `add_production` returns is left out: only its call
  for the root uses it.
* `NamedGrammar` has the productions by their names.  `encodes_calls` says that
  the builder keeps its ids, whatever the calls are.
-/

namespace LogSurgeon

open Lib

/-! ## The builder -/

namespace Parser

/-- A new name gets the number of the names as its id. -/
def addSymbol (parser : Parser) (name : String) : Parser where
  symbolId :=
    if (parser.symbolId.lookup name).isSome then parser.symbolId
    else parser.symbolId ++ [(name, parser.symbolIdOf name)]
  rules := parser.rules

theorem symbolId_addRule (parser : Parser) (name : String) (rule : RegexAST) :
    (parser.addRule name rule).symbolId = (parser.addSymbol name).symbolId := rfl

end Parser

/-- The fields of `Lalr1Parser` that the calls fill.  A semantic rule is an
`R`. -/
structure GrammarBuilder (R : Type) where
  parser : Parser
  terminals : OrderedSet Nat
  productionsMap : List ((String × List String) × Nat)
  nonTerminals : List (Nat × List Nat)
  productions : List (Production Nat)
  semanticRules : List (Option R)
  rootProductionId : Nat

def cStartPrime : String := "$START_PRIME"

namespace GrammarBuilder

variable {R : Type}

def new : GrammarBuilder R where
  parser := .new
  terminals := OrderedSet.empty.insertAll (Parser.new.symbolId.map Prod.snd)
  productionsMap := []
  nonTerminals := []
  productions := []
  semanticRules := []
  rootProductionId := 0

def addRule (name : String) (rule : RegexAST) (b : GrammarBuilder R) : GrammarBuilder R :=
  let parser := b.parser.addRule name rule
  { b with parser := parser, terminals := b.terminals.insert (parser.symbolIdOf name) }

/-- The ids of the symbols of a body, each of which is added if it is new. -/
def addBody : List String → Parser → Parser × List Nat
  | [], parser => (parser, [])
  | symbol :: body, parser =>
    let (parser', ids) := addBody body (parser.addSymbol symbol)
    (parser', (parser.addSymbol symbol).symbolIdOf symbol :: ids)

/-- `m_non_terminals[head].push_back(production)`. -/
def pushProduction (head production : Nat) (nonTerminals : List (Nat × List Nat)) :
    List (Nat × List Nat) :=
  if (nonTerminals.lookup head).isSome then
    nonTerminals.map fun e => if e.1 = head then (e.1, e.2 ++ [production]) else e
  else nonTerminals ++ [(head, [production])]

/-- Whether the production is new. -/
def insertProduction (head : String) (body : List String) (semanticRule : Option R)
    (b : GrammarBuilder R) : GrammarBuilder R × Bool :=
  let parser := b.parser.addSymbol head
  match b.productionsMap.lookup (head, body) with
  | some i =>
    ({ b with parser := parser, semanticRules := b.semanticRules.set i semanticRule }, false)
  | none =>
    let n := b.productions.length
    let headId := parser.symbolIdOf head
    let (parser, ids) := addBody body parser
    ({ b with
      parser := parser
      productionsMap := b.productionsMap ++ [((head, body), n)]
      nonTerminals := pushProduction headId n b.nonTerminals
      productions := b.productions ++ [⟨headId, ids⟩]
      semanticRules := b.semanticRules ++ [semanticRule] }, true)

/-- The nested call has one production before it. -/
def addProduction (head : String) (body : List String) (semanticRule : Option R)
    (b : GrammarBuilder R) : GrammarBuilder R :=
  match b.insertProduction head body semanticRule with
  | (b, false) => b
  | (b, true) =>
    if b.productions.length = 1 then
      { (b.insertProduction cStartPrime [head] none).1 with
        rootProductionId := b.productions.length }
    else b

end GrammarBuilder

/-- A call of the builder. -/
inductive BuilderCall (R : Type) where
  | rule (name : String) (rule : RegexAST)
  | production (head : String) (body : List String) (semanticRule : Option R)

namespace BuilderCall

variable {R : Type}

def addToken (name : String) (ruleChar : Nat) : BuilderCall R :=
  .rule name (RegexAST.mkLiteral ruleChar)

def addTokenGroup (name : String) (ruleGroup : RegexASTGroup) : BuilderCall R :=
  .rule name (RegexAST.mkGroup ruleGroup)

/-- The chain has two characters at least. -/
def addTokenChain (name : String) (first second : Nat) (later : List Nat) : BuilderCall R :=
  .rule name (later.foldl (fun rule c => RegexAST.mkCat rule (RegexAST.mkLiteral c))
    (RegexAST.mkCat (RegexAST.mkLiteral first) (RegexAST.mkLiteral second)))

end BuilderCall

def GrammarBuilder.call {R : Type} (b : GrammarBuilder R) : BuilderCall R → GrammarBuilder R
  | .rule name rule => b.addRule name rule
  | .production head body semanticRule => b.addProduction head body semanticRule

/-! ## The grammar by its names -/

/-- The names in the order of their ids, those of the terminals, and the
productions with their semantic rules. -/
structure NamedGrammar (R : Type) where
  names : List String
  terminals : List String
  entries : List ((String × List String) × Option R)

namespace NamedGrammar

variable {R : Type}

def new : NamedGrammar R where
  names := Parser.new.symbolId.map Prod.fst
  terminals := Parser.new.symbolId.map Prod.fst
  entries := []

/-- The names of the productions. -/
def pairs (g : NamedGrammar R) : List (String × List String) := g.entries.map Prod.fst

def addRule (name : String) (g : NamedGrammar R) : NamedGrammar R :=
  { g with
    names := Interning.intern g.names name
    terminals := Interning.intern g.terminals name }

def setRule (pair : String × List String) (semanticRule : Option R)
    (entries : List ((String × List String) × Option R)) :
    List ((String × List String) × Option R) :=
  entries.map fun e => if e.1 = pair then (pair, semanticRule) else e

def insertProduction (head : String) (body : List String) (semanticRule : Option R)
    (g : NamedGrammar R) : NamedGrammar R :=
  if (head, body) ∈ g.pairs then
    { g with
      names := Interning.intern g.names head
      entries := setRule (head, body) semanticRule g.entries }
  else
    { g with
      names := Interning.internAll (Interning.intern g.names head) body
      entries := g.entries ++ [((head, body), semanticRule)] }

def addProduction (head : String) (body : List String) (semanticRule : Option R)
    (g : NamedGrammar R) : NamedGrammar R :=
  if g.entries = [] then
    (g.insertProduction head body semanticRule).insertProduction cStartPrime [head] none
  else g.insertProduction head body semanticRule

def call (g : NamedGrammar R) : BuilderCall R → NamedGrammar R
  | .rule name _ => g.addRule name
  | .production head body semanticRule => g.addProduction head body semanticRule

/-- A production with the ids of its names. -/
def encode (names : List String) (pair : String × List String) : Production Nat :=
  ⟨names.idxOf pair.1, pair.2.map names.idxOf⟩

end NamedGrammar

/-! ## The builder keeps the ids of the names -/

/-- The productions of a symbol, if it has any. -/
def indicesOf (productions : List (Production Nat)) (s : Nat) : Option (List Nat) :=
  match (List.range productions.length).filter fun i => (productions.getD i ⟨0, []⟩).head = s with
  | [] => none
  | is => some is

structure Parser.Numbers (names : List String) (parser : Parser) : Prop where
  symbolId : parser.symbolId = names.zipIdx
  nodup : names.Nodup

section Encoding

variable {R : Type} {names : List String} {parser : Parser} {name head : String}
  {body : List String} {semanticRule : Option R} {b : GrammarBuilder R} {g : NamedGrammar R}

theorem Parser.Numbers.symbolIdOf_eq (h : parser.Numbers names) (name : String) :
    parser.symbolIdOf name = names.idxOf name := by
  unfold Parser.symbolIdOf
  rw [h.symbolId, List.length_zipIdx]
  exact (Interning.lookup_zipIdx names name).1

theorem Parser.Numbers.addSymbol (h : parser.Numbers names) (name : String) :
    (parser.addSymbol name).Numbers (Interning.intern names name) := by
  refine ⟨?_, Interning.nodup_intern h.nodup name⟩
  unfold Parser.addSymbol Interning.intern
  have hsome := (Interning.lookup_zipIdx names name).2
  rw [← h.symbolId] at hsome
  by_cases hmem : name ∈ names
  · rw [if_pos (hsome.2 hmem), if_pos hmem]
    exact h.symbolId
  · rw [if_neg fun h => hmem (hsome.1 h), if_neg hmem, h.symbolIdOf_eq, h.symbolId,
      List.idxOf_eq_length hmem, List.zipIdx_append]
    simp

theorem Parser.Numbers.addBody (h : parser.Numbers names) (body : List String) :
    (GrammarBuilder.addBody body parser).1.Numbers (Interning.internAll names body) ∧
      (GrammarBuilder.addBody body parser).2 =
        body.map (Interning.internAll names body).idxOf := by
  induction body generalizing parser names with
  | nil => exact ⟨h, rfl⟩
  | cons symbol body ih =>
    have hsymbol := h.addSymbol symbol
    obtain ⟨hnumbers, hids⟩ := ih hsymbol
    refine ⟨hnumbers, ?_⟩
    show (parser.addSymbol symbol).symbolIdOf symbol :: (GrammarBuilder.addBody body _).2 = _
    have hmem : symbol ∈ Interning.intern names symbol := Interning.mem_intern.2 (Or.inl rfl)
    rw [hids, hsymbol.symbolIdOf_eq, List.map_cons,
      ← Interning.idxOf_eq_of_prefix (Interning.prefix_internAll _ body) hmem]
    rfl

theorem lookup_pushProduction (head n s : Nat) (nonTerminals : List (Nat × List Nat)) :
    (GrammarBuilder.pushProduction head n nonTerminals).lookup s =
      if s = head then some ((nonTerminals.lookup head).getD [] ++ [n])
      else nonTerminals.lookup s := by
  have hmap : ∀ entries : List (Nat × List Nat),
      (entries.map fun e => if e.1 = head then (e.1, e.2 ++ [n]) else e).lookup s =
        if s = head then (entries.lookup head).map (· ++ [n]) else entries.lookup s := by
    intro entries
    induction entries with
    | nil => simp
    | cons e entries ih =>
      obtain ⟨k, indices⟩ := e
      by_cases hk : k = head
      · subst hk
        by_cases hs : s = k
        · subst hs
          simp
        · simp only [List.map_cons, if_true, List.lookup_cons, beq_eq_false_iff_ne.2 hs, hs, ih,
            if_false]
      · by_cases hs : s = k
        · subst hs
          simp [hk]
        · have hk' : (head == k) = false := beq_eq_false_iff_ne.2 (Ne.symm hk)
          simp only [List.map_cons, if_neg hk, List.lookup_cons, beq_eq_false_iff_ne.2 hs, hk', ih]
  unfold GrammarBuilder.pushProduction
  split
  · rename_i hsome
    obtain ⟨indices, hindices⟩ := Option.isSome_iff_exists.1 hsome
    rw [hmap, hindices]
    rfl
  · rename_i hnone
    rw [Option.not_isSome_iff_eq_none] at hnone
    rw [List.lookup_append]
    by_cases hs : s = head
    · subst hs
      simp [hnone]
    · simp [hs, List.lookup_cons, beq_eq_false_iff_ne.2 hs]

theorem indicesOf_append (productions : List (Production Nat)) (p : Production Nat) (s : Nat) :
    indicesOf (productions ++ [p]) s =
      if s = p.head then some ((indicesOf productions s).getD [] ++ [productions.length])
      else indicesOf productions s := by
  have hold : ∀ i < productions.length,
      (productions ++ [p]).getD i ⟨0, []⟩ = productions.getD i ⟨0, []⟩ := by
    intro i hi
    rw [List.getD_eq_getElem?_getD, List.getD_eq_getElem?_getD, List.getElem?_append_left hi]
  have hnew : (productions ++ [p]).getD productions.length ⟨0, []⟩ = p := by
    rw [List.getD_eq_getElem?_getD, List.getElem?_append_right (Nat.le_refl _), Nat.sub_self]
    rfl
  have hfilter : (List.range (productions ++ [p]).length).filter
      (fun i => ((productions ++ [p]).getD i ⟨0, []⟩).head = s) =
      (List.range productions.length).filter (fun i => (productions.getD i ⟨0, []⟩).head = s) ++
        if s = p.head then [productions.length] else [] := by
    rw [List.length_append, List.length_singleton, List.range_succ, List.filter_append]
    congr 1
    · refine List.filter_congr fun i hi => ?_
      rw [hold i (List.mem_range.1 hi)]
    · rw [List.filter_cons, hnew]
      by_cases hs : s = p.head
      · simp [hs]
      · simp [hs, Ne.symm hs]
  unfold indicesOf
  rw [hfilter]
  generalize (List.range productions.length).filter _ = indices
  by_cases hs : s = p.head
  · rw [if_pos hs, if_pos hs]
    cases indices <;> rfl
  · rw [if_neg hs, if_neg hs, List.append_nil]

theorem map_fst_setRule (pair : String × List String) (semanticRule : Option R)
    (entries : List ((String × List String) × Option R)) :
    (NamedGrammar.setRule pair semanticRule entries).map Prod.fst = entries.map Prod.fst := by
  unfold NamedGrammar.setRule
  rw [List.map_map]
  refine List.map_congr_left fun e _ => ?_
  show (if e.1 = pair then (pair, semanticRule) else e).1 = e.1
  split
  · rename_i h
    exact h.symm
  · rfl

theorem map_snd_setRule {pair : String × List String} (semanticRule : Option R)
    {entries : List ((String × List String) × Option R)} (hnodup : (entries.map Prod.fst).Nodup) :
    (NamedGrammar.setRule pair semanticRule entries).map Prod.snd =
      (entries.map Prod.snd).set ((entries.map Prod.fst).idxOf pair) semanticRule := by
  unfold NamedGrammar.setRule
  induction entries with
  | nil => rfl
  | cons e entries ih =>
    rw [List.map_cons, List.nodup_cons] at hnodup
    obtain ⟨hnew, hrest⟩ := hnodup
    rw [List.map_cons, List.map_cons, List.map_cons, List.map_cons, List.idxOf_cons]
    by_cases he : e.1 = pair
    · subst he
      have hkept : ∀ e' ∈ entries, (if e'.1 = e.1 then (e.1, semanticRule) else e') = e' := by
        intro e' he'
        rw [if_neg fun heq => hnew (List.mem_map.2 ⟨e', he', heq⟩)]
      rw [List.map_congr_left hkept, List.map_id']
      simp
    · have hne : (e.1 == pair) = false := beq_eq_false_iff_ne.2 he
      rw [ih hrest, hne, if_neg he]
      rfl

end Encoding

/-- The builder has the grammar, by the ids of its names. -/
structure GrammarBuilder.Encodes {R : Type} (g : NamedGrammar R) (b : GrammarBuilder R) : Prop where
  numbers : b.parser.Numbers g.names
  terminals : ∀ t, t ∈ b.terminals ↔ ∃ s ∈ g.terminals, g.names.idxOf s = t
  terminals_mem : ∀ s ∈ g.terminals, s ∈ g.names
  pairs_mem : ∀ pair ∈ g.pairs, pair.1 ∈ g.names ∧ ∀ s ∈ pair.2, s ∈ g.names
  pairs_nodup : g.pairs.Nodup
  productionsMap : b.productionsMap = g.pairs.zipIdx
  productions : b.productions = g.pairs.map (NamedGrammar.encode g.names)
  semanticRules : b.semanticRules = g.entries.map Prod.snd
  nonTerminals : ∀ s, b.nonTerminals.lookup s = indicesOf b.productions s

namespace GrammarBuilder

variable {R : Type} {b : GrammarBuilder R} {g : NamedGrammar R} {names : List String}

theorem encodes_new : Encodes (.new : NamedGrammar R) .new where
  numbers := by
    have hnodup : (Parser.new.symbolId.map Prod.fst).Nodup := by decide
    exact ⟨rfl, hnodup⟩
  terminals t := by
    rw [new, OrderedSet.mem_insertAll]
    have hreserved : ∀ t, t ∈ Parser.new.symbolId.map Prod.snd ↔
        ∃ s ∈ Parser.new.symbolId.map Prod.fst, (Parser.new.symbolId.map Prod.fst).idxOf s = t := by
      have hids : Parser.new.symbolId.map Prod.snd = (Parser.new.symbolId.map Prod.fst).map
          (Parser.new.symbolId.map Prod.fst).idxOf := by decide
      intro t
      rw [hids, List.mem_map]
    rw [hreserved]
    exact or_iff_left (OrderedSet.not_mem_empty t)
  terminals_mem s hs := hs
  pairs_mem pair hpair := absurd hpair List.not_mem_nil
  pairs_nodup := List.nodup_nil
  productionsMap := rfl
  productions := rfl
  semanticRules := rfl
  nonTerminals s := rfl

/-- More names change no production. -/
theorem map_encode_eq {pairs : List (String × List String)} {names' : List String}
    (hgrow : names <+: names')
    (hmem : ∀ pair ∈ pairs, pair.1 ∈ names ∧ ∀ s ∈ pair.2, s ∈ names) :
    pairs.map (NamedGrammar.encode names') = pairs.map (NamedGrammar.encode names) := by
  refine List.map_congr_left fun pair hpair => ?_
  obtain ⟨hhead, hbody⟩ := hmem pair hpair
  unfold NamedGrammar.encode
  rw [Interning.idxOf_eq_of_prefix hgrow hhead]
  congr 1
  exact List.map_congr_left fun s hs => Interning.idxOf_eq_of_prefix hgrow (hbody s hs)

theorem Encodes.addRule (h : b.Encodes g) (name : String) (rule : RegexAST) :
    (b.addRule name rule).Encodes (g.addRule name) := by
  have hgrow := Interning.prefix_intern g.names name
  have hnumbers := h.numbers.addSymbol name
  have hnumbers : (b.parser.addRule name rule).Numbers (Interning.intern g.names name) :=
    ⟨hnumbers.symbolId, hnumbers.nodup⟩
  have hname : name ∈ Interning.intern g.names name := Interning.mem_intern.2 (Or.inl rfl)
  refine ⟨hnumbers, fun t => ?_, fun s hs => ?_, fun pair hpair => ?_, h.pairs_nodup,
    h.productionsMap, ?_, h.semanticRules, h.nonTerminals⟩
  · show t ∈ b.terminals.insert ((b.parser.addRule name rule).symbolIdOf name) ↔
      ∃ s ∈ Interning.intern g.terminals name, (Interning.intern g.names name).idxOf s = t
    rw [OrderedSet.mem_insert, hnumbers.symbolIdOf_eq, h.terminals]
    constructor
    · rintro (rfl | ⟨s, hs, rfl⟩)
      · exact ⟨name, Interning.mem_intern.2 (Or.inl rfl), rfl⟩
      · exact ⟨s, Interning.mem_intern.2 (Or.inr hs),
          Interning.idxOf_eq_of_prefix hgrow (h.terminals_mem s hs)⟩
    · rintro ⟨s, hs, rfl⟩
      rcases Interning.mem_intern.1 hs with rfl | hs
      · exact Or.inl rfl
      · exact Or.inr ⟨s, hs, (Interning.idxOf_eq_of_prefix hgrow (h.terminals_mem s hs)).symm⟩
  · rcases Interning.mem_intern.1 hs with rfl | hs
    · exact hname
    · exact hgrow.subset (h.terminals_mem s hs)
  · obtain ⟨hhead, hbody⟩ := h.pairs_mem pair hpair
    exact ⟨hgrow.subset hhead, fun s hs => hgrow.subset (hbody s hs)⟩
  · exact h.productions.trans (map_encode_eq hgrow h.pairs_mem).symm

theorem Encodes.lookup_productionsMap (h : b.Encodes g) (pair : String × List String) :
    (pair ∈ g.pairs → b.productionsMap.lookup pair = some (g.pairs.idxOf pair)) ∧
      (pair ∉ g.pairs → b.productionsMap.lookup pair = none) := by
  obtain ⟨hindex, hsome⟩ := Interning.lookup_zipIdx g.pairs pair
  rw [← h.productionsMap] at hindex hsome
  constructor
  · intro hmem
    obtain ⟨i, hi⟩ := Option.isSome_iff_exists.1 (hsome.2 hmem)
    rw [hi] at hindex ⊢
    exact congrArg some hindex
  · intro hmem
    rw [← Option.not_isSome_iff_eq_none]
    exact fun h => hmem (hsome.1 h)

/-- A production that was added before. -/
theorem Encodes.insertProduction_of_mem (h : b.Encodes g) {head : String} {body : List String}
    (semanticRule : Option R) (hmem : (head, body) ∈ g.pairs) :
    (b.insertProduction head body semanticRule).2 = false ∧
      (b.insertProduction head body semanticRule).1.Encodes
        (g.insertProduction head body semanticRule) := by
  have hgrow := Interning.prefix_intern g.names head
  have hpairs : (NamedGrammar.setRule (head, body) semanticRule g.entries).map Prod.fst = g.pairs :=
    map_fst_setRule _ _ _
  unfold GrammarBuilder.insertProduction NamedGrammar.insertProduction
  rw [(h.lookup_productionsMap _).1 hmem, if_pos hmem]
  refine ⟨rfl, ?_⟩
  have hgrown : ∀ pair ∈ g.pairs, pair.1 ∈ Interning.intern g.names head ∧
      ∀ s ∈ pair.2, s ∈ Interning.intern g.names head := by
    intro pair hpair
    obtain ⟨hhead, hbody⟩ := h.pairs_mem pair hpair
    exact ⟨hgrow.subset hhead, fun s hs => hgrow.subset (hbody s hs)⟩
  refine ⟨h.numbers.addSymbol head, fun t => ?_, fun s hs => hgrow.subset (h.terminals_mem s hs),
    ?_, ?_, ?_, ?_, ?_, h.nonTerminals⟩
  · rw [h.terminals]
    refine exists_congr fun s => and_congr_right fun hs => ?_
    rw [Interning.idxOf_eq_of_prefix hgrow (h.terminals_mem s hs)]
  · unfold NamedGrammar.pairs
    rwa [hpairs]
  · unfold NamedGrammar.pairs
    rw [hpairs]
    exact h.pairs_nodup
  · unfold NamedGrammar.pairs
    rw [hpairs]
    exact h.productionsMap
  · unfold NamedGrammar.pairs
    rw [hpairs]
    exact h.productions.trans (map_encode_eq hgrow h.pairs_mem).symm
  · rw [map_snd_setRule semanticRule h.pairs_nodup]
    show b.semanticRules.set _ semanticRule = _
    rw [h.semanticRules]
    rfl

/-- A new production. -/
theorem Encodes.insertProduction_of_notMem (h : b.Encodes g) {head : String} {body : List String}
    (semanticRule : Option R) (hmem : (head, body) ∉ g.pairs) :
    (b.insertProduction head body semanticRule).2 = true ∧
      (b.insertProduction head body semanticRule).1.Encodes
        (g.insertProduction head body semanticRule) := by
  have hhead := h.numbers.addSymbol head
  obtain ⟨hnumbers, hids⟩ := hhead.addBody body
  have hlater := Interning.prefix_internAll (Interning.intern g.names head) body
  have hgrow := (Interning.prefix_intern g.names head).trans hlater
  have hheadMem : head ∈ Interning.intern g.names head := Interning.mem_intern.2 (Or.inl rfl)
  have hpairs : (g.entries ++ [((head, body), semanticRule)]).map Prod.fst =
      g.pairs ++ [(head, body)] := by
    rw [List.map_append]
    rfl
  have hlength : b.productions.length = g.pairs.length := by
    rw [h.productions, List.length_map]
  have hid : (b.parser.addSymbol head).symbolIdOf head =
      (Interning.internAll (Interning.intern g.names head) body).idxOf head := by
    rw [hhead.symbolIdOf_eq, Interning.idxOf_eq_of_prefix hlater hheadMem]
  unfold GrammarBuilder.insertProduction NamedGrammar.insertProduction
  rw [(h.lookup_productionsMap _).2 hmem, if_neg hmem]
  refine ⟨rfl, hnumbers, fun t => ?_, fun s hs => hgrow.subset (h.terminals_mem s hs), ?_, ?_, ?_,
    ?_, ?_, fun s => ?_⟩
  · rw [h.terminals]
    refine exists_congr fun s => and_congr_right fun hs => ?_
    rw [Interning.idxOf_eq_of_prefix hgrow (h.terminals_mem s hs)]
  · unfold NamedGrammar.pairs
    rw [hpairs]
    intro pair hpair
    rcases List.mem_append.1 hpair with hold | hnew
    · obtain ⟨hhead, hbody⟩ := h.pairs_mem pair hold
      exact ⟨hgrow.subset hhead, fun s hs => hgrow.subset (hbody s hs)⟩
    · rw [List.mem_singleton.1 hnew]
      exact ⟨hlater.subset hheadMem, fun s hs => Interning.mem_internAll.2 (Or.inl hs)⟩
  · unfold NamedGrammar.pairs
    rw [hpairs]
    refine List.nodup_append.2 ⟨h.pairs_nodup, List.nodup_singleton _, fun x hx y hy hxy => ?_⟩
    rw [hxy, List.mem_singleton.1 hy] at hx
    exact hmem hx
  · unfold NamedGrammar.pairs
    rw [hpairs, List.zipIdx_append, Nat.zero_add, ← hlength]
    show b.productionsMap ++ [((head, body), b.productions.length)] = _
    rw [h.productionsMap]
    rfl
  · unfold NamedGrammar.pairs
    rw [hpairs, List.map_append, map_encode_eq hgrow h.pairs_mem, ← h.productions]
    show b.productions ++ [_] = b.productions ++ [_]
    rw [hids, hid]
    rfl
  · rw [List.map_append, ← h.semanticRules]
    rfl
  · show (pushProduction _ _ _).lookup s = indicesOf (b.productions ++ [_]) s
    rw [lookup_pushProduction, indicesOf_append, h.nonTerminals, h.nonTerminals]
    by_cases hs : s = (b.parser.addSymbol head).symbolIdOf head
    · rw [if_pos hs, if_pos hs, hs]
    · rw [if_neg hs, if_neg hs]

theorem rootProductionId_insertProduction (b : GrammarBuilder R) (head : String)
    (body : List String) (semanticRule : Option R) :
    (b.insertProduction head body semanticRule).1.rootProductionId = b.rootProductionId := by
  unfold insertProduction
  dsimp only
  split <;> rfl

theorem Encodes.insertProduction (h : b.Encodes g) (head : String) (body : List String)
    (semanticRule : Option R) :
    (b.insertProduction head body semanticRule).2 = decide ((head, body) ∉ g.pairs) ∧
      (b.insertProduction head body semanticRule).1.Encodes
        (g.insertProduction head body semanticRule) := by
  by_cases hmem : (head, body) ∈ g.pairs
  · rw [decide_eq_false fun hnew => hnew hmem]
    exact h.insertProduction_of_mem semanticRule hmem
  · rw [decide_eq_true hmem]
    exact h.insertProduction_of_notMem semanticRule hmem

theorem Encodes.length_productions (h : b.Encodes g) : b.productions.length = g.entries.length := by
  rw [h.productions, List.length_map]
  exact List.length_map _

theorem Encodes.setRoot (h : b.Encodes g) (i : Nat) :
    ({ b with rootProductionId := i } : GrammarBuilder R).Encodes g :=
  ⟨h.numbers, h.terminals, h.terminals_mem, h.pairs_mem, h.pairs_nodup, h.productionsMap,
    h.productions, h.semanticRules, h.nonTerminals⟩

theorem entries_insertProduction_ne (g : NamedGrammar R) (head : String) (body : List String)
    (semanticRule : Option R) : (g.insertProduction head body semanticRule).entries ≠ [] := by
  unfold NamedGrammar.insertProduction
  split
  · rename_i hmem
    intro hnil
    have hentries : g.entries = [] := List.map_eq_nil_iff.1 hnil
    unfold NamedGrammar.pairs at hmem
    rw [hentries] at hmem
    exact absurd hmem List.not_mem_nil
  · simp

/-- The root is the second production. -/
def RootIsSecond (g : NamedGrammar R) (b : GrammarBuilder R) : Prop :=
  b.rootProductionId = if g.entries = [] then 0 else 1

theorem Encodes.addProduction (h : b.Encodes g) (hroot : b.RootIsSecond g) (head : String)
    (body : List String) (semanticRule : Option R) :
    (b.addProduction head body semanticRule).Encodes (g.addProduction head body semanticRule) ∧
      (b.addProduction head body semanticRule).RootIsSecond
        (g.addProduction head body semanticRule) := by
  obtain ⟨hnew, hinsert⟩ := h.insertProduction head body semanticRule
  have hkept := b.rootProductionId_insertProduction head body semanticRule
  have hlength := hinsert.length_productions
  unfold GrammarBuilder.addProduction NamedGrammar.addProduction
  generalize b.insertProduction head body semanticRule = result at hnew hinsert hkept hlength ⊢
  obtain ⟨b', isNew⟩ := result
  dsimp only at hnew hinsert hkept hlength ⊢
  subst hnew
  have hne := entries_insertProduction_ne g head body semanticRule
  by_cases hmem : (head, body) ∈ g.pairs
  · have hentries : g.entries ≠ [] := by
      intro hnil
      unfold NamedGrammar.pairs at hmem
      rw [hnil] at hmem
      exact absurd hmem List.not_mem_nil
    rw [decide_eq_false fun hnew => hnew hmem, if_neg hentries]
    refine ⟨hinsert, ?_⟩
    unfold RootIsSecond at hroot ⊢
    rw [if_neg hne, hkept, hroot, if_neg hentries]
  · rw [decide_eq_true hmem]
    have hadded : (g.insertProduction head body semanticRule).entries.length =
        g.entries.length + 1 := by
      unfold NamedGrammar.insertProduction
      rw [if_neg hmem, List.length_append]
      rfl
    rw [hadded] at hlength
    dsimp only
    by_cases hentries : g.entries = []
    · have hone : b'.productions.length = 1 := by rw [hlength, hentries]; rfl
      rw [if_pos hentries, if_pos hone]
      refine ⟨((hinsert.insertProduction cStartPrime [head] none).2).setRoot _, ?_⟩
      have hmore := entries_insertProduction_ne (g.insertProduction head body semanticRule)
        cStartPrime [head] none
      unfold RootIsSecond
      rw [if_neg hmore]
      exact hone
    · have hmany : b'.productions.length ≠ 1 := by
        have hpos := List.length_pos_of_ne_nil hentries
        omega
      rw [if_neg hentries, if_neg hmany]
      refine ⟨hinsert, ?_⟩
      unfold RootIsSecond at hroot ⊢
      rw [if_neg hne, hkept, hroot, if_neg hentries]

/-- The builder keeps the grammar of its calls. -/
theorem encodes_calls (calls : List (BuilderCall R)) :
    (calls.foldl call .new).Encodes (calls.foldl NamedGrammar.call .new) ∧
      (calls.foldl call .new).RootIsSecond (calls.foldl NamedGrammar.call .new) := by
  have hall : ∀ (b : GrammarBuilder R) (g : NamedGrammar R), b.Encodes g → b.RootIsSecond g →
      (calls.foldl call b).Encodes (calls.foldl NamedGrammar.call g) ∧
        (calls.foldl call b).RootIsSecond (calls.foldl NamedGrammar.call g) := by
    induction calls with
    | nil => exact fun b g h hroot => ⟨h, hroot⟩
    | cons c calls ih =>
      intro b g h hroot
      cases c with
      | rule name rule => exact ih _ _ (h.addRule name rule) hroot
      | production head body semanticRule =>
        obtain ⟨h', hroot'⟩ := h.addProduction hroot head body semanticRule
        exact ih _ _ h' hroot'
  exact hall .new .new encodes_new rfl

end GrammarBuilder

/-! ## What the calls add -/

namespace NamedGrammar

variable {R : Type} {g : NamedGrammar R} {calls : List (BuilderCall R)}
  {entries later : List ((String × List String) × Option R)}
  {first : (String × List String) × Option R}

/-- The productions of the calls, in their order. -/
def productionCalls (calls : List (BuilderCall R)) : List ((String × List String) × Option R) :=
  calls.filterMap fun
    | .production head body semanticRule => some ((head, body), semanticRule)
    | .rule _ _ => none

/-- The names of the rules of the calls. -/
def ruleNames (calls : List (BuilderCall R)) : List String :=
  calls.filterMap fun
    | .production _ _ _ => none
    | .rule name _ => some name

def insertEntry (entries : List ((String × List String) × Option R))
    (e : (String × List String) × Option R) : List ((String × List String) × Option R) :=
  if e.1 ∈ entries.map Prod.fst then setRule e.1 e.2 entries else entries ++ [e]

theorem entries_insertProduction (g : NamedGrammar R) (head : String) (body : List String)
    (semanticRule : Option R) :
    (g.insertProduction head body semanticRule).entries =
      insertEntry g.entries ((head, body), semanticRule) := by
  unfold insertProduction insertEntry pairs
  split <;> rfl

theorem map_fst_insertEntry (entries : List ((String × List String) × Option R))
    (e : (String × List String) × Option R) :
    (insertEntry entries e).map Prod.fst = Interning.intern (entries.map Prod.fst) e.1 := by
  unfold insertEntry Interning.intern
  split
  · exact map_fst_setRule _ _ _
  · exact List.map_append

/-- The last call decides about the rule of a production. -/
theorem lookup_insertEntry (entries : List ((String × List String) × Option R))
    (e : (String × List String) × Option R) (pair : String × List String) :
    (insertEntry entries e).lookup pair = (e :: entries).lookup pair := by
  obtain ⟨k, semanticRule⟩ := e
  have hset : ∀ entries : List ((String × List String) × Option R), k ∈ entries.map Prod.fst →
      (setRule k semanticRule entries).lookup pair = ((k, semanticRule) :: entries).lookup pair := by
    intro entries
    induction entries with
    | nil => exact fun h => absurd h List.not_mem_nil
    | cons e entries ih =>
      intro hmem
      obtain ⟨k', rule'⟩ := e
      unfold setRule
      rw [List.map_cons]
      by_cases hk : k' = k
      · subst hk
        rw [if_pos rfl]
        by_cases hpair : pair = k'
        · subst hpair
          simp
        · have hne : (pair == k') = false := beq_eq_false_iff_ne.2 hpair
          rw [List.lookup_cons, List.lookup_cons, hne, List.lookup_cons, hne]
          by_cases hlater : k' ∈ entries.map Prod.fst
          · have hrest := ih hlater
            rw [List.lookup_cons, hne] at hrest
            exact hrest
          · have hkept : ∀ e ∈ entries,
                (if e.1 = k' then (k', semanticRule) else e) = e := by
              intro e he
              rw [if_neg fun heq => hlater (List.mem_map.2 ⟨e, he, heq⟩)]
            rw [List.map_congr_left hkept, List.map_id']
      · rw [if_neg hk]
        have hlater : k ∈ entries.map Prod.fst := by
          rw [List.map_cons] at hmem
          exact (List.mem_cons.1 hmem).resolve_left (Ne.symm hk)
        have hrest := ih hlater
        unfold setRule at hrest
        rw [List.lookup_cons, hrest, List.lookup_cons, List.lookup_cons, List.lookup_cons]
        by_cases hpair : pair = k'
        · subst hpair
          have hne : (pair == k) = false := beq_eq_false_iff_ne.2 hk
          rw [hne]
        · rw [beq_eq_false_iff_ne.2 hpair]
  unfold insertEntry
  split
  · rename_i hmem
    exact hset entries hmem
  · rename_i hmem
    rw [List.lookup_append, List.lookup_cons, List.lookup_cons]
    by_cases hpair : pair = k
    · subst hpair
      have hnone : entries.lookup pair = none := by
        rw [List.lookup_eq_none_iff]
        intro e he
        exact bne_iff_ne.2 fun heq => hmem (List.mem_map.2 ⟨e, he, heq.symm⟩)
      rw [hnone]
      simp
    · rw [beq_eq_false_iff_ne.2 hpair]
      simp

theorem map_fst_foldl_insertEntry :
    (later.foldl insertEntry entries).map Prod.fst =
      Interning.internAll (entries.map Prod.fst) (later.map Prod.fst) := by
  induction later generalizing entries with
  | nil => rfl
  | cons e later ih =>
    rw [List.foldl_cons, ih, map_fst_insertEntry]
    rfl

theorem lookup_foldl_insertEntry (pair : String × List String) :
    (later.foldl insertEntry entries).lookup pair = (later.reverse ++ entries).lookup pair := by
  induction later generalizing entries with
  | nil => rfl
  | cons e later ih =>
    rw [List.foldl_cons, ih, List.reverse_cons, List.append_assoc, List.lookup_append,
      List.lookup_append, lookup_insertEntry]
    rfl

theorem terminals_addProduction (g : NamedGrammar R) (head : String) (body : List String)
    (semanticRule : Option R) :
    (g.addProduction head body semanticRule).terminals = g.terminals := by
  have hkept : ∀ (g : NamedGrammar R) head body semanticRule,
      (g.insertProduction head body semanticRule).terminals = g.terminals := by
    intro g head body semanticRule
    unfold insertProduction
    split <;> rfl
  unfold addProduction
  split
  · rw [hkept, hkept]
  · rw [hkept]

theorem terminals_foldl_call :
    (calls.foldl call g).terminals = Interning.internAll g.terminals (ruleNames calls) := by
  induction calls generalizing g with
  | nil => rfl
  | cons c calls ih =>
    rw [List.foldl_cons, ih]
    cases c with
    | rule name rule => rfl
    | production head body semanticRule =>
      show Interning.internAll (g.addProduction head body semanticRule).terminals _ = _
      rw [terminals_addProduction]
      rfl

theorem entries_foldl_call (hne : g.entries ≠ []) :
    (calls.foldl call g).entries = (productionCalls calls).foldl insertEntry g.entries := by
  induction calls generalizing g with
  | nil => rfl
  | cons c calls ih =>
    cases c with
    | rule name rule =>
      have hrule : (g.call (.rule name rule)).entries ≠ [] := hne
      exact ih hrule
    | production head body semanticRule =>
      have hcall : g.call (.production head body semanticRule) =
          g.insertProduction head body semanticRule := if_neg hne
      rw [List.foldl_cons, hcall,
        ih (GrammarBuilder.entries_insertProduction_ne g head body semanticRule),
        entries_insertProduction]
      rfl

theorem entries_calls (hcalls : productionCalls calls = first :: later) :
    (calls.foldl call .new).entries =
      later.foldl insertEntry (insertEntry [first] ((cStartPrime, [first.1.1]), none)) := by
  have hall : ∀ g : NamedGrammar R, g.entries = [] → (calls.foldl call g).entries =
      later.foldl insertEntry (insertEntry [first] ((cStartPrime, [first.1.1]), none)) := by
    induction calls with
    | nil => exact absurd hcalls (List.cons_ne_nil _ _).symm
    | cons c calls ih =>
      intro g hnil
      cases c with
      | rule name rule => exact ih hcalls (g.call (.rule name rule)) hnil
      | production head body semanticRule =>
        obtain ⟨rfl, hlater⟩ := List.cons.inj hcalls
        have hlater : productionCalls calls = later := hlater
        have hcall : g.call (.production head body semanticRule) =
            (g.insertProduction head body semanticRule).insertProduction cStartPrime [head] none :=
          if_pos hnil
        have hentries : (g.call (.production head body semanticRule)).entries =
            insertEntry [((head, body), semanticRule)] ((cStartPrime, [head]), none) := by
          rw [hcall, entries_insertProduction, entries_insertProduction, hnil]
          rfl
        have hne : (g.call (.production head body semanticRule)).entries ≠ [] := by
          rw [hcall]
          exact GrammarBuilder.entries_insertProduction_ne _ _ _ _
        rw [List.foldl_cons, entries_foldl_call hne, hentries]
        rw [hlater]
  exact hall .new rfl

end NamedGrammar

namespace GrammarBuilder

variable {R : Type} {b : GrammarBuilder R} {g : NamedGrammar R} {calls : List (BuilderCall R)}
  {first : (String × List String) × Option R} {later : List ((String × List String) × Option R)}

/-- The first production comes first, that of the root follows it, and then every
other one, once and with the rule of its last call.  The terminals are the
reserved ones and those that have rules. -/
structure Builds (calls : List (BuilderCall R)) (first : (String × List String) × Option R)
    (later : List ((String × List String) × Option R)) (g : NamedGrammar R) : Prop where
  terminals : ∀ s, s ∈ g.terminals ↔
    s ∈ NamedGrammar.ruleNames calls ∨ s ∈ Parser.new.symbolId.map Prod.fst
  front : ∃ rest, g.pairs = first.1 :: (cStartPrime, [first.1.1]) :: rest
  pairs : ∀ pair, pair ∈ g.pairs ↔
    pair = (cStartPrime, [first.1.1]) ∨ pair ∈ (first :: later).map Prod.fst
  rules : ∀ pair, g.entries.lookup pair =
    (later.reverse ++ [first, ((cStartPrime, [first.1.1]), none)]).lookup pair

theorem builds_calls (hcalls : NamedGrammar.productionCalls calls = first :: later)
    (hfirst : first.1 ≠ (cStartPrime, [first.1.1])) :
    (calls.foldl call .new).rootProductionId = 1 ∧
      Builds calls first later (calls.foldl NamedGrammar.call .new) := by
  obtain ⟨-, hroot⟩ := encodes_calls calls
  have hentries := NamedGrammar.entries_calls hcalls
  have hstart : NamedGrammar.insertEntry [first] ((cStartPrime, [first.1.1]), none) =
      [first, ((cStartPrime, [first.1.1]), none)] := by
    refine if_neg fun hmem => hfirst ?_
    exact (List.mem_singleton.1 hmem).symm
  rw [hstart] at hentries
  have hpairs : (calls.foldl NamedGrammar.call .new).pairs =
      Interning.internAll [first.1, (cStartPrime, [first.1.1])] (later.map Prod.fst) := by
    show (calls.foldl NamedGrammar.call .new).entries.map Prod.fst = _
    rw [hentries, NamedGrammar.map_fst_foldl_insertEntry]
    rfl
  refine ⟨?_, ⟨fun s => ?_, ?_, fun pair => ?_, fun pair => ?_⟩⟩
  · refine hroot.trans (if_neg fun hnil => ?_)
    have hgrow := Interning.prefix_internAll [first.1, (cStartPrime, [first.1.1])]
      (later.map Prod.fst)
    rw [← hpairs] at hgrow
    have hempty : (calls.foldl NamedGrammar.call .new).pairs = [] :=
      congrArg (List.map Prod.fst) hnil
    rw [hempty, List.prefix_nil] at hgrow
    exact List.cons_ne_nil _ _ hgrow
  · rw [NamedGrammar.terminals_foldl_call]
    exact Interning.mem_internAll
  · obtain ⟨rest, hrest⟩ := Interning.prefix_internAll [first.1, (cStartPrime, [first.1.1])]
      (later.map Prod.fst)
    exact ⟨rest, hpairs.trans hrest.symm⟩
  · rw [hpairs, Interning.mem_internAll, List.map_cons]
    simp only [List.mem_cons, List.not_mem_nil, or_false]
    tauto
  · rw [hentries, NamedGrammar.lookup_foldl_insertEntry]

/-! ## The grammar that the tables are generated from -/

theorem lookup_isSome_iff {list : List (Nat × List Nat)} {s : Nat} :
    (list.lookup s).isSome ↔ s ∈ list.map Prod.fst := by
  rw [← not_iff_not, Option.not_isSome_iff_eq_none, List.lookup_eq_none_iff, List.mem_map]
  push Not
  refine forall₂_congr fun e _ => ?_
  rw [bne_iff_ne]
  exact ne_comm

theorem indicesOf_isSome_iff {productions : List (Production Nat)} {s : Nat} :
    (indicesOf productions s).isSome ↔ ∃ p ∈ productions, p.head = s := by
  have hfilter : (indicesOf productions s).isSome ↔
      ∃ i ∈ List.range productions.length, (productions.getD i ⟨0, []⟩).head = s := by
    unfold indicesOf
    split
    · rename_i hnil
      rw [List.filter_eq_nil_iff] at hnil
      simp only [Option.isSome_none, Bool.false_eq_true, false_iff, not_exists, not_and]
      exact fun i hi hs => hnil i hi (decide_eq_true hs)
    · rename_i indices hne
      obtain ⟨i, hi⟩ := List.exists_mem_of_ne_nil _ hne
      obtain ⟨hrange, hs⟩ := List.mem_filter.1 hi
      simp only [Option.isSome_some, true_iff]
      exact ⟨i, hrange, of_decide_eq_true hs⟩
  rw [hfilter]
  constructor
  · rintro ⟨i, hi, hs⟩
    have hi := List.mem_range.1 hi
    rw [List.getD_eq_getElem?_getD, List.getElem?_eq_getElem hi] at hs
    exact ⟨_, List.getElem_mem hi, hs⟩
  · rintro ⟨p, hp, hs⟩
    obtain ⟨i, hi, rfl⟩ := List.mem_iff_getElem.1 hp
    refine ⟨i, List.mem_range.2 hi, ?_⟩
    rw [List.getD_eq_getElem?_getD, List.getElem?_eq_getElem hi]
    exact hs

/-- A production changes neither the terminals nor the rules of the lexer. -/
theorem insertProduction_kept (b : GrammarBuilder R) (head : String) (body : List String)
    (semanticRule : Option R) :
    (b.insertProduction head body semanticRule).1.terminals = b.terminals ∧
      (b.insertProduction head body semanticRule).1.parser.rules = b.parser.rules := by
  have hbody : ∀ (body : List String) (parser : Parser),
      (addBody body parser).1.rules = parser.rules := by
    intro body
    induction body with
    | nil => exact fun parser => rfl
    | cons symbol body ih => exact fun parser => ih (parser.addSymbol symbol)
  unfold insertProduction
  dsimp only
  split
  · exact ⟨rfl, rfl⟩
  · exact ⟨rfl, hbody body (b.parser.addSymbol head)⟩

theorem addProduction_kept (b : GrammarBuilder R) (head : String) (body : List String)
    (semanticRule : Option R) :
    (b.addProduction head body semanticRule).terminals = b.terminals ∧
      (b.addProduction head body semanticRule).parser.rules = b.parser.rules := by
  obtain ⟨hterminals, hrules⟩ := insertProduction_kept b head body semanticRule
  unfold addProduction
  generalize b.insertProduction head body semanticRule = result at hterminals hrules ⊢
  obtain ⟨b', isNew⟩ := result
  cases isNew with
  | false => exact ⟨hterminals, hrules⟩
  | true =>
    dsimp only at hterminals hrules ⊢
    split
    · obtain ⟨hroot, hroot'⟩ := insertProduction_kept b' cStartPrime [head] none
      exact ⟨hroot.trans hterminals, hroot'.trans hrules⟩
    · exact ⟨hterminals, hrules⟩

theorem mem_terminals_calls {t : Nat} (ht : t ∈ b.terminals) :
    t ∈ (calls.foldl call b).terminals := by
  induction calls generalizing b with
  | nil => exact ht
  | cons c calls ih =>
    refine ih ?_
    cases c with
    | rule name rule => exact OrderedSet.mem_insert.2 (Or.inr ht)
    | production head body semanticRule =>
      show t ∈ (b.addProduction head body semanticRule).terminals
      rwa [(addProduction_kept b head body semanticRule).1]

/-- The first production of the calls is not the one that is added for the root. -/
def HasRoot (calls : List (BuilderCall R)) : Prop :=
  ∃ first ∈ (NamedGrammar.productionCalls calls).head?, first.1 ≠ (cStartPrime, [first.1.1])

theorem HasRoot.exists_cons (h : HasRoot calls) :
    ∃ first later, NamedGrammar.productionCalls calls = first :: later ∧
      first.1 ≠ (cStartPrime, [first.1.1]) := by
  obtain ⟨first, hhead, hne⟩ := h
  obtain ⟨later, hlater⟩ := List.head?_eq_some_iff.1 hhead
  exact ⟨first, later, hlater, hne⟩

theorem mem_keys_calls (calls : List (BuilderCall R)) (s : Nat) :
    s ∈ (calls.foldl call .new).nonTerminals.map Prod.fst ↔
      ∃ p ∈ (calls.foldl call .new).productions, p.head = s := by
  rw [← lookup_isSome_iff, (encodes_calls calls).1.nonTerminals, indicesOf_isSome_iff]

/-- The symbol of the body of the root production. -/
def startSymbol (b : GrammarBuilder R) : Nat :=
  (b.productions.getD b.rootProductionId ⟨0, []⟩).body.headD 0

theorem body_rootProductionId (h : HasRoot calls) :
    (calls.foldl call .new).productions[(calls.foldl call .new).rootProductionId]?.map
      Production.body = some [(calls.foldl call .new).startSymbol] := by
  obtain ⟨first, later, hcalls, hfirst⟩ := h.exists_cons
  have hencodes := (encodes_calls calls).1
  obtain ⟨hroot, -, ⟨rest, hfront⟩, -, -⟩ := builds_calls hcalls hfirst
  unfold startSymbol
  rw [hroot, hencodes.productions, hfront]
  rfl

/-- The tables are generated from the fields that the calls have filled. -/
def grammar (calls : List (BuilderCall R)) (h : HasRoot calls) : ParserGrammar where
  terminals := (calls.foldl call .new).terminals
  productions := (calls.foldl call .new).productions
  nonTerminals := (calls.foldl call .new).nonTerminals.map Prod.fst
  rootProductionId := (calls.foldl call .new).rootProductionId
  startSymbol := (calls.foldl call .new).startSymbol
  tokenEnd_mem := mem_terminals_calls (OrderedSet.mem_insertAll.2 (Or.inl (by decide)))
  mem_nonTerminals := mem_keys_calls calls
  root_body := body_rootProductionId h

/-- `m_non_terminals` has the productions of a symbol in their order. -/
theorem productionsOf_grammar (h : HasRoot calls) (s : Nat) :
    (grammar calls h).productionsOf s =
      derefOr .thrown ((calls.foldl call .new).nonTerminals.lookup s) := by
  rw [(encodes_calls calls).1.nonTerminals]
  unfold ParserGrammar.productionsOf
  by_cases hs : s ∈ (grammar calls h).nonTerminals
  · rw [if_pos (List.contains_iff_mem.2 hs)]
    have hsome := indicesOf_isSome_iff.2 ((mem_keys_calls calls s).1 hs)
    unfold indicesOf at hsome ⊢
    unfold ParserGrammar.rule grammar
    dsimp only
    split
    · rename_i hnil
      rw [hnil] at hsome
      cases hsome
    · rfl
  · rw [if_neg fun h => hs (List.contains_iff_mem.1 h)]
    have hnone : ¬ (indicesOf (calls.foldl call .new).productions s).isSome :=
      fun h => hs ((mem_keys_calls calls s).2 (indicesOf_isSome_iff.1 h))
    rw [Option.not_isSome_iff_eq_none.1 hnone]
    rfl

/-- The names of the calls, in the order of their ids. -/
def namesOf (calls : List (BuilderCall R)) : List String := (calls.foldl NamedGrammar.call .new).names

/-- The name of a symbol. -/
def nameOf (calls : List (BuilderCall R)) (s : Nat) : String := (namesOf calls).getD s ""

theorem nameOf_idxOf {name : String} (h : name ∈ namesOf calls) :
    nameOf calls ((namesOf calls).idxOf name) = name := by
  have hlt := Interning.idxOf_lt h
  unfold nameOf
  rw [List.getD_eq_getElem?_getD, List.getElem?_eq_getElem hlt]
  exact List.getElem_idxOf hlt

/-- A production other than that of the root has a call, which has its rule. -/
theorem exists_entry (h : HasRoot calls) {i : Nat} (hi : i < (grammar calls h).productions.length)
    (hroot : i ≠ (grammar calls h).rootProductionId) :
    ∃ e ∈ NamedGrammar.productionCalls calls,
      (grammar calls h).rule i = NamedGrammar.encode (namesOf calls) e.1 ∧
      (calls.foldl call .new).semanticRules.getD i none = e.2 ∧
      e.1.1 ∈ namesOf calls ∧ ∀ s ∈ e.1.2, s ∈ namesOf calls := by
  obtain ⟨first, later, hcalls, hfirst⟩ := h.exists_cons
  have hencodes := (encodes_calls calls).1
  obtain ⟨hone, -, ⟨rest, hfront⟩, -, hrules⟩ := builds_calls hcalls hfirst
  have hproductions : (grammar calls h).productions = _ := hencodes.productions
  have hne : i ≠ 1 := fun heq => hroot (heq.trans hone.symm)
  unfold namesOf
  unfold ParserGrammar.rule
  rw [hproductions, hencodes.semanticRules]
  rw [hproductions, List.length_map] at hi
  have hnodup := hencodes.pairs_nodup
  have hmem := hencodes.pairs_mem
  unfold NamedGrammar.pairs at hi hfront hnodup hmem ⊢
  generalize (calls.foldl NamedGrammar.call .new) = g at hi hfront hnodup hmem hrules ⊢
  rw [List.length_map] at hi
  have hpair : g.entries[i].1 ∈ g.entries.map Prod.fst := List.mem_map_of_mem (List.getElem_mem hi)
  refine ⟨g.entries[i], ?_, ?_, ?_, hmem _ hpair⟩
  · have hlookup := Interning.lookup_eq_some_of_mem hnodup (List.getElem_mem hi)
    rw [hrules, List.lookup_eq_some_iff] at hlookup
    obtain ⟨l₁, l₂, hsplit, -⟩ := hlookup
    have hentry : g.entries[i] ∈ later.reverse ++ [first, ((cStartPrime, [first.1.1]), none)] := by
      rw [hsplit]
      exact List.mem_append_right _ List.mem_cons_self
    rw [List.mem_append, List.mem_reverse, List.mem_cons, List.mem_singleton] at hentry
    rw [hcalls]
    rcases hentry with hlater | hfirst' | hstart
    · exact List.mem_cons_of_mem _ hlater
    · rw [hfirst']
      exact List.mem_cons_self
    · -- The pair of the root is the second one.
      have hsecond : (g.entries.map Prod.fst)[1]? = some (cStartPrime, [first.1.1]) := by
        rw [hfront]
        rfl
      have hthis : (g.entries.map Prod.fst)[i]? = some (cStartPrime, [first.1.1]) := by
        rw [List.getElem?_map, List.getElem?_eq_getElem hi, hstart]
        rfl
      exact absurd ((List.getElem?_inj (by simpa using hi) hnodup).1
        (hthis.trans hsecond.symm)) hne
  · simp [hi]
  · simp [hi]

/-- The production of the root, by its names. -/
def rootPair (calls : List (BuilderCall R)) : String × List String :=
  (cStartPrime, [((NamedGrammar.productionCalls calls).head?.map fun e => e.1.1).getD ""])

/-- The productions are that of the root and those of the calls. -/
theorem mem_productions_grammar (h : HasRoot calls) {p : Production Nat} :
    p ∈ (grammar calls h).productions ↔
      ∃ pair ∈ rootPair calls :: (NamedGrammar.productionCalls calls).map Prod.fst,
        NamedGrammar.encode (namesOf calls) pair = p := by
  obtain ⟨first, later, hcalls, hfirst⟩ := h.exists_cons
  obtain ⟨-, -, -, hpairs, -⟩ := builds_calls hcalls hfirst
  have hproductions : (grammar calls h).productions = _ := (encodes_calls calls).1.productions
  have hroot : rootPair calls = (cStartPrime, [first.1.1]) := by
    unfold rootPair
    rw [hcalls]
    rfl
  rw [hproductions, List.mem_map, hroot, hcalls]
  refine exists_congr fun pair => and_congr_left fun _ => ?_
  rw [hpairs, List.mem_cons]

theorem mem_namesOf_of_mem (h : HasRoot calls) {pair : String × List String}
    (hpair : pair ∈ rootPair calls :: (NamedGrammar.productionCalls calls).map Prod.fst) :
    pair.1 ∈ namesOf calls ∧ ∀ s ∈ pair.2, s ∈ namesOf calls := by
  obtain ⟨first, later, hcalls, hfirst⟩ := h.exists_cons
  obtain ⟨-, -, -, hpairs, -⟩ := builds_calls hcalls hfirst
  refine (encodes_calls calls).1.pairs_mem pair ((hpairs pair).2 ?_)
  unfold rootPair at hpair
  rw [hcalls] at hpair
  exact List.mem_cons.1 hpair

theorem rule_rootProductionId (h : HasRoot calls) :
    (grammar calls h).rule (grammar calls h).rootProductionId =
      NamedGrammar.encode (namesOf calls) (rootPair calls) := by
  obtain ⟨first, later, hcalls, hfirst⟩ := h.exists_cons
  obtain ⟨hone, -, ⟨rest, hfront⟩, -, -⟩ := builds_calls hcalls hfirst
  have hproductions : (grammar calls h).productions = _ := (encodes_calls calls).1.productions
  have hroot : (grammar calls h).rootProductionId = 1 := hone
  unfold ParserGrammar.rule
  rw [hproductions, hroot, hfront]
  unfold rootPair
  rw [hcalls]
  rfl

/-- The names of the tokens: those with rules, and the reserved ones. -/
def IsTokenName (calls : List (BuilderCall R)) (name : String) : Prop :=
  name ∈ NamedGrammar.ruleNames calls ∨ name ∈ Parser.new.symbolId.map Prod.fst

theorem mem_terminals_grammar (h : HasRoot calls) {s : Nat} :
    s ∈ (grammar calls h).terminals ↔
      ∃ name, IsTokenName calls name ∧ (namesOf calls).idxOf name = s := by
  obtain ⟨first, later, hcalls, hfirst⟩ := h.exists_cons
  obtain ⟨-, hterminals, -⟩ := builds_calls hcalls hfirst
  refine ((encodes_calls calls).1.terminals s).trans ?_
  exact exists_congr fun name => and_congr_left fun _ => hterminals name

theorem mem_namesOf_of_isTokenName (h : HasRoot calls) {name : String}
    (hname : IsTokenName calls name) : name ∈ namesOf calls := by
  obtain ⟨first, later, hcalls, hfirst⟩ := h.exists_cons
  obtain ⟨-, hterminals, -⟩ := builds_calls hcalls hfirst
  exact (encodes_calls calls).1.terminals_mem name ((hterminals name).2 hname)

theorem symbolIdOf_addRule (parser : Parser) (name : String) (rule : RegexAST) :
    (parser.addRule name rule).symbolIdOf name = parser.symbolIdOf name := by
  unfold Parser.symbolIdOf Parser.addRule
  dsimp only
  cases hlookup : parser.symbolId.lookup name with
  | some id => simp [hlookup]
  | none =>
    rw [if_neg (by simp), List.lookup_append, hlookup]
    simp [Parser.symbolIdOf, hlookup]

/-- The rules of the lexer are rules of terminals. -/
theorem variableId_mem_terminals (calls : List (BuilderCall R)) :
    ∀ rule ∈ (calls.foldl call .new).parser.rules,
      rule.variableId ∈ (calls.foldl call .new).terminals := by
  have hall : ∀ b : GrammarBuilder R, (∀ rule ∈ b.parser.rules, rule.variableId ∈ b.terminals) →
      ∀ rule ∈ (calls.foldl call b).parser.rules,
        rule.variableId ∈ (calls.foldl call b).terminals := by
    induction calls with
    | nil => exact fun b h => h
    | cons c calls ih =>
      intro b hb
      refine ih _ ?_
      cases c with
      | rule name regex =>
        refine List.forall_mem_append.2 ⟨fun rule hrule => ?_, List.forall_mem_singleton.2 ?_⟩
        · exact OrderedSet.mem_insert.2 (Or.inr (hb rule hrule))
        · exact OrderedSet.mem_insert.2 (Or.inl (symbolIdOf_addRule b.parser name regex).symm)
      | production head body semanticRule =>
        obtain ⟨hterminals, hrules⟩ := addProduction_kept b head body semanticRule
        show ∀ rule ∈ (b.addProduction head body semanticRule).parser.rules,
          rule.variableId ∈ (b.addProduction head body semanticRule).terminals
        rwa [hterminals, hrules]
  exact hall .new fun rule hrule => absurd hrule List.not_mem_nil

end GrammarBuilder

/-! ### The number of names -/

/-- The most names that a call adds, with that of the root. -/
def BuilderCall.size {R : Type} : BuilderCall R → Nat
  | .rule _ _ => 1
  | .production _ body _ => body.length + 3

theorem NamedGrammar.length_names_call {R : Type} (g : NamedGrammar R) (c : BuilderCall R) :
    (g.call c).names.length ≤ g.names.length + c.size := by
  have hinsert : ∀ (g : NamedGrammar R) head body semanticRule,
      (g.insertProduction head body semanticRule).names.length ≤
        g.names.length + (body.length + 1) := by
    intro g head body semanticRule
    have hhead := Interning.length_intern_le g.names head
    have hbody := Interning.length_internAll_le (Interning.intern g.names head) body
    unfold NamedGrammar.insertProduction
    split
    · show (Interning.intern g.names head).length ≤ _
      omega
    · show (Interning.internAll (Interning.intern g.names head) body).length ≤ _
      omega
  cases c with
  | rule name rule => exact Interning.length_intern_le g.names name
  | production head body semanticRule =>
    have hfirst := hinsert g head body semanticRule
    show (g.addProduction head body semanticRule).names.length ≤ g.names.length + (body.length + 3)
    unfold NamedGrammar.addProduction
    split
    · have hroot := hinsert (g.insertProduction head body semanticRule) cStartPrime [head] none
      rw [List.length_singleton] at hroot
      omega
    · omega

theorem GrammarBuilder.length_namesOf_le {R : Type} (calls : List (BuilderCall R)) :
    (namesOf calls).length ≤ 7 + (calls.map BuilderCall.size).sum := by
  have hall : ∀ g : NamedGrammar R, (calls.foldl NamedGrammar.call g).names.length ≤
      g.names.length + (calls.map BuilderCall.size).sum := by
    induction calls with
    | nil => exact fun g => Nat.le_refl _
    | cons c calls ih =>
      intro g
      have hcall := g.length_names_call c
      have hlater := ih (g.call c)
      rw [List.foldl_cons, List.map_cons, List.sum_cons]
      omega
  exact hall .new

namespace GrammarBuilder

variable {R : Type} {calls : List (BuilderCall R)}

/-- The grammar of the calls has their productions, by the ids of their names. -/
theorem calls_build (h : HasRoot calls) :
    ∃ g first later, NamedGrammar.productionCalls calls = first :: later ∧
      (calls.foldl call .new).Encodes g ∧ Builds calls first later g ∧
      (grammar calls h).productions = g.pairs.map (NamedGrammar.encode g.names) ∧
      (grammar calls h).rootProductionId = 1 ∧
      ∀ s, (grammar calls h).productionsOf s =
        derefOr .thrown ((calls.foldl call .new).nonTerminals.lookup s) := by
  obtain ⟨first, later, hcalls, hfirst⟩ := h.exists_cons
  have hencodes := (encodes_calls calls).1
  obtain ⟨hroot, hbuilds⟩ := builds_calls hcalls hfirst
  exact ⟨_, first, later, hcalls, hencodes, hbuilds, hencodes.productions, hroot,
    productionsOf_grammar h⟩

/-- The letter `a`, and lists of it. -/
def letterCalls : List (BuilderCall Unit) :=
  [.rule "a" (.mkLiteral 97), .production "List" [] none, .production "List" ["List", "a"] none]

theorem calls_build_letters :
    ∃ h : HasRoot letterCalls, ∃ g first later,
      NamedGrammar.productionCalls letterCalls = first :: later ∧
      (letterCalls.foldl call .new).Encodes g ∧ Builds letterCalls first later g ∧
      (grammar letterCalls h).productions = g.pairs.map (NamedGrammar.encode g.names) ∧
      (grammar letterCalls h).rootProductionId = 1 ∧
      ∀ s, (grammar letterCalls h).productionsOf s =
        derefOr .thrown ((letterCalls.foldl call .new).nonTerminals.lookup s) := by
  have hroot : HasRoot letterCalls := ⟨_, rfl, by decide⟩
  exact ⟨hroot, calls_build hroot⟩

end GrammarBuilder

end LogSurgeon
