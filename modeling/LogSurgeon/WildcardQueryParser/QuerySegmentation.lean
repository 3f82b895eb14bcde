import LogSurgeon.WildcardQueryParser.Query
import Mathlib.Data.List.Chain

/-!
# Segmentations of a query

The interpretations of a query by cutting it into segments, and the proof that
the table holds exactly these.  `Interprets` follows the recursion of the table
from the last segment, and `interprets_iff` turns it into cut points.
-/

namespace LogSurgeon.Query

open Lib

variable {env : QueryEnvironment} {lexer : LexerTables} {expression : Expression}
  {table table' : InterpretationTable} {b n : Nat} {i : QueryInterpretation}

/-! ## Segments -/

/-- A segment of two or more characters that begins or ends with a greedy
wildcard. -/
def Redundant (expression : Expression) (b n : Nat) : Prop :=
  2 ≤ n - b ∧ (ExpressionView.new expression b n).startsOrEndsWithGreedyWildcard

instance (expression : Expression) (b n : Nat) : Decidable (Redundant expression b n) :=
  inferInstanceAs (Decidable (_ ∧ _))

/-- `i` is one of the interpretations of the segment as a single token. -/
def InterpretsSegment (env : QueryEnvironment) (lexer : LexerTables) (expression : Expression)
    (b n : Nat) (i : QueryInterpretation) : Prop :=
  ¬ Redundant expression b n ∧ ∃ singles,
    getAllSingleTokenInterpretations env lexer (ExpressionView.new expression b n) =
      some singles ∧ i ∈ singles

/-- The segments from `a` to the first cut point, and on between the cut
points. -/
def segments : Nat → List Nat → List (Nat × Nat)
  | _, [] => []
  | a, c :: cuts => (a, c) :: segments c cuts

/-- Cut points from 0 up to `n`, without the 0. -/
def Cuts (n : Nat) (cuts : List Nat) : Prop :=
  (0 :: cuts).IsChain (· < ·) ∧ cuts.getLast? = some n

/-- `i` is made by choosing an interpretation of each segment and appending
them. -/
def MadeFrom (env : QueryEnvironment) (lexer : LexerTables) (expression : Expression)
    (cuts : List Nat) (i : QueryInterpretation) : Prop :=
  ∃ chosen : List QueryInterpretation,
    List.Forall₂ (fun segment single =>
      InterpretsSegment env lexer expression segment.1 segment.2 single) (segments 0 cuts) chosen ∧
    i = chosen.foldl QueryInterpretation.appendQueryInterpretation {}

/-- The interpretations of the first `n` characters, by their last segment. -/
inductive Interprets (env : QueryEnvironment) (lexer : LexerTables) (expression : Expression) :
    Nat → QueryInterpretation → Prop where
  | single {n : Nat} {i : QueryInterpretation} (hpos : 0 < n)
      (h : InterpretsSegment env lexer expression 0 n i) : Interprets env lexer expression n i
  | append {b n : Nat} {i suffix : QueryInterpretation}
      (h : Interprets env lexer expression b i) (hlt : b < n)
      (hsuffix : InterpretsSegment env lexer expression b n suffix) :
      Interprets env lexer expression n (i.appendQueryInterpretation suffix)

theorem Interprets.pos (h : Interprets env lexer expression n i) : 0 < n := by
  cases h with
  | single hpos => exact hpos
  | append _ hlt => omega

theorem segments_concat (a n : Nat) (cuts : List Nat) :
    segments a (cuts ++ [n]) = segments a cuts ++ [(cuts.getLast?.getD a, n)] := by
  induction cuts generalizing a with
  | nil => rfl
  | cons c cuts ih =>
    rw [List.cons_append, segments, segments, ih, List.getLast?_cons, Option.getD_some,
      List.cons_append]

/-- Choosing from the segments behind an interpretation goes on with it. -/
theorem Interprets.foldl {cuts : List Nat} {chosen : List QueryInterpretation}
    (h : Interprets env lexer expression b i) (hchain : (b :: cuts).IsChain (· < ·))
    (hchosen : List.Forall₂ (fun segment single =>
      InterpretsSegment env lexer expression segment.1 segment.2 single)
      (segments b cuts) chosen) :
    Interprets env lexer expression (cuts.getLast?.getD b)
      (chosen.foldl QueryInterpretation.appendQueryInterpretation i) := by
  induction cuts generalizing b i chosen with
  | nil =>
    cases hchosen
    exact h
  | cons c cuts ih =>
    rw [List.isChain_cons_cons] at hchain
    rw [segments] at hchosen
    cases hchosen with
    | cons hsuffix hrest =>
      rw [List.getLast?_cons, Option.getD_some, List.foldl_cons]
      exact ih (h.append hchain.1 hsuffix) hchain.2 hrest

theorem interprets_iff :
    Interprets env lexer expression n i ↔
      ∃ cuts, Cuts n cuts ∧ MadeFrom env lexer expression cuts i := by
  constructor
  · intro h
    induction h with
    | @single n i hpos h =>
      refine ⟨[n], ⟨List.isChain_pair.2 hpos, rfl⟩, [i], .cons h .nil, ?_⟩
      exact (QueryInterpretation.appendQueryInterpretation_empty i).symm
    | @append b n i suffix _ hlt hsuffix ih =>
      obtain ⟨cuts, ⟨hchain, hlast⟩, chosen, hchosen, rfl⟩ := ih
      refine ⟨cuts ++ [n], ⟨?_, List.getLast?_concat⟩, chosen ++ [suffix], ?_, ?_⟩
      · rw [← List.cons_append, List.isChain_append]
        refine ⟨hchain, List.isChain_singleton n, fun x hx y hy => ?_⟩
        rw [List.getLast?_cons, hlast] at hx
        cases hx
        cases hy
        exact hlt
      · rw [segments_concat, hlast]
        exact List.rel_append hchosen (.cons hsuffix .nil)
      · rw [List.foldl_append]
        rfl
  · rintro ⟨cuts, ⟨hchain, hlast⟩, chosen, hchosen, rfl⟩
    cases cuts with
    | nil => cases hlast
    | cons c cuts =>
      rw [List.isChain_cons_cons] at hchain
      rw [List.getLast?_cons, Option.some.injEq] at hlast
      rw [segments] at hchosen
      cases hchosen with
      | cons hfirst hrest =>
        rw [List.foldl_cons, QueryInterpretation.appendQueryInterpretation_empty, ← hlast]
        exact (Interprets.single hchain.1 hfirst).foldl hchain.2 hrest

/-! ## The table -/

/-- A loop whose body fails at some elements, whatever the state, fails if it
meets one of them. -/
theorem foldlM_eq_none_iff {α σ : Type*} {f : σ → α → Option σ} {Fails : α → Prop} {l : List α}
    (hf : ∀ s, ∀ a ∈ l, f s a = none ↔ Fails a) (s : σ) :
    l.foldlM f s = none ↔ ∃ a ∈ l, Fails a := by
  induction l generalizing s with
  | nil => simp
  | cons a l ih =>
    rw [List.foldlM_cons, List.exists_mem_cons_iff, ← hf s a List.mem_cons_self]
    cases h : f s a with
    | none => simp
    | some s' => simpa using ih (fun s a' ha' => hf s a' (List.mem_cons_of_mem a ha')) s'

/-- The view is not skipped, and its interpretation throws. -/
def Throws (env : QueryEnvironment) (lexer : LexerTables) (expression : Expression)
    (b n : Nat) : Prop :=
  ¬ Redundant expression b n ∧
    getAllSingleTokenInterpretations env lexer (ExpressionView.new expression b n) = none

/-- A single greedy wildcard is the only view with one at its ends that is not
skipped. -/
theorem redundant_iff (hlt : b < n) (hn : n ≤ expression.length) :
    Redundant expression b n ↔
      (ExpressionView.new expression b n).getSearchString ≠ [ExpressionCharacter.cStar] ∧
        (ExpressionView.new expression b n).startsOrEndsWithGreedyWildcard := by
  have hlength : (ExpressionView.new expression b n).getSearchString.length = n - b := by
    rw [ExpressionView.length_getSearchString, ExpressionView.new_eq hlt.le hn]
  unfold Redundant
  refine and_congr_left fun hgreedy => ?_
  constructor
  · intro htwo heq
    rw [heq, List.length_singleton] at hlength
    omega
  · intro hne
    by_contra hone
    obtain ⟨c, hc⟩ := List.length_eq_one_iff.1 ((ExpressionView.length_chars
      (ExpressionView.new expression b n)).trans (by
        rw [ExpressionView.new_eq hlt.le hn]
        show n - b = 1
        omega))
    unfold ExpressionView.startsOrEndsWithGreedyWildcard at hgreedy
    rw [hc] at hgreedy
    have hstar : c.isGreedyWildcard := by simpa using hgreedy
    have hmem : c ∈ expression.getChars := ExpressionView.mem_getChars_of_mem_chars
      (v := ExpressionView.new expression b n) (by rw [hc]; exact List.mem_singleton_self c)
    rw [Expression.getChars_eq] at hmem
    rw [Expression.eq_greedyStar hmem hstar] at hc
    rw [← ExpressionView.map_value_chars, hc] at hne
    exact hne rfl

/-- What the body of the inner loop adds to the entry of `endIdx`. -/
def additions (table : InterpretationTable) (b : Nat) (singles : List QueryInterpretation) :
    List QueryInterpretation :=
  if b = 0 then singles else combine ((table[b - 1]?).getD OrderedSet.empty) singles

theorem interpretView_eq (hlt : b < n) (hn : n ≤ expression.length) :
    interpretView env lexer expression n table b =
      if Redundant expression b n then some table
      else (getAllSingleTokenInterpretations env lexer (ExpressionView.new expression b n)).map
        fun singles => table.modify (n - 1) (·.insertAll (additions table b singles)) := by
  have hnil : table.modify (n - 1) (·.insertAll []) = table := List.modify_id (n - 1) table
  by_cases hredundant : Redundant expression b n
  · rw [if_pos hredundant]
    exact if_pos ((redundant_iff hlt hn).1 hredundant)
  · rw [if_neg hredundant]
    refine (if_neg (mt (redundant_iff hlt hn).2 hredundant)).trans ?_
    congr 1
    funext singles
    unfold additions
    split
    · rename_i hsingles
      subst hsingles
      split
      · exact hnil.symm
      · have hcombine : combine ((table[b - 1]?).getD OrderedSet.empty) [] = [] := by
          unfold combine
          simp
        rw [hcombine]
        exact hnil.symm
    · split <;> rfl

theorem interpretView_eq_none_iff (hlt : b < n) (hn : n ≤ expression.length) :
    interpretView env lexer expression n table b = none ↔ Throws env lexer expression b n := by
  rw [interpretView_eq hlt hn]
  unfold Throws
  split
  · rename_i hredundant
    simp [hredundant]
  · rename_i hredundant
    simp [hredundant]

/-- The interpretations of the first `n` characters whose last segment begins
in front of `m`. -/
def InterpretsBelow (env : QueryEnvironment) (lexer : LexerTables) (expression : Expression)
    (n m : Nat) (i : QueryInterpretation) : Prop :=
  (0 < m ∧ InterpretsSegment env lexer expression 0 n i) ∨
    ∃ b p suffix, b < m ∧ Interprets env lexer expression b p ∧
      InterpretsSegment env lexer expression b n suffix ∧ i = p.appendQueryInterpretation suffix

theorem interpretsBelow_zero : ¬ InterpretsBelow env lexer expression n 0 i := by
  rintro (⟨h, -⟩ | ⟨b, -, -, h, -⟩)
  · omega
  · omega

theorem interpretsBelow_self (hpos : 0 < n) :
    InterpretsBelow env lexer expression n n i ↔ Interprets env lexer expression n i := by
  constructor
  · rintro (⟨-, h⟩ | ⟨b, p, suffix, hlt, hp, hsuffix, rfl⟩)
    · exact .single hpos h
    · exact hp.append hlt hsuffix
  · intro h
    cases h with
    | single hpos h => exact Or.inl ⟨hpos, h⟩
    | append h hlt hsuffix => exact Or.inr ⟨_, _, _, hlt, h, hsuffix, rfl⟩

theorem interpretsBelow_succ :
    InterpretsBelow env lexer expression n (b + 1) i ↔
      ((b = 0 ∧ InterpretsSegment env lexer expression 0 n i) ∨
        ∃ p suffix, Interprets env lexer expression b p ∧
          InterpretsSegment env lexer expression b n suffix ∧
          i = p.appendQueryInterpretation suffix) ∨
      InterpretsBelow env lexer expression n b i := by
  constructor
  · rintro (⟨-, h⟩ | ⟨a, p, suffix, hlt, hp, hsuffix, rfl⟩)
    · rcases Nat.eq_zero_or_pos b with hb | hb
      · exact Or.inl (Or.inl ⟨hb, h⟩)
      · exact Or.inr (Or.inl ⟨hb, h⟩)
    · rcases Nat.lt_succ_iff_lt_or_eq.1 hlt with hlt | rfl
      · exact Or.inr (Or.inr ⟨a, p, suffix, hlt, hp, hsuffix, rfl⟩)
      · exact Or.inl (Or.inr ⟨p, suffix, hp, hsuffix, rfl⟩)
  · rintro ((⟨-, h⟩ | ⟨p, suffix, hp, hsuffix, rfl⟩) | ⟨-, h⟩ | ⟨a, p, suffix, hlt, h⟩)
    · exact Or.inl ⟨Nat.succ_pos b, h⟩
    · exact Or.inr ⟨b, p, suffix, Nat.lt_succ_self b, hp, hsuffix, rfl⟩
    · exact Or.inl ⟨Nat.succ_pos b, h⟩
    · exact Or.inr ⟨a, p, suffix, by omega, h⟩

theorem mem_combine {prefixes : OrderedSet QueryInterpretation}
    {suffixes : List QueryInterpretation} :
    i ∈ combine prefixes suffixes ↔
      ∃ p ∈ prefixes, ∃ suffix ∈ suffixes, i = p.appendQueryInterpretation suffix := by
  unfold combine
  simp only [List.mem_flatMap, List.mem_map, OrderedSet.mem_def, eq_comm]

/-- The entries in front of entry `n` are complete, entry `n` has the
interpretations whose last segment begins in front of `m`, and the rest is
empty. -/
structure TableInvariant (env : QueryEnvironment) (lexer : LexerTables)
    (expression : Expression) (n m : Nat) (table : InterpretationTable) : Prop where
  length : table.length = expression.length
  entry : ∀ k set, table[k]? = some set → ∀ i, i ∈ set ↔
    (k < n ∧ Interprets env lexer expression (k + 1) i) ∨
      (k = n ∧ InterpretsBelow env lexer expression (n + 1) m i)

theorem TableInvariant.initial (expression : Expression) :
    TableInvariant env lexer expression 0 0
      (List.replicate expression.length OrderedSet.empty) := by
  refine ⟨List.length_replicate, fun k set hset i => ?_⟩
  obtain rfl : set = OrderedSet.empty := by
    obtain ⟨hk, hset⟩ := List.getElem?_eq_some_iff.1 hset
    rw [← hset, List.getElem_replicate]
  have hbelow := @interpretsBelow_zero env lexer expression (0 + 1) i
  simp [hbelow]

/-- The last complete entry. -/
theorem TableInvariant.next (h : TableInvariant env lexer expression n (n + 1) table) :
    TableInvariant env lexer expression (n + 1) 0 table := by
  refine ⟨h.length, fun k set hset i => ?_⟩
  rw [h.entry k set hset i, interpretsBelow_self (Nat.succ_pos n)]
  have hbelow := @interpretsBelow_zero env lexer expression (n + 1 + 1) i
  constructor
  · rintro (⟨hk, hi⟩ | ⟨rfl, hi⟩)
    · exact Or.inl ⟨by omega, hi⟩
    · exact Or.inl ⟨by omega, hi⟩
  · rintro (⟨hk, hi⟩ | ⟨-, hi⟩)
    · rcases Nat.lt_succ_iff_lt_or_eq.1 hk with hk | rfl
      · exact Or.inl ⟨hk, hi⟩
      · exact Or.inr ⟨rfl, hi⟩
    · exact absurd hi hbelow

theorem TableInvariant.mem_additions (h : TableInvariant env lexer expression n b table)
    (hlt : b ≤ n) (hn : n < expression.length) {singles : List QueryInterpretation} :
    i ∈ additions table b singles ↔ (b = 0 ∧ i ∈ singles) ∨
      ∃ p, Interprets env lexer expression b p ∧ ∃ suffix ∈ singles,
        i = p.appendQueryInterpretation suffix := by
  unfold additions
  split
  · rename_i hb
    subst hb
    have hpos : ∀ p, ¬ Interprets env lexer expression 0 p := fun p hp => absurd hp.pos (by omega)
    simp [hpos]
  · rename_i hb
    have hlength := h.length
    obtain ⟨set, hset⟩ : ∃ set, table[b - 1]? = some set :=
      ⟨_, List.getElem?_eq_getElem (by omega)⟩
    have hmem : ∀ p, p ∈ set ↔ Interprets env lexer expression b p := by
      intro p
      rw [h.entry (b - 1) set hset p, Nat.sub_add_cancel (by omega)]
      constructor
      · rintro (⟨-, hp⟩ | ⟨hk, -⟩)
        · exact hp
        · omega
      · exact fun hp => Or.inl ⟨by omega, hp⟩
    rw [hset, Option.getD_some, mem_combine]
    simp only [hmem, hb, false_and, false_or]

theorem TableInvariant.interpretView (h : TableInvariant env lexer expression n b table)
    (hlt : b ≤ n) (hn : n < expression.length)
    (hview : interpretView env lexer expression (n + 1) table b = some table') :
    TableInvariant env lexer expression n (b + 1) table' := by
  rw [interpretView_eq (show b < n + 1 by omega) hn] at hview
  split at hview
  · rename_i hredundant
    cases hview
    have hnone : ∀ j, ¬ InterpretsSegment env lexer expression b (n + 1) j :=
      fun j hj => hj.1 hredundant
    refine ⟨h.length, fun k set hset i => ?_⟩
    have hzero : ¬ (b = 0 ∧ InterpretsSegment env lexer expression 0 (n + 1) i) := by
      rintro ⟨rfl, hi⟩
      exact hnone i hi
    rw [h.entry k set hset i, interpretsBelow_succ]
    simp [hnone, hzero]
  · rename_i hredundant
    obtain ⟨singles, hsingles, rfl⟩ := Option.map_eq_some_iff.1 hview
    have hsegment : ∀ j, InterpretsSegment env lexer expression b (n + 1) j ↔ j ∈ singles := by
      intro j
      unfold InterpretsSegment
      rw [hsingles]
      simp [hredundant]
    refine ⟨by rw [List.length_modify, h.length], fun k set hset i => ?_⟩
    rw [List.getElem?_modify, Nat.add_sub_cancel] at hset
    obtain ⟨old, hold, rfl⟩ := Option.map_eq_some_iff.1 hset
    by_cases hk : n = k
    · subst hk
      rw [if_pos rfl, OrderedSet.mem_insertAll, h.mem_additions hlt hn, h.entry n old hold i,
        interpretsBelow_succ]
      have hzero : (b = 0 ∧ InterpretsSegment env lexer expression 0 (n + 1) i) ↔
          b = 0 ∧ i ∈ singles := by
        refine and_congr_right ?_
        rintro rfl
        exact hsegment i
      rw [hzero]
      simp [hsegment]
    · rw [if_neg hk, h.entry k old hold i]
      simp [Ne.symm hk]

/-- The inner loop. -/
theorem TableInvariant.interpretEnd (h : TableInvariant env lexer expression n 0 table)
    (hn : n < expression.length)
    (hend : interpretEnd env lexer expression table (n + 1) = some table') :
    TableInvariant env lexer expression (n + 1) 0 table' := by
  have hfold : ∀ m ≤ n + 1, ∀ table', (List.range m).foldlM
      (Query.interpretView env lexer expression (n + 1)) table = some table' →
      TableInvariant env lexer expression n m table' := by
    intro m hm
    induction m with
    | zero =>
      intro table' htable'
      cases htable'
      exact h
    | succ m ih =>
      intro table' htable'
      rw [List.range_succ, List.foldlM_append] at htable'
      obtain ⟨middle, hmiddle, hlast⟩ := Option.bind_eq_some_iff.1 htable'
      obtain ⟨last, hlast, hpure⟩ := Option.bind_eq_some_iff.1 hlast
      cases hpure
      exact (ih (by omega) middle hmiddle).interpretView (by omega) hn hlast
  exact (hfold (n + 1) le_rfl table' hend).next

/-- The outer loop. -/
theorem tableInvariant_of_foldlM (hn : n ≤ expression.length)
    (hfold : (List.range' 1 n).foldlM (interpretEnd env lexer expression)
      (List.replicate expression.length OrderedSet.empty) = some table) :
    TableInvariant env lexer expression n 0 table := by
  induction n generalizing table with
  | zero =>
    cases hfold
    exact .initial expression
  | succ n ih =>
    rw [List.range'_1_concat, List.foldlM_append] at hfold
    obtain ⟨middle, hmiddle, hlast⟩ := Option.bind_eq_some_iff.1 hfold
    obtain ⟨last, hlast, hpure⟩ := Option.bind_eq_some_iff.1 hlast
    cases hpure
    rw [Nat.add_comm 1 n] at hlast
    exact (ih (by omega) hmiddle).interpretEnd hn hlast

theorem interpretEnd_eq_none_iff (hn : n ≤ expression.length) :
    interpretEnd env lexer expression table n = none ↔
      ∃ b < n, Throws env lexer expression b n := by
  have hview : ∀ table, ∀ b ∈ List.range n, interpretView env lexer expression n table b = none ↔
      Throws env lexer expression b n :=
    fun table b hb => interpretView_eq_none_iff (List.mem_range.1 hb) hn
  unfold interpretEnd
  rw [foldlM_eq_none_iff hview]
  simp only [List.mem_range]

/-- The table of an expression that is not empty. -/
theorem mem_getAllMultiTokenInterpretations_iff {q : Query}
    {interpretations : OrderedSet QueryInterpretation}
    (h : q.getAllMultiTokenInterpretations env lexer = some interpretations)
    (i : QueryInterpretation) :
    i ∈ interpretations ↔
      Interprets env lexer ⟨q.processedQueryString⟩ q.processedQueryString.length i := by
  unfold getAllMultiTokenInterpretations at h
  split at h
  · rename_i hempty
    cases h
    rw [hempty]
    simp only [OrderedSet.not_mem_empty, false_iff]
    exact fun hi => absurd hi.pos (by simp)
  · rename_i hne
    have hpos : 0 < q.processedQueryString.length := List.length_pos_of_ne_nil hne
    obtain ⟨table, htable, hlast⟩ := Option.bind_eq_some_iff.1 h
    have hinv := tableInvariant_of_foldlM le_rfl htable
    have hlength : table.length = q.processedQueryString.length := hinv.length
    rw [List.getLast?_eq_getElem?, hlength] at hlast
    rw [hinv.entry _ _ hlast i, Nat.sub_add_cancel hpos]
    constructor
    · rintro (⟨-, hi⟩ | ⟨hk, -⟩)
      · exact hi
      · have hk : q.processedQueryString.length - 1 = q.processedQueryString.length := hk
        omega
    · exact fun hi => Or.inl ⟨Nat.sub_lt hpos Nat.one_pos, hi⟩

theorem getAllMultiTokenInterpretations_eq_none_iff {q : Query} :
    q.getAllMultiTokenInterpretations env lexer = none ↔
      ∃ b n, b < n ∧ n ≤ q.processedQueryString.length ∧
        Throws env lexer ⟨q.processedQueryString⟩ b n := by
  unfold getAllMultiTokenInterpretations
  split
  · rename_i hempty
    rw [hempty]
    simp only [reduceCtorEq, List.length_nil, false_iff]
    rintro ⟨b, n, hlt, hn, -⟩
    omega
  · rename_i hne
    have hpos : 0 < q.processedQueryString.length := List.length_pos_of_ne_nil hne
    have hend : ∀ table, ∀ n ∈ List.range' 1 q.processedQueryString.length,
        interpretEnd env lexer ⟨q.processedQueryString⟩ table n = none ↔
          ∃ b < n, Throws env lexer ⟨q.processedQueryString⟩ b n := by
      intro table n hn
      rw [List.mem_range'_1] at hn
      have hlength : n ≤ (Expression.mk q.processedQueryString).length := by
        show n ≤ q.processedQueryString.length
        omega
      exact interpretEnd_eq_none_iff hlength
    have hnone := foldlM_eq_none_iff hend
      (List.replicate q.processedQueryString.length OrderedSet.empty)
    have hthrows : (∃ n ∈ List.range' 1 q.processedQueryString.length,
        ∃ b < n, Throws env lexer ⟨q.processedQueryString⟩ b n) ↔
          ∃ b n, b < n ∧ n ≤ q.processedQueryString.length ∧
            Throws env lexer ⟨q.processedQueryString⟩ b n := by
      constructor
      · rintro ⟨n, hn, b, hlt, h⟩
        rw [List.mem_range'_1] at hn
        exact ⟨b, n, hlt, by omega, h⟩
      · rintro ⟨b, n, hlt, hn, h⟩
        exact ⟨n, List.mem_range'_1.2 ⟨by omega, by omega⟩, b, hlt, h⟩
    rw [← hthrows, ← hnone, Option.bind_eq_bind, Option.bind_eq_none_iff]
    constructor
    · intro h
      by_contra hsome
      obtain ⟨table, htable⟩ := Option.ne_none_iff_exists'.1 hsome
      have hlength : table.length = q.processedQueryString.length :=
        (tableInvariant_of_foldlM le_rfl htable).length
      have hlast := h table htable
      rw [List.getLast?_eq_none_iff] at hlast
      rw [hlast, List.length_nil] at hlength
      omega
    · intro h table htable
      have hfold := h.symm.trans htable
      cases hfold

/-- The interpretations of a query are those of its segmentations.  The call
throws if the interpretation of a segment does. -/
theorem getAllMultiTokenInterpretations_spec (env : QueryEnvironment) (lexer : LexerTables)
    (q : Query) :
    (q.getAllMultiTokenInterpretations env lexer = none ↔
      ∃ b n, b < n ∧ n ≤ q.processedQueryString.length ∧
        Throws env lexer ⟨q.processedQueryString⟩ b n) ∧
    ∀ interpretations, q.getAllMultiTokenInterpretations env lexer = some interpretations →
      ∀ i, i ∈ interpretations ↔ ∃ cuts, Cuts q.processedQueryString.length cuts ∧
        MadeFrom env lexer ⟨q.processedQueryString⟩ cuts i := by
  refine ⟨getAllMultiTokenInterpretations_eq_none_iff, fun interpretations h i => ?_⟩
  rw [mem_getAllMultiTokenInterpretations_iff h i, interprets_iff]

end LogSurgeon.Query
