import LogSurgeon.WildcardQueryParser.QuerySegmentation

/-!
# The text of an interpretation

A segment is widened by the greedy wildcards next to it, so the tokens of an
interpretation repeat them.  Collapsing the repeated wildcards gives back the
query.

The proof is about lists of characters.  `Covers` says what the characters of
the tokens in front of position `b` are: they collapse to the first `b`
characters, and to the wildcard at `b` that the last token has taken in
advance.
-/

namespace LogSurgeon

open Lib

/-! ## Collapsing -/

/-- A string with every run of unescaped `*` as a single one.  `escaped` says
that an escape character stands in front of the string, and `star` that an
unescaped `*` does. -/
def collapseGreedyWildcards (escaped star : Bool) : List UInt8 → List UInt8
  | [] => []
  | c :: s =>
    if escaped then c :: collapseGreedyWildcards false false s
    else if c = ExpressionCharacter.cStar then
      if star then collapseGreedyWildcards false true s
      else c :: collapseGreedyWildcards false true s
    else c :: collapseGreedyWildcards (c = ExpressionCharacter.cBackslash) false s

/-- The characters without the greedy wildcards that are behind one. -/
def collapseChars (star : Bool) : List ExpressionCharacter → List ExpressionCharacter
  | [] => []
  | c :: cs =>
    if c.isGreedyWildcard then
      if star then collapseChars true cs else c :: collapseChars true cs
    else c :: collapseChars false cs

theorem foldl_addChar_eq (text : List UInt8) (star : Bool) (cs : List ExpressionCharacter) :
    (cs.foldl Query.addChar (text, star)).1 = text ++ (collapseChars star cs).map (·.value) := by
  induction cs generalizing text star with
  | nil => simp [collapseChars]
  | cons c cs ih =>
    rw [List.foldl_cons, Query.addChar, collapseChars]
    split
    · rw [ih]
      split <;> simp
    · rw [ih]
      simp

theorem Query.processedQueryString_new (s : List UInt8) :
    (Query.new s).processedQueryString =
      (collapseChars false (Expression.charsFrom false s)).map (·.value) := by
  show ((Expression.mk s).getChars.foldl Query.addChar ([], false)).1 = _
  rw [foldl_addChar_eq, Expression.getChars_eq, List.nil_append]

theorem map_value_collapseChars (escaped star : Bool) (s : List UInt8) :
    (collapseChars star (Expression.charsFrom escaped s)).map (·.value) =
      collapseGreedyWildcards escaped star s := by
  induction s generalizing escaped star with
  | nil => rfl
  | cons c s ih =>
    rw [Expression.charsFrom, collapseChars, collapseGreedyWildcards]
    cases escaped with
    | true =>
      rw [if_neg (by simp), if_pos rfl, List.map_cons, ih]
      rfl
    | false =>
      by_cases hstar : c = ExpressionCharacter.cStar
      · subst hstar
        cases star with
        | true => exact ih false true
        | false => exact congrArg _ (ih false true)
      · have hescape : (ExpressionCharacter.behind false c).isEscape =
            decide (c = ExpressionCharacter.cBackslash) := by
          rw [Bool.eq_iff_iff]
          simp
        rw [if_neg (by simpa using hstar), if_neg Bool.false_ne_true, if_neg hstar,
          List.map_cons, ih, hescape]
        rfl

/-! ## Lists of characters -/

/-- The characters have the types that they get in their string. -/
def Consistent (escaped : Bool) (cs : List ExpressionCharacter) : Prop :=
  Expression.charsFrom escaped (cs.map (·.value)) = cs

/-- No greedy wildcard is behind another one. -/
def Collapsed (cs : List ExpressionCharacter) : Prop :=
  cs.IsChain fun a b => ¬ (a.isGreedyWildcard ∧ b.isGreedyWildcard)

/-- Whether the last character satisfies `p`.  `before` is the answer for the
empty list. -/
def endsWith (p : ExpressionCharacter → Bool) (before : Bool) (cs : List ExpressionCharacter) :
    Bool :=
  (cs.getLast?.map p).getD before

variable {escaped star before : Bool} {u v cs : List ExpressionCharacter}
  {p : ExpressionCharacter → Bool}

theorem endsWith_cons (c : ExpressionCharacter) :
    endsWith p before (c :: cs) = endsWith p (p c) cs := by
  unfold endsWith
  rw [List.getLast?_cons]
  cases cs.getLast? <;> rfl

theorem endsWith_append : endsWith p before (u ++ v) = endsWith p (endsWith p before u) v := by
  induction u generalizing before with
  | nil => rfl
  | cons c u ih => rw [List.cons_append, endsWith_cons, endsWith_cons, ih]

theorem consistent_append :
    Consistent escaped (u ++ v) ↔
      Consistent escaped u ∧ Consistent (endsWith (·.isEscape) escaped u) v := by
  unfold Consistent
  rw [List.map_append, Expression.charsFrom_append]
  constructor
  · intro h
    obtain ⟨hu, hv⟩ := List.append_inj h (by simp)
    unfold Expression.endsEscaped at hv
    rw [hu] at hv
    exact ⟨hu, hv⟩
  · rintro ⟨hu, hv⟩
    unfold Expression.endsEscaped
    rw [hu]
    exact congrArg _ hv

theorem collapseChars_append :
    collapseChars star (u ++ v) =
      collapseChars star u ++ collapseChars (endsWith (·.isGreedyWildcard) star u) v := by
  induction u generalizing star with
  | nil => rfl
  | cons c u ih =>
    rw [List.cons_append, collapseChars, collapseChars, endsWith_cons]
    cases hc : c.isGreedyWildcard with
    | true => cases star <;> simp [ih]
    | false => simp [ih]

theorem collapseChars_of_collapsed (h : Collapsed cs)
    (hhead : ∀ c ∈ cs.head?, star = true → ¬ c.isGreedyWildcard) :
    collapseChars star cs = cs := by
  induction cs generalizing star with
  | nil => rfl
  | cons c cs ih =>
    obtain ⟨hnext, hrest⟩ := List.isChain_cons.1 h
    have hrest := @ih c.isGreedyWildcard hrest fun d hd hc hd' => hnext d hd ⟨hc, hd'⟩
    rw [collapseChars]
    cases hc : c.isGreedyWildcard with
    | true =>
      rw [hc] at hrest
      have hstar : star = false := by
        have hnot := hhead c rfl
        cases star with
        | true => exact absurd hc (hnot rfl)
        | false => rfl
      rw [hstar, hrest]
      rfl
    | false =>
      rw [hc] at hrest
      rw [hrest]
      rfl

theorem collapsed_collapseChars (star : Bool) (cs : List ExpressionCharacter) :
    Collapsed (collapseChars star cs) ∧
      ∀ c ∈ (collapseChars star cs).head?, star = true → ¬ c.isGreedyWildcard := by
  induction cs generalizing star with
  | nil => exact ⟨List.isChain_nil, by simp [collapseChars]⟩
  | cons c cs ih =>
    rw [collapseChars]
    cases hc : c.isGreedyWildcard with
    | true =>
      obtain ⟨hcollapsed, hhead⟩ := ih true
      cases star with
      | true => exact ⟨hcollapsed, hhead⟩
      | false =>
        refine ⟨List.isChain_cons.2 ⟨fun d hd h => hhead d hd rfl h.2, hcollapsed⟩, ?_⟩
        intro d _ hfalse
        cases hfalse
    | false =>
      obtain ⟨hcollapsed, -⟩ := ih false
      refine ⟨List.isChain_cons.2 ⟨fun d _ h => ?_, hcollapsed⟩, ?_⟩
      · rw [hc] at h
        cases h.1
      · intro d hd _
        cases hd
        simp [hc]

/-- Dropping repeated wildcards leaves the types as they are. -/
theorem consistent_collapseChars (escaped star : Bool) (s : List UInt8) :
    Consistent escaped (collapseChars star (Expression.charsFrom escaped s)) := by
  unfold Consistent
  induction s generalizing escaped star with
  | nil => rfl
  | cons c s ih =>
    rw [Expression.charsFrom, collapseChars]
    by_cases hgreedy : (ExpressionCharacter.behind escaped c).isGreedyWildcard
    · obtain ⟨rfl, rfl⟩ := ExpressionCharacter.isGreedyWildcard_behind.1 hgreedy
      have hrest := ih false true
      cases star with
      | true => exact hrest
      | false => exact congrArg _ hrest
    · rw [if_neg hgreedy, List.map_cons, Expression.charsFrom, ExpressionCharacter.value_behind, ih]

/-! ## Texts -/

def QueryToken.querySubstring : QueryToken → List UInt8
  | .staticToken token => token.querySubstring
  | .variableToken token => token.querySubstring

namespace QueryInterpretation

/-- The substrings of the tokens in order. -/
def text (i : QueryInterpretation) : List UInt8 := i.tokens.flatMap (·.querySubstring)

@[simp] theorem text_ofStatic (s : List UInt8) : (ofStatic s).text = s := by
  unfold ofStatic appendStaticToken text
  split
  · rename_i hnil
    exact hnil.symm
  · exact List.append_nil s

@[simp] theorem text_ofVariable (variableType : Nat) (s : List UInt8) (containsWildcard : Bool) :
    (ofVariable variableType s containsWildcard).text = s := List.append_nil s

theorem text_appendQueryInterpretation (i suffix : QueryInterpretation) :
    (i.appendQueryInterpretation suffix).text = i.text ++ suffix.text := by
  obtain ⟨tokens⟩ := i
  obtain ⟨suffixTokens⟩ := suffix
  unfold appendQueryInterpretation text
  cases suffixTokens with
  | nil => simp
  | cons token rest =>
    dsimp only
    split
    · rename_i lastOldToken token hlast
      obtain ⟨front, rfl⟩ := List.getLast?_eq_some_iff.1 hlast
      simp [QueryToken.querySubstring, StaticQueryToken.append]
    · exact List.flatMap_append

end QueryInterpretation

namespace Query

variable {env : QueryEnvironment} {lexer : LexerTables}

/-- What a view is interpreted as has the text of the extended view, and only
well-formed views are interpreted. -/
theorem text_of_mem_singles {view : ExpressionView} {singles : List QueryInterpretation}
    (h : getAllSingleTokenInterpretations env lexer view = some singles)
    {i : QueryInterpretation} (hi : i ∈ singles) :
    view.isWellFormed ∧ i.text =
      if view.getSearchString = [ExpressionCharacter.cStar] then [ExpressionCharacter.cStar]
      else view.extendToAdjacentGreedyWildcards.2.getSearchString := by
  unfold getAllSingleTokenInterpretations at h
  dsimp only at h
  split at h
  · cases h
    cases hi
  · rename_i hwell
    have hwell : view.isWellFormed := by simpa using hwell
    refine ⟨hwell, ?_⟩
    split at h
    · rename_i hstar
      cases h
      rw [if_pos hstar, List.mem_singleton.1 hi, QueryInterpretation.text_ofStatic]
    · rename_i hstar
      rw [if_neg hstar]
      split at h
      · cases h
        rw [List.mem_singleton.1 hi, QueryInterpretation.text_ofStatic]
      · obtain ⟨types, -, rfl⟩ := Option.map_eq_some_iff.1 h
        unfold interpretationsOfTypes at hi
        rcases List.mem_append.1 hi with hi | hi
        · split at hi
          · rw [List.mem_singleton.1 hi, QueryInterpretation.text_ofStatic]
          · cases hi
        · obtain ⟨t, -, rfl⟩ := List.mem_map.1 hi
          exact QueryInterpretation.text_ofVariable _ _ _

end Query

/-! ## The invariant -/

/-- The wildcard at position `b` that the tokens in front of it have taken. -/
def takenAhead (cs : List ExpressionCharacter) (b : Nat) : List ExpressionCharacter :=
  if b = 0 then [] else ExpressionView.greedyWildcardAt cs b

/-- The characters of the tokens in front of position `b`. -/
structure Covers (cs : List ExpressionCharacter) (b : Nat) (u : List ExpressionCharacter) :
    Prop where
  consistent : Consistent false u
  notEscape : endsWith (·.isEscape) false u = false
  collapse : collapseChars false u = cs.take b ++ takenAhead cs b
  star : endsWith (·.isGreedyWildcard) false u =
    (decide (0 < b) && ((cs[b - 1]?).any (·.isGreedyWildcard) ||
      (cs[b]?).any (·.isGreedyWildcard)))

theorem Covers.zero (cs : List ExpressionCharacter) : Covers cs 0 [] := ⟨rfl, rfl, rfl, rfl⟩

variable {b n : Nat}

theorem Collapsed.next (h : Collapsed cs) (hb : (cs[b]?).any (·.isGreedyWildcard) = true) :
    (cs[b + 1]?).any (·.isGreedyWildcard) = false := by
  obtain ⟨c, hc, hgreedy⟩ := (Option.any_eq_true _ _).1 hb
  cases hnext : cs[b + 1]? with
  | none => rfl
  | some d =>
    obtain ⟨hlt, hd⟩ := List.getElem?_eq_some_iff.1 hnext
    obtain ⟨hlt', hc'⟩ := List.getElem?_eq_some_iff.1 hc
    have hrel := List.IsChain.getElem h b hlt
    rw [hc', hd] at hrel
    rw [Option.any_some, Bool.eq_false_iff]
    exact fun hgreedy' => hrel ⟨hgreedy, hgreedy'⟩

/-- There is a greedy wildcard at the index, or not. -/
theorem greedyWildcardAt_cases (hcs : Consistent false cs) (k : Nat) :
    (cs[k]?).any (·.isGreedyWildcard) = false ∧ ExpressionView.greedyWildcardAt cs k = [] ∨
      (cs[k]?).any (·.isGreedyWildcard) = true ∧
        ExpressionView.greedyWildcardAt cs k = [ExpressionCharacter.greedyStar] := by
  cases hany : (cs[k]?).any (·.isGreedyWildcard) with
  | false => exact Or.inl ⟨rfl, ExpressionView.greedyWildcardAt_eq_nil (by simp [hany])⟩
  | true =>
    obtain ⟨c, hc, hgreedy⟩ := (Option.any_eq_true _ _).1 hany
    have hmem : c ∈ Expression.charsFrom false (cs.map (·.value)) := by
      rw [hcs]
      exact List.mem_of_getElem? hc
    rw [ExpressionView.greedyWildcardAt_eq_singleton hc hgreedy,
      Expression.eq_greedyStar hmem hgreedy]
    exact Or.inr ⟨rfl, rfl⟩

/-- The last character of a segment. -/
theorem getLast?_slice (hlt : b < n) (hn : n ≤ cs.length) :
    ((cs.drop b).take (n - b)).getLast? = cs[n - 1]? := by
  rw [List.getLast?_eq_getElem?, List.length_take, List.length_drop, List.getElem?_take,
    if_pos (by omega), List.getElem?_drop]
  congr 1
  omega

theorem endsWith_slice (hlt : b < n) (hn : n ≤ cs.length) :
    endsWith p before ((cs.drop b).take (n - b)) = (cs[n - 1]?).any p := by
  unfold endsWith
  rw [getLast?_slice hlt hn, List.getElem?_eq_getElem (by omega)]
  rfl

theorem endsWith_take (hpos : 0 < b) (hb : b ≤ cs.length) :
    endsWith p before (cs.take b) = (cs[b - 1]?).any p := by
  have hslice := @endsWith_slice before cs p 0 b hpos hb
  rwa [List.drop_zero, Nat.sub_zero] at hslice

/-- A segment that is a greedy wildcard. -/
theorem Covers.greedyStar (h : Covers cs b u) (hcs : Consistent false cs)
    (hcollapsed : Collapsed cs) (hb : (cs[b]?).any (·.isGreedyWildcard) = true) :
    Covers cs (b + 1) (u ++ [ExpressionCharacter.greedyStar]) := by
  have hahead : takenAhead cs (b + 1) = [] := by
    unfold takenAhead
    rw [if_neg (Nat.succ_ne_zero b)]
    exact ExpressionView.greedyWildcardAt_eq_nil (by simp [hcollapsed.next hb])
  have htake : cs.take (b + 1) = cs.take b ++ ExpressionView.greedyWildcardAt cs b := by
    obtain ⟨c, hc, hgreedy⟩ := (Option.any_eq_true _ _).1 hb
    rw [List.take_add_one, ExpressionView.greedyWildcardAt_eq_singleton hc hgreedy, hc]
    rfl
  have hstar : ExpressionView.greedyWildcardAt cs b = [ExpressionCharacter.greedyStar] := by
    rcases greedyWildcardAt_cases hcs b with ⟨hno, -⟩ | ⟨-, hyes⟩
    · rw [hb] at hno
      cases hno
    · exact hyes
  refine ⟨?_, ?_, ?_, ?_⟩
  · rw [consistent_append, h.notEscape]
    exact ⟨h.consistent, rfl⟩
  · rw [endsWith_append]
    rfl
  · rw [collapseChars_append, h.collapse, h.star, hahead, htake, hstar, hb, Bool.or_true,
      Bool.and_true]
    unfold takenAhead
    rw [hstar]
    by_cases hzero : b = 0
    · rw [if_pos hzero, hzero]
      rfl
    · rw [if_neg hzero, decide_eq_true (Nat.pos_of_ne_zero hzero)]
      simp [collapseChars, ExpressionCharacter.greedyStar, ExpressionCharacter.isGreedyWildcard]
  · rw [endsWith_append, Nat.add_sub_cancel, hb]
    simp [endsWith, ExpressionCharacter.greedyStar, ExpressionCharacter.isGreedyWildcard]

/-- A wildcard that a segment is widened by stands for itself. -/
theorem consistent_of_star {l : List ExpressionCharacter}
    (h : l = [] ∨ l = [ExpressionCharacter.greedyStar]) :
    Consistent false l ∧ endsWith (·.isEscape) false l = false := by
  rcases h with rfl | rfl
  · exact ⟨rfl, rfl⟩
  · exact ⟨rfl, rfl⟩

/-- The characters between two positions that no escape character stands in
front of. -/
theorem consistent_slice (hcs : Consistent false cs) (hlt : b < n) (hn : n ≤ cs.length)
    (hbefore : b ≠ 0 → (cs[b - 1]?).any (·.isEscape) = false) :
    Consistent false ((cs.drop b).take (n - b)) := by
  have hsplit : cs = cs.take b ++ ((cs.drop b).take (n - b) ++ (cs.drop b).drop (n - b)) := by
    rw [List.take_append_drop, List.take_append_drop]
  have hstart : endsWith (·.isEscape) false (cs.take b) = false := by
    by_cases hzero : b = 0
    · rw [hzero]
      rfl
    · rw [endsWith_take (Nat.pos_of_ne_zero hzero) (by omega)]
      exact hbefore hzero
  rw [hsplit, consistent_append, hstart] at hcs
  exact (consistent_append.1 hcs.2).1

/-- Any other segment, with the greedy wildcards next to it. -/
theorem Covers.segment (h : Covers cs b u) (hcs : Consistent false cs)
    (hcollapsed : Collapsed cs) (hlt : b < n) (hn : n ≤ cs.length)
    (hfirst : (cs[b]?).any (·.isGreedyWildcard) = false)
    (hlast : (cs[n - 1]?).any (·.isGreedyWildcard) = false)
    (hbefore : b ≠ 0 → (cs[b - 1]?).any (·.isEscape) = false)
    (hescape : (cs[n - 1]?).any (·.isEscape) = false) :
    Covers cs n (u ++ ((if b = 0 then [] else ExpressionView.greedyWildcardAt cs (b - 1)) ++
      ((cs.drop b).take (n - b) ++ ExpressionView.greedyWildcardAt cs n))) := by
  have hpos : 0 < n := by omega
  have hmid := consistent_slice hcs hlt hn hbefore
  have hright := greedyWildcardAt_cases hcs n
  have hrightStar := consistent_of_star (hright.imp And.right And.right)
  have hbehind : (cs.drop b).take (n - b) ++ ExpressionView.greedyWildcardAt cs n =
      (cs.drop b).take ((if (cs[n]?).any (·.isGreedyWildcard) then n + 1 else n) - b) :=
    (ExpressionView.take_extend_right hlt.le).symm
  -- the wildcard on the left, which is dropped again
  generalize hleftDef :
    (if b = 0 then [] else ExpressionView.greedyWildcardAt cs (b - 1)) = left
  have hleft : (decide (0 < b) && (cs[b - 1]?).any (·.isGreedyWildcard)) = false ∧ left = [] ∨
      (decide (0 < b) && (cs[b - 1]?).any (·.isGreedyWildcard)) = true ∧
        left = [ExpressionCharacter.greedyStar] := by
    rw [← hleftDef]
    by_cases hzero : b = 0
    · exact Or.inl ⟨by simp [hzero], if_pos hzero⟩
    · rw [if_neg hzero, decide_eq_true (Nat.pos_of_ne_zero hzero), Bool.true_and]
      exact greedyWildcardAt_cases hcs (b - 1)
  have hleftStar := consistent_of_star (hleft.imp And.right And.right)
  have hstar : endsWith (·.isGreedyWildcard) false u =
      (decide (0 < b) && (cs[b - 1]?).any (·.isGreedyWildcard)) := by
    rw [h.star, hfirst, Bool.or_false]
  have hahead : takenAhead cs b = [] := by
    unfold takenAhead
    split
    · rfl
    · exact ExpressionView.greedyWildcardAt_eq_nil (by simp [hfirst])
  refine ⟨?_, ?_, ?_, ?_⟩
  · rw [consistent_append, h.notEscape, consistent_append, hleftStar.2, consistent_append,
      endsWith_slice hlt hn, hescape]
    exact ⟨h.consistent, hleftStar.1, hmid, hrightStar.1⟩
  · rw [endsWith_append, endsWith_append, endsWith_append, endsWith_slice hlt hn, hescape]
    exact hrightStar.2
  · have hrest : ∀ star, collapseChars star
        ((cs.drop b).take (n - b) ++ ExpressionView.greedyWildcardAt cs n) =
          (cs.drop b).take (n - b) ++ ExpressionView.greedyWildcardAt cs n := by
      intro star
      rw [hbehind]
      refine collapseChars_of_collapsed ((hcollapsed.drop b).take _) fun c hc _ hgreedy => ?_
      rw [List.head?_take, if_neg (by split <;> omega), List.head?_drop] at hc
      have hany : (cs[b]?).any (·.isGreedyWildcard) = true :=
        (Option.any_eq_true _ _).2 ⟨c, hc, hgreedy⟩
      rw [hfirst] at hany
      cases hany
    have hdropped : collapseChars (endsWith (·.isGreedyWildcard) false u) left = [] := by
      rw [hstar]
      rcases hleft with ⟨hno, rfl⟩ | ⟨hyes, rfl⟩
      · rfl
      · rw [hyes]
        rfl
    have hn' : takenAhead cs n = ExpressionView.greedyWildcardAt cs n := if_neg (by omega)
    rw [collapseChars_append, collapseChars_append, hdropped, hrest, h.collapse, hahead, hn',
      List.append_nil, List.nil_append, ← List.append_assoc, ← List.take_add,
      Nat.add_sub_cancel' hlt.le]
  · rw [endsWith_append, endsWith_append, endsWith_append, endsWith_slice hlt hn, hlast,
      decide_eq_true hpos, Bool.true_and, Bool.false_or]
    rcases hright with ⟨hno, hnil⟩ | ⟨hyes, hsingleton⟩
    · rw [hno, hnil]
      rfl
    · rw [hyes, hsingleton]
      rfl

/-! ## Interpretations -/

namespace Query

variable {env : QueryEnvironment} {lexer : LexerTables} {e : Expression}
  {i suffix : QueryInterpretation}

theorem consistent_getChars (e : Expression) : Consistent false e.getChars := by
  unfold Consistent
  rw [Expression.map_value_getChars, Expression.getChars_eq]

/-- The characters that an interpretation of a segment adds. -/
theorem exists_covers_segment (hcollapsed : Collapsed e.getChars)
    (h : Covers e.getChars b u) (hlt : b < n) (hn : n ≤ e.length)
    (hsegment : InterpretsSegment env lexer e b n suffix) :
    ∃ v, Covers e.getChars n (u ++ v) ∧ suffix.text = v.map (·.value) := by
  obtain ⟨hredundant, singles, hsingles, hmem⟩ := hsegment
  obtain ⟨hwell, htext⟩ := text_of_mem_singles hsingles hmem
  rw [redundant_iff hlt hn, not_and] at hredundant
  have hview := ExpressionView.new_eq hlt.le hn
  have hcs := consistent_getChars e
  have hlength : n ≤ e.getChars.length := by rwa [Expression.length_getChars]
  have hchars : (ExpressionView.new e b n).chars = (e.getChars.drop b).take (n - b) := by
    rw [hview]
    rfl
  have hne : (e.getChars.drop b).take (n - b) ≠ [] := by
    intro hnil
    have hzero := congrArg List.length hnil
    rw [List.length_take, List.length_drop, List.length_nil] at hzero
    omega
  unfold ExpressionView.isWellFormed at hwell
  rw [hchars, if_neg hne, getLast?_slice hlt hlength, hview] at hwell
  dsimp only at hwell
  have hbefore : b ≠ 0 → (e.getChars[b - 1]?).any (·.isEscape) = false := by
    intro hb
    rw [decide_eq_true (show b > 0 by omega), Bool.true_and] at hwell
    split at hwell
    · cases hwell
    · rename_i hno
      simpa using hno
  by_cases hstar : (ExpressionView.new e b n).getSearchString = [ExpressionCharacter.cStar]
  · rw [if_pos hstar] at htext
    rw [← ExpressionView.map_value_chars, hchars] at hstar
    have hone := consistent_slice hcs hlt hlength hbefore
    unfold Consistent at hone
    rw [hstar] at hone
    have hn' : n = b + 1 := by
      have hlen := congrArg List.length hone
      rw [List.length_take, List.length_drop] at hlen
      simp at hlen
      omega
    have hb : e.getChars[b]? = some ExpressionCharacter.greedyStar := by
      have hhead := congrArg List.head? hone
      rw [List.head?_take, if_neg (by omega), List.head?_drop] at hhead
      exact hhead.symm
    subst hn'
    refine ⟨[ExpressionCharacter.greedyStar], h.greedyStar hcs hcollapsed ?_, htext⟩
    rw [hb]
    rfl
  · rw [if_neg hstar, ← ExpressionView.map_value_chars, ExpressionView.chars_extend] at htext
    have hends := hredundant hstar
    unfold ExpressionView.startsOrEndsWithGreedyWildcard at hends
    rw [hchars, getLast?_slice hlt hlength, List.head?_take, if_neg (by omega),
      List.head?_drop, Bool.or_eq_true, not_or, Bool.not_eq_true, Bool.not_eq_true] at hends
    have hescape : (e.getChars[n - 1]?).any (·.isEscape) = false := by
      split at hwell
      · cases hwell
      · simpa using hwell
    refine ⟨_, h.segment hcs hcollapsed hlt hlength hends.1 hends.2 hbefore hescape, ?_⟩
    rw [htext, hchars, hview]

/-- The characters of an interpretation. -/
theorem Interprets.exists_covers (hcollapsed : Collapsed e.getChars) (hn : n ≤ e.length)
    (h : Interprets env lexer e n i) :
    ∃ u, Covers e.getChars n u ∧ i.text = u.map (·.value) := by
  induction h with
  | single hpos h =>
    obtain ⟨v, hv, htext⟩ := exists_covers_segment hcollapsed (Covers.zero _) hpos hn h
    exact ⟨v, hv, htext⟩
  | append _ hlt hsuffix ih =>
    obtain ⟨u, hu, htext⟩ := ih (by omega)
    obtain ⟨v, hv, hsuffixText⟩ := exists_covers_segment hcollapsed hu hlt hn hsuffix
    refine ⟨u ++ v, hv, ?_⟩
    rw [QueryInterpretation.text_appendQueryInterpretation, htext, hsuffixText, List.map_append]

/-- All the characters of an expression without repeated wildcards. -/
theorem Interprets.collapse_text (hcollapsed : Collapsed e.getChars)
    (h : Interprets env lexer e e.length i) :
    collapseGreedyWildcards false false i.text = e.searchString := by
  obtain ⟨u, hu, htext⟩ := h.exists_covers hcollapsed le_rfl
  have hlength := e.length_getChars
  have hahead : takenAhead e.getChars e.length = [] := by
    unfold takenAhead
    split
    · rfl
    · refine ExpressionView.greedyWildcardAt_eq_nil ?_
      rw [List.getElem?_eq_none (by omega)]
      simp
  have hcollapse : collapseChars false u = e.getChars := by
    rw [hu.collapse, hahead, List.append_nil, ← hlength, List.take_length]
  rw [← map_value_collapseChars, htext, hu.consistent, hcollapse, Expression.map_value_getChars]

/-- The characters of a processed query. -/
theorem charsFrom_processedQueryString_new (s : List UInt8) :
    Expression.charsFrom false (Query.new s).processedQueryString =
      collapseChars false (Expression.charsFrom false s) := by
  rw [processedQueryString_new]
  exact consistent_collapseChars false false s

theorem collapsed_getChars_new (s : List UInt8) :
    Collapsed (Expression.mk (Query.new s).processedQueryString).getChars := by
  rw [Expression.getChars_eq]
  show Collapsed (Expression.charsFrom false (Query.new s).processedQueryString)
  rw [charsFrom_processedQueryString_new]
  exact (collapsed_collapseChars false _).1

/-- Processing a processed query changes nothing. -/
theorem processedQueryString_new_new (s : List UInt8) :
    (Query.new (Query.new s).processedQueryString).processedQueryString =
      (Query.new s).processedQueryString := by
  have hfixed : collapseChars false (collapseChars false (Expression.charsFrom false s)) =
      collapseChars false (Expression.charsFrom false s) :=
    collapseChars_of_collapsed (collapsed_collapseChars false _).1 (by simp)
  rw [processedQueryString_new, charsFrom_processedQueryString_new, hfixed,
    ← processedQueryString_new]

/-- The tokens of an interpretation have the text of the query, up to repeated
wildcards. -/
theorem collapseGreedyWildcards_text (env : QueryEnvironment) (lexer : LexerTables)
    (queryString : List UInt8) :
    (∀ interpretations,
      (Query.new queryString).getAllMultiTokenInterpretations env lexer = some interpretations →
        ∀ i ∈ interpretations, collapseGreedyWildcards false false i.text =
          (Query.new queryString).processedQueryString) ∧
    (Query.new (Query.new queryString).processedQueryString).processedQueryString =
      (Query.new queryString).processedQueryString := by
  refine ⟨fun interpretations h i hi => ?_, processedQueryString_new_new queryString⟩
  have hinterprets := (mem_getAllMultiTokenInterpretations_iff h i).1 hi
  exact hinterprets.collapse_text (collapsed_getChars_new queryString)

end Query

end LogSurgeon
