import LogSurgeon.WildcardQueryParser.QueryTypes

/-!
# Queries with an interpretation

A view of one character, or of an escape character and the one behind it, is
interpreted as long as it does not end with an escape character.  Views of
these two kinds cut every query that does not end with one, so such a query has
an interpretation (`getAllMultiTokenInterpretations_ne_empty_iff`).
-/

namespace LogSurgeon

open Lib

/-- Dropping repeated wildcards leaves an escape character at the end as it
is. -/
theorem endsWith_escape_collapseChars (star : Bool) (before : Bool)
    (cs : List ExpressionCharacter) (hstar : star = true → before = false) :
    endsWith (·.isEscape) before (collapseChars star cs) = endsWith (·.isEscape) before cs := by
  induction cs generalizing star before with
  | nil => rfl
  | cons c cs ih =>
    have hgreedy : c.isGreedyWildcard = true → c.isEscape = false := by
      intro h
      unfold ExpressionCharacter.isGreedyWildcard at h
      unfold ExpressionCharacter.isEscape
      rw [of_decide_eq_true h]
      rfl
    rw [collapseChars, endsWith_cons]
    cases hc : c.isGreedyWildcard with
    | true =>
      have hescape := hgreedy hc
      cases star with
      | true =>
        show endsWith _ before (collapseChars true cs) = _
        rw [ih true before hstar, hescape, hstar rfl]
      | false =>
        show endsWith _ before (c :: collapseChars true cs) = _
        rw [endsWith_cons, ih true _ fun _ => hescape]
    | false =>
      show endsWith _ before (c :: collapseChars false cs) = _
      rw [endsWith_cons, ih false _ fun h => absurd h Bool.false_ne_true]

/-- A character behind an escape character is a normal one. -/
theorem type_of_escape {escaped : Bool} {s : List UInt8} {k : Nat} {c d : ExpressionCharacter}
    (hc : (Expression.charsFrom escaped s)[k]? = some c) (hescape : c.isEscape = true)
    (hd : (Expression.charsFrom escaped s)[k + 1]? = some d) : d.type = .normal := by
  induction s generalizing escaped k with
  | nil => cases hc
  | cons b s ih =>
    rw [Expression.charsFrom] at hc hd
    rw [List.getElem?_cons_succ] at hd
    cases k with
    | succ k => exact ih hc hd
    | zero =>
      rw [List.getElem?_cons_zero] at hc
      rw [Option.some.inj hc, hescape] at hd
      cases s with
      | nil => cases hd
      | cons b' s =>
        rw [Expression.charsFrom, List.getElem?_cons_zero] at hd
        rw [← Option.some.inj hd]
        rfl

namespace Query

variable {env : QueryEnvironment} {lexer : LexerTables} {e : Expression} {b n : Nat}
  {i : QueryInterpretation}

/-- A well-formed view has an interpretation. -/
theorem singles_ne_nil {view : ExpressionView} {singles : List QueryInterpretation}
    (h : getAllSingleTokenInterpretations env lexer view = some singles)
    (hformed : view.isWellFormed = true) : singles ≠ [] := by
  unfold getAllSingleTokenInterpretations at h
  dsimp only at h
  rw [hformed] at h
  simp only [Bool.not_true, Bool.false_eq_true, if_false] at h
  split at h
  · cases h
    simp
  · split at h
    · cases h
      simp
    · obtain ⟨types, -, rfl⟩ := Option.map_eq_some_iff.1 h
      unfold interpretationsOfTypes
      dsimp only
      generalize types.toList = ids
      cases ids with
      | nil => simp
      | cons id ids =>
        cases view.extendToAdjacentGreedyWildcards.2.generateRegexString.2 <;> simp

/-- The view between two positions that no escape character stands in front
of. -/
theorem isWellFormed_iff (hlt : b < n) (hn : n ≤ e.length) :
    (ExpressionView.new e b n).isWellFormed = true ↔
      (b ≠ 0 → (e.getChars[b - 1]?).any (·.isEscape) = false) ∧
        (e.getChars[n - 1]?).any (·.isEscape) = false := by
  have hlength : n ≤ e.getChars.length := by
    rwa [Expression.length_getChars]
  have hchars : (ExpressionView.new e b n).chars = (e.getChars.drop b).take (n - b) := by
    rw [ExpressionView.new_eq hlt.le hn]
    rfl
  have hbegin : (ExpressionView.new e b n).beginIdx = b := by
    rw [ExpressionView.new_eq hlt.le hn]
  have hne : (e.getChars.drop b).take (n - b) ≠ [] := by
    intro hnil
    have hzero := congrArg List.length hnil
    rw [List.length_take, List.length_drop, List.length_nil] at hzero
    omega
  unfold ExpressionView.isWellFormed
  rw [hchars, if_neg hne, hbegin, getLast?_slice hlt hlength]
  show (if (decide (b > 0) && (e.getChars[b - 1]?).any (·.isEscape)) = true then false else _) =
    true ↔ _
  by_cases hzero : b = 0
  · simp [hzero]
  · have hpos : b > 0 := Nat.pos_of_ne_zero hzero
    cases (e.getChars[b - 1]?).any (·.isEscape) <;> simp [hpos, hzero]

/-- A view that is neither skipped nor throws is interpreted if it is well
formed. -/
theorem exists_interpretsSegment (hlt : b < n) (hn : n ≤ e.length)
    (hthrows : ¬ Throws env lexer e b n) (hredundant : ¬ Redundant e b n)
    (hbefore : b ≠ 0 → (e.getChars[b - 1]?).any (·.isEscape) = false)
    (hlast : (e.getChars[n - 1]?).any (·.isEscape) = false) :
    ∃ i, InterpretsSegment env lexer e b n i := by
  have hsome : getAllSingleTokenInterpretations env lexer (ExpressionView.new e b n) ≠ none :=
    fun hnone => hthrows ⟨hredundant, hnone⟩
  obtain ⟨singles, hsingles⟩ := Option.ne_none_iff_exists'.1 hsome
  have hne := singles_ne_nil hsingles ((isWellFormed_iff hlt hn).2 ⟨hbefore, hlast⟩)
  obtain ⟨i, hi⟩ := List.exists_mem_of_ne_nil singles hne
  exact ⟨i, hredundant, singles, hsingles, hi⟩

/-- An escape character and the one behind it are no redundant view. -/
theorem not_redundant_of_escape (hn : n + 2 ≤ e.length)
    (hescape : (e.getChars[n]?).any (·.isEscape) = true) : ¬ Redundant e n (n + 2) := by
  have hlt : n < n + 2 := by omega
  have hlength : n + 2 ≤ e.getChars.length := by
    rwa [Expression.length_getChars]
  have hchars : (ExpressionView.new e n (n + 2)).chars =
      (e.getChars.drop n).take (n + 2 - n) := by
    rw [ExpressionView.new_eq hlt.le hn]
    rfl
  obtain ⟨c, hc, hescape⟩ := (Option.any_eq_true _ _).1 hescape
  have hd : e.getChars[n + 1]? = some e.getChars[n + 1] := List.getElem?_eq_getElem (by omega)
  have hnormal : (e.getChars[n + 1]).type = .normal := by
    rw [Expression.getChars_eq] at hc
    simp only [Expression.getChars_eq] at hd ⊢
    exact type_of_escape hc hescape hd
  have hhead : ((e.getChars.drop n).take (n + 2 - n)).head? = some c := by
    rw [List.head?_take, if_neg (by omega), List.head?_drop, hc]
  have hlast : ((e.getChars.drop n).take (n + 2 - n)).getLast? = some e.getChars[n + 1] := by
    rw [getLast?_slice hlt hlength]
    exact hd
  rintro ⟨-, hgreedy⟩
  unfold ExpressionView.startsOrEndsWithGreedyWildcard at hgreedy
  rw [hchars, hhead, hlast] at hgreedy
  unfold ExpressionCharacter.isGreedyWildcard at hgreedy
  unfold ExpressionCharacter.isEscape at hescape
  simp [hnormal, of_decide_eq_true hescape] at hgreedy

/-- A part of the query that does not end with an escape character has an
interpretation. -/
theorem exists_interprets (hthrows : ∀ b n, b < n → n ≤ e.length → ¬ Throws env lexer e b n)
    (hpos : 0 < n) (hn : n ≤ e.length) (hlast : (e.getChars[n - 1]?).any (·.isEscape) = false) :
    ∃ i, Interprets env lexer e n i := by
  induction n using Nat.strong_induction_on with
  | _ n ih =>
    -- a segment that can be interpreted goes behind the part in front of it
    have hextend : ∀ b, b < n → ¬ Redundant e b n →
        (b ≠ 0 → (e.getChars[b - 1]?).any (·.isEscape) = false) →
        ∃ i, Interprets env lexer e n i := by
      intro b hlt hredundant hbefore
      obtain ⟨suffix, hsuffix⟩ := exists_interpretsSegment hlt hn (hthrows b n hlt hn) hredundant
        hbefore hlast
      by_cases hzero : b = 0
      · rw [hzero] at hsuffix
        exact ⟨suffix, .single hpos hsuffix⟩
      · obtain ⟨i, hi⟩ := ih b hlt (Nat.pos_of_ne_zero hzero) (by omega) (hbefore hzero)
        exact ⟨_, .append hi hlt hsuffix⟩
    by_cases hone : n = 1
    · refine hextend 0 hpos (fun h => ?_) (fun h => absurd rfl h)
      have := h.1
      omega
    · obtain ⟨k, rfl⟩ : ∃ k, n = k + 2 := ⟨n - 2, by omega⟩
      cases hescape : (e.getChars[k]?).any (·.isEscape) with
      | false =>
        refine hextend (k + 1) (by omega) (fun h => ?_) (fun _ => hescape)
        have := h.1
        omega
      | true =>
        refine hextend k (by omega) (not_redundant_of_escape hn hescape) fun hzero => ?_
        -- the escape character is not behind another one
        rw [Bool.eq_false_iff]
        intro hbefore
        obtain ⟨c, hc, hbefore⟩ := (Option.any_eq_true _ _).1 hbefore
        obtain ⟨d, hd, hescape⟩ := (Option.any_eq_true _ _).1 hescape
        rw [show k = k - 1 + 1 by omega] at hd
        rw [Expression.getChars_eq] at hc hd
        have hnormal := type_of_escape hc hbefore hd
        unfold ExpressionCharacter.isEscape at hescape
        rw [hnormal] at hescape
        cases hescape

/-- No interpretation ends with an escape character. -/
theorem Interprets.last (h : Interprets env lexer e n i) (hn : n ≤ e.length) :
    (e.getChars[n - 1]?).any (·.isEscape) = false := by
  have hsegment : ∀ b i, b < n → InterpretsSegment env lexer e b n i →
      (e.getChars[n - 1]?).any (·.isEscape) = false := by
    rintro b i hlt ⟨-, singles, hsingles, hi⟩
    by_contra hescape
    have hformed : (ExpressionView.new e b n).isWellFormed = false :=
      Bool.eq_false_iff.2 fun hformed => hescape ((isWellFormed_iff hlt hn).1 hformed).2
    unfold getAllSingleTokenInterpretations at hsingles
    dsimp only at hsingles
    rw [hformed] at hsingles
    cases hsingles
    cases hi
  cases h with
  | single hpos hsingle => exact hsegment 0 _ hpos hsingle
  | append _ hlt hsuffix => exact hsegment _ _ hlt hsuffix

end Query

end LogSurgeon
