import LogSurgeon.WildcardQueryParser.Expression

/-!
# Regex strings and what ran before

`generate_regex_string` looks up the special characters in a table that is empty
until the first `SchemaParser` is constructed.  So before that it escapes nothing,
and the string for a view with a special character depends on what ran before
(`regexString_independent_iff`).

* `RegexOf` is the regex that a view stands for.
-/

namespace LogSurgeon

namespace ExpressionView

/-! ## The table -/

/-- The table that `add_lexical_rules` leaves. -/
def addLexicalRules (table : List UInt8) : List UInt8 :=
  if table = [] then specialRegexCharacters else table

/-- What a program does before a call.  Only the constructor of `SchemaParser`
writes the table. -/
inductive ProgramStep where
  | schemaParser
  | regexString (view : ExpressionView)

def ProgramStep.run (table : List UInt8) : ProgramStep → List UInt8
  | schemaParser => addLexicalRules table
  | regexString _ => table

/-- The table behind the steps of a program. -/
def tableAfter (history : List ProgramStep) : List UInt8 := history.foldl ProgramStep.run []

/-- The body of the loop of `generate_regex_string`, with the table. -/
def addRegexCharOf (table : List UInt8) (regex : List UInt8 × Bool) (c : ExpressionCharacter) :
    List UInt8 × Bool :=
  if c.isEscape then regex
  else if c.isGreedyWildcard then (regex.1 ++ [46, 42], true)
  else if c.isNonGreedyWildcard then (regex.1 ++ [46], true)
  else if c.value ∈ table then
    (regex.1 ++ [ExpressionCharacter.cBackslash, c.value], regex.2)
  else (regex.1 ++ [c.value], regex.2)

/-- `generate_regex_string` behind the steps of a program. -/
def regexStringAfter (history : List ProgramStep) (v : ExpressionView) : List UInt8 × Bool :=
  v.chars.foldl (addRegexCharOf (tableAfter history)) ([], false)

/-! ## The regex of a view -/

/-- A literal character that is special in a regex. -/
structure IsSpecial (c : ExpressionCharacter) : Prop where
  normal : c.type = .normal
  mem : c.value ∈ specialRegexCharacters

/-- The string is the regex of the characters, where every special character is
behind a backslash. -/
inductive RegexOf : List ExpressionCharacter → List UInt8 → Prop where
  | nil : RegexOf [] []
  | escape {c : ExpressionCharacter} {chars : List ExpressionCharacter} {regex : List UInt8}
      (htype : c.type = .escape) (hrest : RegexOf chars regex) : RegexOf (c :: chars) regex
  | greedyWildcard {c : ExpressionCharacter} {chars : List ExpressionCharacter}
      {regex : List UInt8} (htype : c.type = .greedyWildcard) (hrest : RegexOf chars regex) :
      RegexOf (c :: chars) (46 :: 42 :: regex)
  | nonGreedyWildcard {c : ExpressionCharacter} {chars : List ExpressionCharacter}
      {regex : List UInt8} (htype : c.type = .nonGreedyWildcard) (hrest : RegexOf chars regex) :
      RegexOf (c :: chars) (46 :: regex)
  | special {c : ExpressionCharacter} {chars : List ExpressionCharacter} {regex : List UInt8}
      (hspecial : IsSpecial c) (hrest : RegexOf chars regex) :
      RegexOf (c :: chars) (ExpressionCharacter.cBackslash :: c.value :: regex)
  | plain {c : ExpressionCharacter} {chars : List ExpressionCharacter} {regex : List UInt8}
      (htype : c.type = .normal) (hplain : ¬ IsSpecial c) (hrest : RegexOf chars regex) :
      RegexOf (c :: chars) (c.value :: regex)

/-- What the loop adds for a character. -/
def regexPiece (table : List UInt8) (c : ExpressionCharacter) : List UInt8 :=
  match c.type with
  | .escape => []
  | .greedyWildcard => [46, 42]
  | .nonGreedyWildcard => [46]
  | .normal =>
    if c.value ∈ table then [ExpressionCharacter.cBackslash, c.value] else [c.value]

variable {table : List UInt8} {chars : List ExpressionCharacter} {c : ExpressionCharacter}
  {history history' : List ProgramStep}

theorem addRegexCharOf_eq (regex : List UInt8 × Bool) (c : ExpressionCharacter) :
    addRegexCharOf table regex c = (regex.1 ++ regexPiece table c, regex.2 || c.isWildcard) := by
  unfold addRegexCharOf regexPiece ExpressionCharacter.isEscape
    ExpressionCharacter.isGreedyWildcard ExpressionCharacter.isNonGreedyWildcard
    ExpressionCharacter.isWildcard
  cases c.type with
  | normal =>
    simp only [reduceCtorEq, decide_false, Bool.false_eq_true, if_false, Bool.or_false]
    split <;> rfl
  | greedyWildcard => simp
  | nonGreedyWildcard => simp
  | escape => simp

theorem foldl_addRegexCharOf (regex : List UInt8 × Bool) :
    chars.foldl (addRegexCharOf table) regex =
      (regex.1 ++ chars.flatMap (regexPiece table), regex.2 || chars.any (·.isWildcard)) := by
  induction chars generalizing regex with
  | nil => simp
  | cons c chars ih =>
    rw [List.foldl_cons, ih, addRegexCharOf_eq, List.flatMap_cons, List.any_cons,
      List.append_assoc, Bool.or_assoc]

theorem regexStringAfter_eq (history : List ProgramStep) (v : ExpressionView) :
    regexStringAfter history v =
      (v.chars.flatMap (regexPiece (tableAfter history)), v.chars.any (·.isWildcard)) := by
  unfold regexStringAfter
  rw [foldl_addRegexCharOf]
  simp

/-- The table is filled by the first `SchemaParser`. -/
theorem tableAfter_eq (history : List ProgramStep) :
    (.schemaParser ∈ history → tableAfter history = specialRegexCharacters) ∧
      (.schemaParser ∉ history → tableAfter history = []) := by
  have hfull : ∀ history : List ProgramStep,
      history.foldl ProgramStep.run specialRegexCharacters = specialRegexCharacters := by
    intro history
    induction history with
    | nil => rfl
    | cons step history ih =>
      cases step with
      | schemaParser => exact ih
      | regexString => exact ih
  unfold tableAfter
  induction history with
  | nil => simp
  | cons step history ih =>
    cases step with
    | schemaParser => exact ⟨fun _ => hfull history, fun hno => absurd List.mem_cons_self hno⟩
    | regexString =>
      simp only [List.mem_cons, reduceCtorEq, false_or]
      exact ih

/-- With a `SchemaParser` before, the string is the one of the query parser. -/
theorem regexStringAfter_of_schemaParser (h : .schemaParser ∈ history) (v : ExpressionView) :
    regexStringAfter history v = v.generateRegexString := by
  unfold regexStringAfter
  rw [(tableAfter_eq history).1 h]
  rfl

theorem regexOf_iff {regex : List UInt8} :
    RegexOf chars regex ↔ regex = chars.flatMap (regexPiece specialRegexCharacters) := by
  constructor
  · intro h
    induction h with
    | nil => rfl
    | escape htype _ ih => simp [regexPiece, htype, ih]
    | greedyWildcard htype _ ih => simp [regexPiece, htype, ih]
    | nonGreedyWildcard htype _ ih => simp [regexPiece, htype, ih]
    | special hspecial _ ih => simp [regexPiece, hspecial.normal, hspecial.mem, ih]
    | @plain c _ _ htype hplain _ ih =>
      have hmem : c.value ∉ specialRegexCharacters := fun hmem => hplain ⟨htype, hmem⟩
      simp [regexPiece, htype, hmem, ih]
  · rintro rfl
    induction chars with
    | nil => exact .nil
    | cons c chars ih =>
      rw [List.flatMap_cons]
      unfold regexPiece
      split
      · rename_i htype
        exact .escape htype ih
      · rename_i htype
        exact .greedyWildcard htype ih
      · rename_i htype
        exact .nonGreedyWildcard htype ih
      · rename_i htype
        split
        · rename_i hmem
          exact .special ⟨htype, hmem⟩ ih
        · rename_i hmem
          exact .plain htype (fun hspecial => hmem hspecial.mem) ih

/-- Without a special character, the table does not count. -/
theorem flatMap_regexPiece_of_plain (h : ∀ c ∈ chars, ¬ IsSpecial c)
    (htable : table ⊆ specialRegexCharacters) :
    chars.flatMap (regexPiece table) = chars.flatMap (regexPiece specialRegexCharacters) := by
  refine List.flatMap_congr fun c hc => ?_
  unfold regexPiece
  split
  · rfl
  · rfl
  · rfl
  · rename_i htype
    have hno : c.value ∉ specialRegexCharacters := fun hmem => h c hc ⟨htype, hmem⟩
    rw [if_neg hno, if_neg fun hmem => hno (htable hmem)]

/-- A special character makes the string longer. -/
theorem length_regexPiece_lt (h : IsSpecial c) :
    (regexPiece [] c).length < (regexPiece specialRegexCharacters c).length := by
  simp [regexPiece, h.normal, h.mem]

theorem length_regexPiece_le (c : ExpressionCharacter) :
    (regexPiece [] c).length ≤ (regexPiece specialRegexCharacters c).length := by
  by_cases h : IsSpecial c
  · exact Nat.le_of_lt (length_regexPiece_lt h)
  · unfold regexPiece
    split
    · exact Nat.le_refl _
    · exact Nat.le_refl _
    · exact Nat.le_refl _
    · rename_i htype
      rw [if_neg fun hmem => h ⟨htype, hmem⟩]
      simp

theorem length_flatMap_regexPiece_lt (h : ∃ c ∈ chars, IsSpecial c) :
    (chars.flatMap (regexPiece [])).length <
      (chars.flatMap (regexPiece specialRegexCharacters)).length := by
  have hle : ∀ chars : List ExpressionCharacter, (chars.flatMap (regexPiece [])).length ≤
      (chars.flatMap (regexPiece specialRegexCharacters)).length := by
    intro chars
    induction chars with
    | nil => exact Nat.le_refl _
    | cons c chars ih =>
      have hpiece := length_regexPiece_le c
      simp only [List.flatMap_cons, List.length_append]
      omega
  induction chars with
  | nil => simp at h
  | cons c chars ih =>
    have hpiece := length_regexPiece_le c
    have hrest := hle chars
    simp only [List.flatMap_cons, List.length_append]
    obtain ⟨d, hd, hspecial⟩ := h
    rcases List.mem_cons.1 hd with rfl | hd
    · have := length_regexPiece_lt hspecial
      omega
    · have := ih ⟨d, hd, hspecial⟩
      omega

/-- The string is the same behind two programs, and escapes every special
character, if the view has none or both have constructed a `SchemaParser`. -/
theorem regexString_independent_iff (v : ExpressionView) (history history' : List ProgramStep) :
    (regexStringAfter history v = regexStringAfter history' v ∧
      RegexOf v.chars (regexStringAfter history v).1) ↔
      (∀ c ∈ v.chars, ¬ IsSpecial c) ∨
        .schemaParser ∈ history ∧ .schemaParser ∈ history' := by
  rw [regexOf_iff, regexStringAfter_eq, regexStringAfter_eq]
  have hsubset : ∀ history, tableAfter history ⊆ specialRegexCharacters := by
    intro history
    by_cases h : .schemaParser ∈ history
    · rw [(tableAfter_eq history).1 h]
      exact List.Subset.refl _
    · rw [(tableAfter_eq history).2 h]
      exact List.nil_subset _
  constructor
  · rintro ⟨hsame, hescaped⟩
    have hsame := congrArg Prod.fst hsame
    dsimp only at hsame hescaped
    by_contra hno
    rw [not_or, not_and_or] at hno
    obtain ⟨hspecial, hhistory⟩ := hno
    have hspecial : ∃ c ∈ v.chars, IsSpecial c := by simpa using hspecial
    have hlt := length_flatMap_regexPiece_lt hspecial
    rcases hhistory with hhistory | hhistory
    · rw [(tableAfter_eq history).2 hhistory] at hescaped
      rw [hescaped] at hlt
      exact Nat.lt_irrefl _ hlt
    · rw [(tableAfter_eq history').2 hhistory, hescaped] at hsame
      rw [hsame] at hlt
      exact Nat.lt_irrefl _ hlt
  · rintro (hplain | ⟨hhistory, hhistory'⟩)
    · rw [flatMap_regexPiece_of_plain hplain (hsubset history),
        flatMap_regexPiece_of_plain hplain (hsubset history')]
      exact ⟨rfl, rfl⟩
    · rw [(tableAfter_eq history).1 hhistory, (tableAfter_eq history').1 hhistory']
      exact ⟨rfl, rfl⟩

/-- The regex of the view `.` is `.` before the first `SchemaParser`, and `\.`
behind it. -/
theorem not_regexString_independent :
    regexStringAfter [] (new ⟨[46]⟩ 0 1) = ([46], false) ∧
      regexStringAfter [.schemaParser] (new ⟨[46]⟩ 0 1) =
        ([ExpressionCharacter.cBackslash, 46], false) ∧
      ¬ RegexOf (new ⟨[46]⟩ 0 1).chars (regexStringAfter [] (new ⟨[46]⟩ 0 1)).1 := by
  refine ⟨by decide, by decide, fun h => ?_⟩
  exact absurd (regexOf_iff.1 h) (by decide)

end ExpressionView

end LogSurgeon
