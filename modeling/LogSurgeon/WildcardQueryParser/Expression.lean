import LogSurgeon.Constants
import Mathlib.Data.List.Basic

/-!
# Expressions and their views

The characters of a search string with their types, and the subranges that the
query parser interprets.  A string is a list of bytes.

* `getChars` finds the type of each character from the type of the one before.
* `ExpressionView` holds indices that lie in the expression.
* `generateRegexString` escapes the characters that the schema parser reads in
  its own way.
-/

namespace LogSurgeon

/-! ## Characters -/

inductive ExpressionCharacter.Type where
  | normal
  | greedyWildcard
  | nonGreedyWildcard
  | escape
deriving DecidableEq, Repr

structure ExpressionCharacter where
  value : UInt8
  type : ExpressionCharacter.Type
deriving DecidableEq, Repr

namespace ExpressionCharacter

/-- `*` -/
def cStar : UInt8 := 42

/-- `?` -/
def cQuestionMark : UInt8 := 63

/-- `\` -/
def cBackslash : UInt8 := 92

def isGreedyWildcard (c : ExpressionCharacter) : Bool := c.type = .greedyWildcard

def isNonGreedyWildcard (c : ExpressionCharacter) : Bool := c.type = .nonGreedyWildcard

def isWildcard (c : ExpressionCharacter) : Bool :=
  c.type = .greedyWildcard || c.type = .nonGreedyWildcard

def isEscape (c : ExpressionCharacter) : Bool := c.type = .escape

def isDelim (c : ExpressionCharacter) (delimTable : Nat → Bool) : Bool :=
  delimTable c.value.toNat

def isDelimOrWildcard (c : ExpressionCharacter) (delimTable : Nat → Bool) : Bool :=
  c.isDelim delimTable || c.isWildcard

/-- The type of a character behind one that is no escape character. -/
def typeOf (c : UInt8) : ExpressionCharacter.Type :=
  if c = cStar then .greedyWildcard
  else if c = cQuestionMark then .nonGreedyWildcard
  else if c = cBackslash then .escape
  else .normal

@[simp] theorem typeOf_eq_greedyWildcard {c : UInt8} :
    typeOf c = .greedyWildcard ↔ c = cStar := by
  unfold typeOf
  split_ifs <;> simp_all

@[simp] theorem typeOf_eq_escape {c : UInt8} : typeOf c = .escape ↔ c = cBackslash := by
  unfold typeOf
  split_ifs with hstar hquestion hbackslash
  · simp [hstar, cStar, cBackslash]
  · simp [hquestion, cQuestionMark, cBackslash]
  · simpa using hbackslash
  · simpa using hbackslash

/-- The character, where `escaped` says whether it is behind an escape character. -/
def behind (escaped : Bool) (c : UInt8) : ExpressionCharacter :=
  ⟨c, if escaped then .normal else typeOf c⟩

@[simp] theorem value_behind (escaped : Bool) (c : UInt8) : (behind escaped c).value = c := rfl

@[simp] theorem isGreedyWildcard_behind {escaped : Bool} {c : UInt8} :
    (behind escaped c).isGreedyWildcard = true ↔ escaped = false ∧ c = cStar := by
  unfold isGreedyWildcard behind
  cases escaped <;> simp

@[simp] theorem isEscape_behind {escaped : Bool} {c : UInt8} :
    (behind escaped c).isEscape = true ↔ escaped = false ∧ c = cBackslash := by
  unfold isEscape behind
  cases escaped <;> simp

/-- An unescaped `*`. -/
def greedyStar : ExpressionCharacter := ⟨cStar, .greedyWildcard⟩

end ExpressionCharacter

/-! ## Expressions -/

structure Expression where
  searchString : List UInt8
deriving DecidableEq, Repr

namespace Expression

/-- The body of the loop of the constructor. -/
def addChar (chars : List ExpressionCharacter) (c : UInt8) : List ExpressionCharacter :=
  if chars.getLast?.all (!·.isEscape) then chars ++ [⟨c, ExpressionCharacter.typeOf c⟩]
  else chars ++ [⟨c, .normal⟩]

def getChars (e : Expression) : List ExpressionCharacter := e.searchString.foldl addChar []

def length (e : Expression) : Nat := e.searchString.length

/-- The characters of a string, where `escaped` says whether an escape character
stands in front of it. -/
def charsFrom (escaped : Bool) : List UInt8 → List ExpressionCharacter
  | [] => []
  | c :: s => .behind escaped c :: charsFrom (ExpressionCharacter.behind escaped c).isEscape s

theorem foldl_addChar (chars : List ExpressionCharacter) (s : List UInt8) :
    s.foldl addChar chars = chars ++ charsFrom (chars.getLast?.any (·.isEscape)) s := by
  induction s generalizing chars with
  | nil => simp [charsFrom]
  | cons c s ih =>
    have hadd : addChar chars c = chars ++ [.behind (chars.getLast?.any (·.isEscape)) c] := by
      unfold addChar ExpressionCharacter.behind
      cases chars.getLast? with
      | none => rfl
      | some last => cases h : last.isEscape <;> simp [h]
    rw [List.foldl_cons, ih, hadd, List.getLast?_concat, charsFrom, List.append_assoc]
    rfl

theorem getChars_eq (e : Expression) : e.getChars = charsFrom false e.searchString :=
  foldl_addChar [] e.searchString

@[simp] theorem map_value_charsFrom (escaped : Bool) (s : List UInt8) :
    (charsFrom escaped s).map (·.value) = s := by
  induction s generalizing escaped with
  | nil => rfl
  | cons c s ih => rw [charsFrom, List.map_cons, ih, ExpressionCharacter.value_behind]

@[simp] theorem length_charsFrom (escaped : Bool) (s : List UInt8) :
    (charsFrom escaped s).length = s.length := by
  rw [← List.length_map (·.value), map_value_charsFrom]

@[simp] theorem map_value_getChars (e : Expression) :
    e.getChars.map (·.value) = e.searchString := by
  rw [getChars_eq, map_value_charsFrom]

@[simp] theorem length_getChars (e : Expression) : e.getChars.length = e.length := by
  rw [getChars_eq, length_charsFrom]
  rfl

/-- Whether an escape character ends the string, with the given one in front. -/
def endsEscaped (escaped : Bool) (s : List UInt8) : Bool :=
  ((charsFrom escaped s).getLast?.map (·.isEscape)).getD escaped

theorem charsFrom_append (escaped : Bool) (s t : List UInt8) :
    charsFrom escaped (s ++ t) =
      charsFrom escaped s ++ charsFrom (endsEscaped escaped s) t := by
  induction s generalizing escaped with
  | nil => rfl
  | cons c s ih =>
    rw [List.cons_append, charsFrom, charsFrom, ih, List.cons_append]
    congr 3
    unfold endsEscaped
    rw [charsFrom, List.getLast?_cons]
    cases (charsFrom _ s).getLast? <;> rfl

/-- A greedy wildcard is `*`. -/
theorem eq_greedyStar {escaped : Bool} {s : List UInt8} {c : ExpressionCharacter}
    (hc : c ∈ charsFrom escaped s) (h : c.isGreedyWildcard) :
    c = ExpressionCharacter.greedyStar := by
  induction s generalizing escaped with
  | nil => cases hc
  | cons b s ih =>
    rw [charsFrom, List.mem_cons] at hc
    rcases hc with rfl | hc
    · obtain ⟨rfl, rfl⟩ := ExpressionCharacter.isGreedyWildcard_behind.1 h
      rfl
    · exact ih hc

end Expression

/-! ## Views -/

/-- The characters of the expression from `beginIdx` up to `endIdx`. -/
structure ExpressionView where
  expression : Expression
  beginIdx : Nat
  endIdx : Nat
  begin_le : beginIdx ≤ endIdx
  end_le : endIdx ≤ expression.length
deriving DecidableEq, Repr

namespace ExpressionView

/-- The constructor brings the indices into the expression. -/
def new (expression : Expression) (beginIdx endIdx : Nat) : ExpressionView where
  expression := expression
  beginIdx := min beginIdx (min endIdx expression.length)
  endIdx := min endIdx expression.length
  begin_le := Nat.min_le_right _ _
  end_le := Nat.min_le_right _ _

theorem new_eq {expression : Expression} {b n : Nat} (hb : b ≤ n) (hn : n ≤ expression.length) :
    new expression b n = ⟨expression, b, n, hb, hn⟩ := by
  unfold new
  congr 1
  · omega
  · omega

def chars (v : ExpressionView) : List ExpressionCharacter :=
  (v.expression.getChars.drop v.beginIdx).take (v.endIdx - v.beginIdx)

def getSearchString (v : ExpressionView) : List UInt8 :=
  (v.expression.searchString.drop v.beginIdx).take (v.endIdx - v.beginIdx)

@[simp] theorem map_value_chars (v : ExpressionView) :
    v.chars.map (·.value) = v.getSearchString := by
  unfold chars getSearchString
  rw [List.map_take, List.map_drop, Expression.map_value_getChars]

@[simp] theorem length_chars (v : ExpressionView) : v.chars.length = v.endIdx - v.beginIdx := by
  have hend := v.end_le
  unfold chars
  rw [List.length_take, List.length_drop, Expression.length_getChars]
  omega

@[simp] theorem length_getSearchString (v : ExpressionView) :
    v.getSearchString.length = v.endIdx - v.beginIdx := by
  rw [← map_value_chars, List.length_map, length_chars]

theorem mem_getChars_of_mem_chars {v : ExpressionView} {c : ExpressionCharacter}
    (h : c ∈ v.chars) : c ∈ v.expression.getChars :=
  List.mem_of_mem_drop (List.mem_of_mem_take h)

/-- The view with the greedy wildcards next to it, and whether there are any. -/
def extendToAdjacentGreedyWildcards (v : ExpressionView) : Bool × ExpressionView :=
  let fullSpan := v.expression.getChars
  let extendLeft := decide (v.beginIdx > 0) &&
    (fullSpan[v.beginIdx - 1]?).any (·.isGreedyWildcard)
  let extendRight := (fullSpan[v.endIdx]?).any (·.isGreedyWildcard)
  (extendLeft || extendRight,
    new v.expression (if extendLeft then v.beginIdx - 1 else v.beginIdx)
      (if extendRight then v.endIdx + 1 else v.endIdx))

/-- The character at the index, if it is a greedy wildcard. -/
def greedyWildcardAt (cs : List ExpressionCharacter) (k : Nat) : List ExpressionCharacter :=
  (cs[k]?).toList.filter (·.isGreedyWildcard)

theorem greedyWildcardAt_eq_nil {cs : List ExpressionCharacter} {k : Nat}
    (h : ¬ (cs[k]?).any (·.isGreedyWildcard)) : greedyWildcardAt cs k = [] := by
  unfold greedyWildcardAt
  cases hc : cs[k]? with
  | none => rfl
  | some c =>
    rw [hc] at h
    simpa using h

theorem greedyWildcardAt_eq_singleton {cs : List ExpressionCharacter} {k : Nat}
    {c : ExpressionCharacter} (hc : cs[k]? = some c) (h : c.isGreedyWildcard) :
    greedyWildcardAt cs k = [c] := by
  unfold greedyWildcardAt
  rw [hc]
  simp [h]

theorem take_extend_right {cs : List ExpressionCharacter} {b n : Nat} (hb : b ≤ n) :
    (cs.drop b).take ((if (cs[n]?).any (·.isGreedyWildcard) then n + 1 else n) - b) =
      (cs.drop b).take (n - b) ++ greedyWildcardAt cs n := by
  split
  · rename_i hgreedy
    obtain ⟨c, hc, hgreedy⟩ := (Option.any_eq_true _ _).1 hgreedy
    rw [greedyWildcardAt_eq_singleton hc hgreedy, Nat.sub_add_comm hb, List.take_add_one,
      List.getElem?_drop, Nat.add_sub_cancel' hb, hc]
    rfl
  · rename_i hgreedy
    rw [greedyWildcardAt_eq_nil hgreedy, List.append_nil]

theorem take_extend_left {cs : List ExpressionCharacter} {b n : Nat} (hpos : 0 < b)
    (hb : b ≤ n) :
    (cs.drop (if (cs[b - 1]?).any (·.isGreedyWildcard) then b - 1 else b)).take
        (n - if (cs[b - 1]?).any (·.isGreedyWildcard) then b - 1 else b) =
      greedyWildcardAt cs (b - 1) ++ (cs.drop b).take (n - b) := by
  split
  · rename_i hgreedy
    obtain ⟨c, hc, hgreedy⟩ := (Option.any_eq_true _ _).1 hgreedy
    obtain ⟨hlt, hc'⟩ := List.getElem?_eq_some_iff.1 hc
    rw [greedyWildcardAt_eq_singleton hc hgreedy, List.drop_eq_getElem_cons hlt, hc',
      Nat.sub_add_cancel hpos, show n - (b - 1) = n - b + 1 by omega, List.take_succ_cons]
    rfl
  · rename_i hgreedy
    rw [greedyWildcardAt_eq_nil hgreedy, List.nil_append]

/-- The characters of the extended view. -/
theorem chars_extend (v : ExpressionView) :
    v.extendToAdjacentGreedyWildcards.2.chars =
      (if v.beginIdx = 0 then [] else greedyWildcardAt v.expression.getChars (v.beginIdx - 1)) ++
        (v.chars ++ greedyWildcardAt v.expression.getChars v.endIdx) := by
  obtain ⟨e, b, n, hb, hn⟩ := v
  have hend : (if (e.getChars[n]?).any (·.isGreedyWildcard) then n + 1 else n) ≤ e.length := by
    split
    · rename_i hgreedy
      obtain ⟨c, hc, -⟩ := (Option.any_eq_true _ _).1 hgreedy
      rw [← e.length_getChars]
      exact (List.getElem?_eq_some_iff.1 hc).1
    · exact hn
  have hle : n ≤ if (e.getChars[n]?).any (·.isGreedyWildcard) then n + 1 else n := by
    split <;> omega
  unfold extendToAdjacentGreedyWildcards chars
  dsimp only
  by_cases hzero : b = 0
  · subst hzero
    have hleft : (decide (0 > 0) && (e.getChars[0 - 1]?).any (·.isGreedyWildcard)) = false := rfl
    simp only [hleft, Bool.false_eq_true, if_false]
    rw [new_eq (Nat.zero_le _) hend, if_pos trivial, List.nil_append]
    exact take_extend_right (Nat.zero_le n)
  · have hpos : 0 < b := by omega
    simp only [hpos, decide_true, Bool.true_and]
    rw [new_eq _ hend, if_neg hzero]
    · show (e.getChars.drop _).take (_ - _) = _
      rw [take_extend_left hpos (Nat.le_trans hb hle), take_extend_right hb]
    · split <;> omega

def startsOrEndsWithGreedyWildcard (v : ExpressionView) : Bool :=
  v.chars.head?.any (·.isGreedyWildcard) || v.chars.getLast?.any (·.isGreedyWildcard)

/-- An escape character on the right counts with the character behind it. -/
def isSurroundedByDelimsOrWildcards (v : ExpressionView) (delimTable : Nat → Bool) : Bool :=
  let chars := v.expression.getChars
  let hasLeftBoundary :=
    if v.beginIdx = 0 then true
    else (chars[v.beginIdx - 1]?).any (·.isDelimOrWildcard delimTable)
  let hasRightBoundary :=
    match chars[v.endIdx]? with
    | none => true
    | some succeedingChar =>
      if succeedingChar.isEscape then (chars[v.endIdx + 1]?).any (·.isDelim delimTable)
      else succeedingChar.isDelimOrWildcard delimTable
  hasLeftBoundary && hasRightBoundary

def isWellFormed (v : ExpressionView) : Bool :=
  if v.chars = [] then true
  else if decide (v.beginIdx > 0) && (v.expression.getChars[v.beginIdx - 1]?).any (·.isEscape) then
    false
  else !(v.chars.getLast?.any (·.isEscape))

/-- The characters that a schema writes behind a backslash, `()*+-.[]\^{}|<>?`. -/
def specialRegexCharacters : List UInt8 :=
  [40, 41, 42, 43, 45, 46, 91, 93, 92, 94, 123, 125, 124, 60, 62, 63]

/-- The body of the loop of `generate_regex_string`. -/
def addRegexChar (regex : List UInt8 × Bool) (c : ExpressionCharacter) : List UInt8 × Bool :=
  if c.isEscape then regex
  else if c.isGreedyWildcard then (regex.1 ++ [46, 42], true)
  else if c.isNonGreedyWildcard then (regex.1 ++ [46], true)
  else if c.value ∈ specialRegexCharacters then
    (regex.1 ++ [ExpressionCharacter.cBackslash, c.value], regex.2)
  else (regex.1 ++ [c.value], regex.2)

/-- A regex for the view, and whether it has wildcards. -/
def generateRegexString (v : ExpressionView) : List UInt8 × Bool :=
  v.chars.foldl addRegexChar ([], false)

end ExpressionView

end LogSurgeon
