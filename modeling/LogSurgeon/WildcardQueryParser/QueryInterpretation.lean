import LogSurgeon.Lib.OrderedSet

/-!
# Interpretations of a query

An interpretation is a list of static and variable tokens.  Appending merges a
static token with the static token in front of it, so equal interpretations
have equal tokens.  Interpretations are kept in ordered sets, and the order is
that of `operator<=>`.
-/

namespace LogSurgeon

open Std (TransOrd LawfulEqOrd TransCmp OrientedCmp)

/-! ## Tokens -/

structure StaticQueryToken where
  querySubstring : List UInt8
deriving DecidableEq, Repr

structure VariableQueryToken where
  variableType : Nat
  querySubstring : List UInt8
  containsWildcard : Bool
deriving DecidableEq, Repr

inductive QueryToken where
  | staticToken (token : StaticQueryToken)
  | variableToken (token : VariableQueryToken)
deriving DecidableEq, Repr

def StaticQueryToken.append (token rhs : StaticQueryToken) : StaticQueryToken :=
  ⟨token.querySubstring ++ rhs.querySubstring⟩

instance : Ord StaticQueryToken := ⟨compareOn (·.querySubstring)⟩

instance : TransOrd StaticQueryToken := inferInstanceAs (TransCmp (compareOn _))

instance : LawfulEqOrd StaticQueryToken where
  eq_of_compare {a b} h := by
    cases a
    cases b
    have hlist := LawfulEqOrd.eq_of_compare (α := List UInt8) h
    simpa using hlist

/-- The type counts first, then the substring, then the wildcard. -/
instance : Ord VariableQueryToken :=
  ⟨compareLex (compareOn (·.variableType))
    (compareLex (compareOn (·.querySubstring)) (compareOn (·.containsWildcard)))⟩

instance : TransOrd VariableQueryToken := inferInstanceAs (TransCmp (compareLex _ _))

instance : LawfulEqOrd VariableQueryToken where
  eq_of_compare {a b} h := by
    have h : ((compare a.variableType b.variableType).then
      ((compare a.querySubstring b.querySubstring).then
        (compare a.containsWildcard b.containsWildcard))) = .eq := h
    rw [Ordering.then_eq_eq, Ordering.then_eq_eq, Nat.compare_eq_eq, Std.compare_eq_iff_eq,
      Std.compare_eq_iff_eq] at h
    cases a
    cases b
    simpa using h

/-- A static token comes before a variable. -/
instance : Ord QueryToken where
  compare
    | .staticToken a, .staticToken b => compare a b
    | .staticToken _, .variableToken _ => .lt
    | .variableToken _, .staticToken _ => .gt
    | .variableToken a, .variableToken b => compare a b

instance : TransOrd QueryToken where
  eq_swap {a b} := by
    cases a <;> cases b
    · exact @OrientedCmp.eq_swap StaticQueryToken compare _ _ _
    · rfl
    · rfl
    · exact @OrientedCmp.eq_swap VariableQueryToken compare _ _ _
  isLE_trans {a b c} hab hbc := by
    cases a with
    | staticToken a =>
      cases c with
      | variableToken => rfl
      | staticToken c =>
        cases b with
        | variableToken => cases hbc
        | staticToken b => exact @TransCmp.isLE_trans StaticQueryToken compare _ a b c hab hbc
    | variableToken a =>
      cases b with
      | staticToken => cases hab
      | variableToken b =>
        cases c with
        | staticToken => cases hbc
        | variableToken c =>
          exact @TransCmp.isLE_trans VariableQueryToken compare _ a b c hab hbc

instance : LawfulEqOrd QueryToken where
  eq_of_compare {a b} h := by
    cases a <;> cases b
    · exact congrArg _ (LawfulEqOrd.eq_of_compare h)
    · cases h
    · cases h
    · exact congrArg _ (LawfulEqOrd.eq_of_compare h)

/-! ## Interpretations -/

structure QueryInterpretation where
  tokens : List QueryToken := []
deriving DecidableEq, Repr

namespace QueryInterpretation

instance : Ord QueryInterpretation := ⟨compareOn (·.tokens)⟩

instance : TransOrd QueryInterpretation := inferInstanceAs (TransCmp (compareOn _))

instance : LawfulEqOrd QueryInterpretation where
  eq_of_compare {a b} h := by
    cases a
    cases b
    have hlist := LawfulEqOrd.eq_of_compare (α := List QueryToken) h
    simpa using hlist

/-- Merges the last token and the first new one, if both are static. -/
def appendQueryInterpretation (i suffix : QueryInterpretation) : QueryInterpretation :=
  match suffix.tokens with
  | [] => i
  | firstNewToken :: rest =>
    match i.tokens.getLast?, firstNewToken with
    | some (.staticToken lastOldToken), .staticToken token =>
      ⟨i.tokens.dropLast ++ .staticToken (lastOldToken.append token) :: rest⟩
    | _, _ => ⟨i.tokens ++ suffix.tokens⟩

def appendStaticToken (i : QueryInterpretation) (querySubstring : List UInt8) :
    QueryInterpretation :=
  if querySubstring = [] then i
  else
    match i.tokens.getLast? with
    | some (.staticToken prevToken) =>
      ⟨i.tokens.dropLast ++ [.staticToken (prevToken.append ⟨querySubstring⟩)]⟩
    | _ => ⟨i.tokens ++ [.staticToken ⟨querySubstring⟩]⟩

def appendVariableToken (i : QueryInterpretation) (variableType : Nat)
    (querySubstring : List UInt8) (containsWildcard : Bool) : QueryInterpretation :=
  ⟨i.tokens ++ [.variableToken ⟨variableType, querySubstring, containsWildcard⟩]⟩

def ofStatic (querySubstring : List UInt8) : QueryInterpretation :=
  appendStaticToken {} querySubstring

def ofVariable (variableType : Nat) (querySubstring : List UInt8) (containsWildcard : Bool) :
    QueryInterpretation :=
  appendVariableToken {} variableType querySubstring containsWildcard

@[simp] theorem appendQueryInterpretation_empty (suffix : QueryInterpretation) :
    appendQueryInterpretation {} suffix = suffix := by
  obtain ⟨tokens⟩ := suffix
  cases tokens <;> rfl

end QueryInterpretation

end LogSurgeon
