import LogSurgeon.Constants
import LogSurgeon.FiniteAutomata.RegisterHandler

/-!
# Tokens

A token is a span of a buffer, given by its two ends, which wraps at the end
of the buffer if `startPos` is the greater one.  `Token` and its operations are
those of `Token.hpp` and `Token.cpp`.

* `buffer` gives the byte behind every position.  Bytes outside the buffer are
  whatever lies in memory there.
* `bufferSize` is the size of the buffer.
* The string that the source caches is left out.
-/

namespace LogSurgeon

/-- Why a call does not return. -/
inductive Fault where
  /-- An exception. -/
  | thrown
  /-- A null pointer or an empty optional is read. -/
  | nullPointer
  /-- An index beyond the end of an array. -/
  | outOfBounds
  /-- The number of steps that the model allows is used up. -/
  | outOfSteps
deriving DecidableEq, Repr

/-- An exception or the bound of the model, which no undefined behaviour is behind. -/
def Fault.IsDefined (fault : Fault) : Prop := fault = .thrown ∨ fault = .outOfSteps

/-- The value behind a pointer. -/
def derefOr (fault : Fault) {α : Type} : Option α → Except Fault α
  | some a => .ok a
  | none => .error fault

@[simp] theorem derefOr_some {α : Type} (fault : Fault) (a : α) :
    derefOr fault (some a) = .ok a := rfl

@[simp] theorem derefOr_none {α : Type} (fault : Fault) :
    derefOr fault (none : Option α) = .error fault := rfl

theorem eq_some_of_derefOr {fault : Fault} {α : Type} {a : α} {o : Option α}
    (h : derefOr fault o = .ok a) : o = some a := by
  cases o with
  | none => cases h
  | some a' =>
    cases h
    rfl

/-- What a sequence of two steps returns comes from both. -/
theorem exists_of_bind_eq_ok {ε α β : Type} {x : Except ε α} {f : α → Except ε β} {b : β}
    (h : x >>= f = .ok b) : ∃ a, x = .ok a ∧ f a = .ok b := by
  cases x with
  | error fault => cases h
  | ok a => exact ⟨a, rfl, h⟩

theorem exists_of_isOk {ε α : Type} {x : Except ε α} (h : x.isOk = true) : ∃ a, x = .ok a := by
  cases x with
  | error fault => cases h
  | ok a => exact ⟨a, rfl⟩

/-- The `count` bytes from `start`. -/
def subspan (mem : Nat → UInt8) (start count : Nat) : List UInt8 :=
  (List.range' start count).map mem

@[simp] theorem subspan_zero (mem : Nat → UInt8) (start : Nat) : subspan mem start 0 = [] := rfl

@[simp] theorem length_subspan (mem : Nat → UInt8) (start count : Nat) :
    (subspan mem start count).length = count := by
  simp [subspan]

theorem subspan_append (mem : Nat → UInt8) (start m k : Nat) :
    subspan mem start m ++ subspan mem (start + m) k = subspan mem start (m + k) := by
  rw [subspan, subspan, subspan, ← List.map_append, List.range'_append_1]

structure Token where
  startPos : Nat := 0
  endPos : Nat := 0
  buffer : Nat → UInt8 := fun _ => 0
  bufferSize : Nat := 0
  lineNum : Nat := 0
  typeIds : Option (List Nat) := none
  regHandler : RegisterHandler := .new

namespace Token

def toString (token : Token) : List UInt8 :=
  if token.startPos ≤ token.endPos then
    subspan token.buffer token.startPos (token.endPos - token.startPos)
  else
    subspan token.buffer token.startPos (token.bufferSize - token.startPos) ++
      subspan token.buffer 0 token.endPos

theorem toString_of_le {token : Token} (h : token.startPos ≤ token.endPos) :
    token.toString = subspan token.buffer token.startPos (token.endPos - token.startPos) :=
  if_pos h

/-- `get_type_ids()->at(0)`. -/
def firstTypeId (token : Token) : Except Fault Nat := do
  let typeIds ← derefOr .nullPointer token.typeIds
  derefOr .thrown typeIds.head?

def getSubToken (token : Token) (startPos endPos : Nat) : Except Fault Token :=
  if startPos ≥ token.bufferSize ∨ endPos > token.bufferSize then .error .thrown
  else
    .ok { startPos := startPos, endPos := endPos, buffer := token.buffer
          bufferSize := token.bufferSize, lineNum := token.lineNum, typeIds := token.typeIds }

def getFirstChar (token : Token) : UInt8 := token.buffer token.startPos

def getLength (token : Token) : Nat :=
  if token.startPos ≤ token.endPos then token.endPos - token.startPos
  else token.bufferSize - token.startPos + token.endPos

theorem length_toString (token : Token) : token.toString.length = token.getLength := by
  unfold toString getLength
  split <;> simp

def getReversedRegPositions (token : Token) (regId : Nat) : Except Fault (List Int) :=
  derefOr .thrown (token.regHandler.getReversedPositions regId)

def setStartPos (token : Token) (pos : Nat) : Token := { token with startPos := pos }

def setEndPos (token : Token) (pos : Nat) : Token := { token with endPos := pos }

def setTypeIds (token : Token) (typeIds : List Nat) : Token :=
  { token with typeIds := some typeIds }

/-- The position after the start, which wraps. -/
def getNextPos (token : Token) : Nat :=
  if token.startPos + 1 = token.bufferSize then 0 else token.startPos + 1

def incrementStartPos (token : Token) : Token := token.setStartPos token.getNextPos

/-- The leading delimiter, and the token without it. -/
def releaseDelimiter (token : Token) : UInt8 × Token :=
  (token.getFirstChar, token.incrementStartPos)

end Token

end LogSurgeon
