import LogSurgeon.Token
import Mathlib.Algebra.Group.Nat.Defs

/-!
# Buffers

`Buffer` is the growing buffer of `Buffer.hpp`, and `ParserInputBuffer` the
input buffer of `ParserInputBuffer.hpp`.

* A storage gives the item at every position, also past its size.
* `activeStorage` is `none` while the static storage is in use.
* Sizes are `uint32_t` in the source, so a size is doubled modulo `2 ^ 32`.
-/

namespace LogSurgeon

/-- The value of a `uint32_t`. -/
def toUInt32 (n : Nat) : Nat := n % 2 ^ 32

theorem toUInt32_of_lt {n : Nat} (h : n < 2 ^ 32) : toUInt32 n = n := Nat.mod_eq_of_lt h

/-! ## The growing buffer -/

structure Buffer (Item : Type) where
  pos : Nat := 0
  activeSize : Nat := cStaticByteBuffSize
  staticStorage : Nat → Item
  activeStorage : Option (Nat → Item) := none

namespace Buffer

variable {Item : Type}

def getActiveBuffer (b : Buffer Item) : Nat → Item := b.activeStorage.getD b.staticStorage

def size (b : Buffer Item) : Nat := b.activeSize

/-- Changes the items of the storage in use. -/
def write (b : Buffer Item) (storage : Nat → Item) : Buffer Item :=
  match b.activeStorage with
  | some _ => { b with activeStorage := some storage }
  | none => { b with staticStorage := storage }

def setValue (b : Buffer Item) (pos : Nat) (value : Item) : Buffer Item :=
  b.write fun i => if i = pos then value else b.getActiveBuffer i

def getValue (b : Buffer Item) (pos : Nat) : Item := b.getActiveBuffer pos

def setCurrValue (b : Buffer Item) (value : Item) : Buffer Item := b.setValue b.pos value

def getCurrValue (b : Buffer Item) : Item := b.getValue b.pos

def setPos (b : Buffer Item) (pos : Nat) : Buffer Item := { b with pos := pos }

def incrementPos (b : Buffer Item) : Buffer Item := { b with pos := b.pos + 1 }

/-- A dynamic storage of twice the size takes the place of the one in use. -/
def doubleSize [Inhabited Item] (b : Buffer Item) : Buffer Item :=
  { b with activeStorage := some fun _ => default, activeSize := toUInt32 (2 * b.activeSize) }

/-- The items of `storage` from `first` to `last` go to the positions from
`offset`. -/
def copy (b : Buffer Item) (storage : Nat → Item) (first last offset : Nat) : Buffer Item :=
  b.write fun i =>
    if offset ≤ i ∧ i < offset + (last - first) then storage (first + (i - offset))
    else b.getActiveBuffer i

def reset (b : Buffer Item) : Buffer Item :=
  { pos := 0, staticStorage := b.staticStorage }

def setActiveBuffer (b : Buffer Item) (storage : Nat → Item) (size pos : Nat) : Buffer Item :=
  { b with activeStorage := some storage, activeSize := size, pos := pos }

@[simp] theorem pos_write (b : Buffer Item) (storage : Nat → Item) :
    (b.write storage).pos = b.pos := by
  unfold write
  split <;> rfl

@[simp] theorem activeSize_write (b : Buffer Item) (storage : Nat → Item) :
    (b.write storage).activeSize = b.activeSize := by
  unfold write
  split <;> rfl

@[simp] theorem getActiveBuffer_write (b : Buffer Item) (storage : Nat → Item) :
    (b.write storage).getActiveBuffer = storage := by
  unfold write getActiveBuffer
  cases h : b.activeStorage <;> simp

@[simp] theorem pos_setValue (b : Buffer Item) (i : Nat) (value : Item) :
    (b.setValue i value).pos = b.pos := pos_write b _

@[simp] theorem activeSize_setValue (b : Buffer Item) (i : Nat) (value : Item) :
    (b.setValue i value).activeSize = b.activeSize := activeSize_write b _

theorem getValue_setValue (b : Buffer Item) (i j : Nat) (value : Item) :
    (b.setValue i value).getValue j = if j = i then value else b.getValue j := by
  simp [setValue, getValue]

@[simp] theorem getValue_setValue_self (b : Buffer Item) (i : Nat) (value : Item) :
    (b.setValue i value).getValue i = value := by
  simp [getValue_setValue]

@[simp] theorem pos_setPos (b : Buffer Item) (pos : Nat) : (b.setPos pos).pos = pos := rfl

@[simp] theorem getValue_setPos (b : Buffer Item) (pos i : Nat) :
    (b.setPos pos).getValue i = b.getValue i := rfl

@[simp] theorem getActiveBuffer_setPos (b : Buffer Item) (pos : Nat) :
    (b.setPos pos).getActiveBuffer = b.getActiveBuffer := rfl

@[simp] theorem activeSize_setPos (b : Buffer Item) (pos : Nat) :
    (b.setPos pos).activeSize = b.activeSize := rfl

@[simp] theorem pos_incrementPos (b : Buffer Item) : b.incrementPos.pos = b.pos + 1 := rfl

@[simp] theorem getValue_incrementPos (b : Buffer Item) (i : Nat) :
    b.incrementPos.getValue i = b.getValue i := rfl

end Buffer

/-! ## The input buffer -/

structure ParserInputBuffer where
  posLastReadChar : Nat := 0
  lastReadFirstHalf : Bool := false
  finishedReadingInput : Bool := false
  logFullyConsumed : Bool := false
  storage : Buffer UInt8
  consumedPos : Nat := cStaticByteBuffSize - 1

namespace ParserInputBuffer

def reset (input : ParserInputBuffer) : ParserInputBuffer :=
  { storage := input.storage.reset }

def setPos (input : ParserInputBuffer) (pos : Nat) : ParserInputBuffer :=
  { input with storage := input.storage.setPos pos }

def setConsumedPos (input : ParserInputBuffer) (consumedPos : Nat) : ParserInputBuffer :=
  { input with consumedPos := consumedPos }

def setLogFullyConsumed (input : ParserInputBuffer) (logFullyConsumed : Bool) :
    ParserInputBuffer :=
  { input with logFullyConsumed := logFullyConsumed }

/-- The next character, or the error, and the buffer behind it. -/
def getNextCharacter (input : ParserInputBuffer) : Except ErrorCode UInt8 × ParserInputBuffer :=
  if input.finishedReadingInput ∧ input.storage.pos = input.posLastReadChar then
    (.ok cCharEOF, { input with logFullyConsumed := true })
  else if input.lastReadFirstHalf ∧ input.storage.pos = input.storage.size / 2 ∨
      ¬ input.lastReadFirstHalf ∧ input.storage.pos = 0 then
    (.error .bufferOutOfBounds, input)
  else
    let storage := input.storage.incrementPos
    let storage := if storage.pos = storage.size then storage.setPos 0 else storage
    (.ok input.storage.getCurrValue, { input with storage := storage })

/-- The buffer of a caller takes the place of the storage, with twice its size
so that reading never wraps. -/
def setStorage (input : ParserInputBuffer) (storage : Nat → UInt8) (size pos : Nat)
    (finishedReadingInput : Bool) : ParserInputBuffer :=
  { input.reset with
    storage := input.reset.storage.setActiveBuffer storage (toUInt32 (size * 2)) pos
    finishedReadingInput := finishedReadingInput
    posLastReadChar := size
    lastReadFirstHalf := true }

end ParserInputBuffer

end LogSurgeon
