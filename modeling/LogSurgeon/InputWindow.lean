import LogSurgeon.ReaderInput

/-!
# The window of unconsumed bytes

`ReaderParser` reads a log through the input buffer.  A `Progress` is the buffer
and the reader, with the positions in the log that they stand for: how much of
the log is read, where the next character is, and where the last event that is
consumed ends.

* `InputOperation` has the operations of `ReaderParser` on the buffer.
* `Window` is the invariant: the bytes that are read and not consumed lie in the
  storage, and they leave a gap.
* `run_sound` says that a read overwrites none of them, and that the characters
  come in the order of the log, as long as no sum wraps.
-/

namespace LogSurgeon

open Lib

/-! ## Operations -/

namespace ParserInputBuffer

/-- The position behind the last byte read. -/
def endPlace (input : ParserInputBuffer) : Nat :=
  if input.posLastReadChar = input.storage.size then 0 else input.posLastReadChar

theorem endPlace_or (input : ParserInputBuffer) :
    input.endPlace = input.posLastReadChar ∧ input.posLastReadChar ≠ input.storage.size ∨
      input.endPlace = 0 ∧ input.posLastReadChar = input.storage.size := by
  unfold endPlace
  split
  · rename_i h
    exact Or.inr ⟨rfl, h⟩
  · rename_i h
    exact Or.inl ⟨rfl, h⟩

/-- The position of the byte that comes `back` bytes before the end of what is
read. -/
def place (input : ParserInputBuffer) (back : Nat) : Nat :=
  RingPlaces.before input.storage.size input.endPlace back

/-- A read writes to the position. -/
def Overwrites (input : ParserInputBuffer) (pos : Nat) : Prop :=
  input.ReadIsSafe ∧ input.readOffset ≤ pos ∧ pos < input.readOffset + input.storage.size / 2

end ParserInputBuffer

structure Progress where
  input : ParserInputBuffer
  reader : Reader
  /-- The number of bytes of the log that are read. -/
  read : Nat := 0
  /-- The position in the log of the next character. -/
  position : Nat := 0
  /-- The position in the log behind the last event that is consumed. -/
  consumed : Nat := 0

/-- What `ReaderParser` does to the input buffer.  Positions are positions in
the log. -/
inductive InputOperation where
  | readIfSafe
  | getNextCharacter
  | setLogFullyConsumed (logFullyConsumed : Bool)
  | setPos (position : Nat)
  /-- The event ends at the position.  The consumed position is the one of its
  last byte, or else the one behind it. -/
  | setConsumedPos (position : Nat) (atLast : Bool)
  | increaseCapacity
deriving DecidableEq, Repr

/-- The operation goes back in the input. -/
def InputOperation.Rewinds : InputOperation → Prop
  | .setPos _ => True
  | _ => False

namespace Progress

/-- The parser behind its reset, with a reader. -/
def start (input : ParserInputBuffer) (reader : Reader) : Progress where
  input := input.reset
  reader := reader

/-- The position in the buffer of a byte of the log. -/
def placeOf (s : Progress) (position : Nat) : Nat := s.input.place (s.read - position)

/-- The number of bytes that a read delivers. -/
def delivered (s : Progress) : Nat :=
  s.reader.rest.length - (s.input.readIfSafe s.reader).2.2.rest.length

/-- `none` is an operation that the parser does not make: it goes back to
unconsumed positions only, consumes events that it has read, and grows the
buffer when that is out of bounds. -/
def step (s : Progress) : InputOperation → Option Progress
  | .readIfSafe =>
    some { s with
      input := (s.input.readIfSafe s.reader).2.1
      reader := (s.input.readIfSafe s.reader).2.2
      read := s.read + s.delivered }
  | .getNextCharacter =>
    match s.input.getNextCharacter with
    | (.ok _, input) =>
      some { s with
        input := input
        position := if s.input.AtEnd then s.position else s.position + 1 }
    | (.error _, input) => some { s with input := input }
  | .setLogFullyConsumed logFullyConsumed =>
    some { s with input := s.input.setLogFullyConsumed logFullyConsumed }
  | .setPos position =>
    if s.consumed ≤ position ∧ position ≤ s.position then
      some { s with input := s.input.setPos (s.placeOf position), position := position }
    else none
  | .setConsumedPos position atLast =>
    if s.consumed < position ∧ position ≤ s.position then
      some { s with
        input := s.input.setConsumedPos (s.placeOf (if atLast then position - 1 else position))
        consumed := position }
    else none
  | .increaseCapacity =>
    match s.input.getNextCharacter with
    | (.error .bufferOutOfBounds, _) => some { s with input := s.input.increaseCapacity.2.2 }
    | _ => none

def run (s : Progress) : List InputOperation → Option Progress
  | [] => some s
  | op :: ops => (s.step op).bind fun s => s.run ops

/-- The sums of the operation are below `2 ^ 32`. -/
def Fits (s : Progress) : InputOperation → Prop
  | .readIfSafe => s.input.posLastReadChar + s.delivered < 2 ^ 32
  | .increaseCapacity => s.input.storage.size * 2 < 2 ^ 32
  | _ => True

instance (s : Progress) : (op : InputOperation) → Decidable (s.Fits op)
  | .readIfSafe => inferInstanceAs (Decidable (_ < _))
  | .increaseCapacity => inferInstanceAs (Decidable (_ < _))
  | .getNextCharacter => .isTrue trivial
  | .setLogFullyConsumed _ => .isTrue trivial
  | .setPos _ => .isTrue trivial
  | .setConsumedPos _ _ => .isTrue trivial

/-- The sums of all operations of the run are. -/
def RunFits (s : Progress) : List InputOperation → Prop
  | [] => True
  | op :: ops => s.Fits op ∧ ∀ s', s.step op = some s' → s'.RunFits ops

/-- The character that the operation returns, if it is one of the input. -/
def emitted (s : Progress) : InputOperation → List UInt8
  | .getNextCharacter =>
    match s.input.getNextCharacter with
    | (.ok nextChar, _) => if s.input.AtEnd then [] else [nextChar]
    | (.error _, _) => []
  | _ => []

/-- The characters of the input that the operations return. -/
def returned (s : Progress) : List InputOperation → List UInt8
  | [] => []
  | op :: ops => s.emitted op ++ ((s.step op).map fun s => s.returned ops).getD []

/-! ## The window -/

/-- The bytes that are read and not consumed lie in the storage.  The half that
was read last has `fill` bytes of the log, and the other half is not full. -/
structure Window (log : List UInt8) (fill : Nat) (s : Progress) : Prop where
  even : s.input.storage.size = 2 * (s.input.storage.size / 2)
  fill_pos : 0 < fill
  fill_le : fill ≤ s.input.storage.size / 2
  rest : s.reader.rest = log.drop s.read
  read_le : s.read ≤ log.length
  fills : s.reader.Fills
  consumed_le : s.consumed ≤ s.position
  position_le : s.position ≤ s.read
  window_lt : s.read < s.consumed + s.input.storage.size / 2 + fill
  posLastReadChar_le : s.input.posLastReadChar ≤ s.input.storage.size
  endPlace : s.input.readOffset = RingPlaces.before s.input.storage.size s.input.endPlace
    (s.input.storage.size / 2 + fill)
  pos : s.input.storage.pos = s.placeOf s.position
  holds : ∀ i, s.consumed ≤ i → i < s.read →
    log[i]? = some (s.input.storage.getValue (s.placeOf i))
  finished : s.input.finishedReadingInput = true → s.read = log.length
  full : s.input.finishedReadingInput = false ∨ s.input.posLastReadChar = s.input.storage.size →
    fill = s.input.storage.size / 2
  /-- The consumed position tells when the window lies in the half that was read
  last. -/
  safe : s.input.ReadIsSafe → s.read < s.consumed + s.input.storage.size / 2

variable {log : List UInt8} {fill : Nat} {s s' : Progress}

theorem Window.size_pos (h : s.Window log fill) : 0 < s.input.storage.size := by
  have := h.fill_pos
  have := h.fill_le
  have := h.even
  omega

theorem Window.endPlace_lt (h : s.Window log fill) : s.input.endPlace < s.input.storage.size := by
  have := h.size_pos
  have := h.posLastReadChar_le
  unfold ParserInputBuffer.endPlace
  split <;> omega

/-- The position that is read into next is not the one of an unread byte of the
window. -/
theorem Window.placeOf_ne_readOffset (h : s.Window log fill) {i : Nat} (hi : s.consumed ≤ i)
    (hlt : i < s.read) : s.placeOf i ≠ s.input.readOffset := by
  have hend := h.endPlace_lt
  have hwindow := h.window_lt
  have hfill := h.fill_le
  have heven := h.even
  rw [h.endPlace]
  unfold placeOf ParserInputBuffer.place RingPlaces.before
  split <;> split <;> omega

theorem Window.placeOf_lt (h : s.Window log fill) (i : Nat) :
    s.placeOf i < s.input.storage.size := RingPlaces.before_lt h.endPlace_lt

/-- A byte of the window does not stand behind the end. -/
theorem Window.placeOf_ne_posLastReadChar (h : s.Window log fill) {i : Nat} (hi : s.consumed ≤ i)
    (hlt : i < s.read) : s.placeOf i ≠ s.input.posLastReadChar := by
  have hplace := h.placeOf_lt i
  have hwindow := h.window_lt
  have hfill := h.fill_le
  have heven := h.even
  have hend := s.input.endPlace_or
  intro heq
  rw [heq] at hplace
  unfold placeOf ParserInputBuffer.place RingPlaces.before at heq
  split at heq <;> omega

/-- A half that was filled ends where the next read goes. -/
theorem Window.endPlace_eq (h : s.Window log fill) (hfill : fill = s.input.storage.size / 2) :
    s.input.endPlace = s.input.readOffset := by
  have hend := h.endPlace_lt
  have heven := h.even
  rw [h.endPlace]
  unfold RingPlaces.before
  split <;> omega

/-! ### The next character -/

/-- The next character is the one of the log. -/
theorem Window.getNextCharacter (h : s.Window log fill) {nextChar : UInt8}
    {input : ParserInputBuffer} (hnext : s.input.getNextCharacter = (.ok nextChar, input)) :
    (s.input.AtEnd ∧ s.position = log.length ∧
        input = { s.input with logFullyConsumed := true }) ∨
      ¬ s.input.AtEnd ∧ s.position < s.read ∧ log[s.position]? = some nextChar ∧
        input = s.input.setPos (RingPlaces.next s.input.storage.size s.input.storage.pos) := by
  rcases Nat.lt_or_eq_of_le h.position_le with hlt | heq
  · have hend : ¬ s.input.AtEnd := by
      intro hend
      refine h.placeOf_ne_posLastReadChar h.consumed_le hlt ?_
      rw [← h.pos, hend.2]
    rcases s.input.getNextCharacter_cases with ⟨hend', -⟩ | ⟨-, -, hget⟩ | ⟨-, -, hget⟩
    · exact absurd hend' hend
    · rw [hget] at hnext
      cases hnext
    · rw [hget] at hnext
      cases hnext
      refine Or.inr ⟨hend, hlt, ?_, rfl⟩
      rw [h.holds _ h.consumed_le hlt, h.pos]
  · rcases s.input.getNextCharacter_cases with ⟨hend, hget⟩ | ⟨-, -, hget⟩ | ⟨hend, hpos, -⟩
    · rw [hget] at hnext
      cases hnext
      exact Or.inl ⟨hend, heq.trans (h.finished hend.1), rfl⟩
    · rw [hget] at hnext
      cases hnext
    · exfalso
      have hplace : s.input.storage.pos = s.input.endPlace := by
        rw [h.pos, heq, placeOf, Nat.sub_self]
        exact RingPlaces.before_zero
      have hfull : s.input.finishedReadingInput = false ∨
          s.input.posLastReadChar = s.input.storage.size := by
        rcases s.input.endPlace_or with ⟨hlast, -⟩ | ⟨-, hlast⟩
        · refine Or.inl (Bool.eq_false_iff.2 fun hfinished => hend ⟨hfinished, ?_⟩)
          rw [hplace, hlast]
        · exact Or.inr hlast
      exact hpos (hplace.trans (h.endPlace_eq (h.full hfull)))

/-! ### Each operation keeps the window -/

/-- Where a byte of the window lies when the half that was read last is full. -/
theorem Window.placeOf_notMem (h : s.Window log fill) (hfill : fill = s.input.storage.size / 2)
    (hsafe : s.read < s.consumed + s.input.storage.size / 2) {i : Nat} (hi : s.consumed ≤ i)
    (hlt : i < s.read) :
    ¬ (s.input.readOffset ≤ s.placeOf i ∧
      s.placeOf i < s.input.readOffset + s.input.storage.size / 2) := by
  have heven := h.even
  have hoffset := s.input.readOffset_or
  unfold placeOf ParserInputBuffer.place
  rw [h.endPlace_eq hfill]
  unfold RingPlaces.before
  split <;> omega

/-- The position behind the last byte read, behind a read. -/
theorem Window.endPlace_read (h : s.Window log fill) {count : Nat} (hcount : 0 < count)
    (hle : count ≤ s.input.storage.size / 2)
    (hfits : s.input.posLastReadChar + count < 2 ^ 32) {input : ParserInputBuffer}
    (hsize : input.storage.size = s.input.storage.size)
    (hlast : input.posLastReadChar = ParserInputBuffer.advanceLastRead s.input.posLastReadChar
      count s.input.storage.size) :
    input.posLastReadChar ≤ input.storage.size ∧
      input.endPlace = RingPlaces.after s.input.storage.size s.input.endPlace count := by
  have heven := h.even
  have hend := h.endPlace_lt
  have hor := s.input.endPlace_or
  have hposLast := h.posLastReadChar_le
  have hlast' : input.posLastReadChar =
      if s.input.posLastReadChar + count > s.input.storage.size then
        s.input.posLastReadChar + count - s.input.storage.size
      else s.input.posLastReadChar + count := by
    rw [hlast, ParserInputBuffer.advanceLastRead, toUInt32_of_lt hfits]
  have hor' := input.endPlace_or
  rw [hsize] at hor' ⊢
  unfold RingPlaces.after
  split at hlast' <;> split <;> omega

/-- A read takes the place of consumed bytes only. -/
theorem Window.read (h : s.Window log fill) (hsafe : s.input.ReadIsSafe) {bytes : List UInt8}
    {input : ParserInputBuffer} {reader : Reader} (hreads : s.input.ReadsBytes bytes input)
    (hrest : s.reader.rest = bytes ++ reader.rest) (hpos : 0 < bytes.length)
    (hle : bytes.length ≤ s.input.storage.size / 2)
    (hfills : reader.Fills ∧ (bytes.length < s.input.storage.size / 2 → reader.rest = []))
    (hfits : s.input.posLastReadChar + bytes.length < 2 ^ 32) :
    Window log bytes.length
      { s with input := input, reader := reader, read := s.read + bytes.length } := by
  have heven := h.even
  have hnotFinished : s.input.finishedReadingInput = false := by simpa using hsafe.1
  have hfill := h.full (Or.inl hnotFinished)
  have hwindow := h.safe hsafe
  have hlog : log.drop s.read = bytes ++ reader.rest := h.rest.symm.trans hrest
  have hlength : log.length = s.read + bytes.length + reader.rest.length := by
    have := congrArg List.length hlog
    rw [List.length_drop, List.length_append] at this
    have := h.read_le
    omega
  obtain ⟨hposLast, hend⟩ := h.endPlace_read hpos hle hfits hreads.size hreads.posLastReadChar
  have hendPlace := h.endPlace_eq hfill
  have hplace : ∀ i, s.consumed ≤ i → i ≤ s.read →
      input.place (s.read + bytes.length - i) = s.placeOf i := by
    intro i hi hlt
    have hback : s.read + bytes.length - i = s.read - i + bytes.length := by omega
    unfold placeOf ParserInputBuffer.place
    rw [hreads.size, hend, hback, RingPlaces.before_after h.endPlace_lt (by omega) hpos]
  have hoffset := s.input.readOffset_or
  have hoffset' : input.readOffset + s.input.readOffset = s.input.storage.size / 2 := by
    unfold ParserInputBuffer.readOffset
    rw [hreads.lastReadFirstHalf, hreads.size]
    cases s.input.lastReadFirstHalf <;> simp
  constructor
  case even => rw [hreads.size, h.even]; omega
  case fill_pos => exact hpos
  case fill_le => rw [hreads.size]; exact hle
  case rest =>
    show reader.rest = log.drop (s.read + bytes.length)
    rw [← List.drop_drop, hlog, List.drop_left]
  case read_le => show s.read + bytes.length ≤ _; omega
  case fills => exact hfills.1
  case consumed_le => exact h.consumed_le
  case position_le => exact Nat.le_trans h.position_le (Nat.le_add_right _ _)
  case window_lt =>
    show s.read + bytes.length < s.consumed + input.storage.size / 2 + bytes.length
    rw [hreads.size]
    omega
  case posLastReadChar_le => exact hposLast
  case endPlace =>
    show input.readOffset = RingPlaces.before input.storage.size input.endPlace
      (input.storage.size / 2 + bytes.length)
    rw [hend, hendPlace, hreads.size]
    unfold RingPlaces.before RingPlaces.after
    split <;> split <;> omega
  case pos =>
    show input.storage.pos = input.place (s.read + bytes.length - s.position)
    rw [hplace _ h.consumed_le h.position_le, hreads.pos, h.pos]
  case holds =>
    intro i hi hlt
    show log[i]? = some (input.storage.getValue (input.place (s.read + bytes.length - i)))
    rcases Nat.lt_or_ge i s.read with hold | hnew
    · have hnot := h.placeOf_notMem hfill hwindow hi hold
      rw [hplace i hi (Nat.le_of_lt hold), hreads.getValue, if_neg (by omega), h.holds i hi hold]
    · have hplace : input.place (s.read + bytes.length - i) =
          s.input.readOffset + (i - s.read) := by
        have hlt : i < s.read + bytes.length := hlt
        unfold ParserInputBuffer.place
        rw [hreads.size, hend, hendPlace]
        unfold RingPlaces.before RingPlaces.after
        split <;> split <;> omega
      have hlt : i - s.read < bytes.length := by
        have hlt : i < s.read + bytes.length := hlt
        omega
      have hbyte : log[i]? = bytes[i - s.read]? := by
        have hdrop : (log.drop s.read)[i - s.read]? = log[i]? := by
          rw [List.getElem?_drop]
          congr 1
          omega
        rw [← hdrop, hlog, List.getElem?_append_left hlt]
      rw [hplace, hreads.getValue, if_pos (by omega), hbyte, Nat.add_sub_cancel_left,
        List.getD_eq_getElem?_getD, List.getElem?_eq_getElem hlt, Option.getD_some]
  case finished =>
    intro hfinished
    rw [hreads.finished, hnotFinished, Bool.false_or, decide_eq_true_iff] at hfinished
    show s.read + bytes.length = log.length
    rw [hlength, hfills.2 hfinished]
    rfl
  case full =>
    intro hor
    show bytes.length = input.storage.size / 2
    rw [hreads.size]
    rcases hor with hmore | hwrap
    · have hmore : input.finishedReadingInput = false := hmore
      rw [hreads.finished, hnotFinished, Bool.false_or, decide_eq_false_iff_not] at hmore
      omega
    · have hwrap : input.posLastReadChar = input.storage.size := hwrap
      have hend' : input.endPlace = 0 := if_pos hwrap
      rw [hend, hendPlace] at hend'
      unfold RingPlaces.after at hend'
      split at hend' <;> omega
  case safe =>
    intro hsafe'
    have hsafe' : input.ReadIsSafe := hsafe'
    obtain ⟨-, hcases⟩ := hsafe
    obtain ⟨-, hcases'⟩ := hsafe'
    rw [hreads.lastReadFirstHalf, hreads.consumedPos, hreads.size] at hcases'
    cases hfirst : s.input.lastReadFirstHalf <;> simp [hfirst] at hcases hcases' <;> omega

/-- At the end of the file, nothing more is read. -/
theorem Window.endOfFile (h : s.Window log fill) (hrest : s.reader.rest = []) :
    Window log fill { s with input := { s.input with finishedReadingInput := true } } := by
  have hread : s.read = log.length := by
    have hdrop := h.rest
    rw [hrest, eq_comm, List.drop_eq_nil_iff] at hdrop
    have := h.read_le
    omega
  refine ⟨h.even, h.fill_pos, h.fill_le, h.rest, h.read_le, h.fills, h.consumed_le,
    h.position_le, h.window_lt, h.posLastReadChar_le, h.endPlace, h.pos, h.holds,
    fun _ => hread, fun hor => ?_, fun hsafe => absurd rfl hsafe.1⟩
  rcases hor with hfalse | hwrap
  · cases hfalse
  · exact h.full (Or.inr hwrap)

theorem Window.setPos (h : s.Window log fill) {position : Nat} (hconsumed : s.consumed ≤ position)
    (hposition : position ≤ s.read) :
    Window log fill
      { s with input := s.input.setPos (s.placeOf position), position := position } :=
  ⟨h.even, h.fill_pos, h.fill_le, h.rest, h.read_le, h.fills, hconsumed, hposition, h.window_lt,
    h.posLastReadChar_le, h.endPlace, rfl, h.holds, h.finished, h.full, h.safe⟩

/-- The next character moves the position on. -/
theorem Window.next (h : s.Window log fill) (hlt : s.position < s.read) :
    Window log fill { s with
      input := s.input.setPos (RingPlaces.next s.input.storage.size s.input.storage.pos)
      position := s.position + 1 } := by
  have hnext : RingPlaces.next s.input.storage.size s.input.storage.pos =
      s.placeOf (s.position + 1) := by
    have hwindow := h.window_lt
    have hconsumed := h.consumed_le
    have heven := h.even
    have hfill := h.fill_le
    have hback : s.read - s.position = s.read - (s.position + 1) + 1 := by omega
    unfold placeOf
    rw [h.pos, placeOf, hback]
    exact RingPlaces.next_before h.endPlace_lt (by omega)
  rw [hnext]
  exact h.setPos (Nat.le_succ_of_le h.consumed_le) hlt

/-- Where the last byte before a position or the one behind it lies tells
whether the half that is read next is consumed. -/
theorem Window.consume (h : s.Window log fill) {position back : Nat}
    (hconsumed : s.consumed < position) (hposition : position ≤ s.position)
    (hback : back = s.read - position ∨ back = s.read - position + 1) :
    Window log fill { s with
      input := s.input.setConsumedPos (s.input.place back)
      consumed := position } := by
  have hwindow := h.window_lt
  have hle := h.fill_le
  have heven := h.even
  have hread := h.position_le
  refine ⟨h.even, h.fill_pos, h.fill_le, h.rest, h.read_le, h.fills, hposition, h.position_le,
    ?_, h.posLastReadChar_le, h.endPlace, h.pos,
    fun i hi => h.holds i (Nat.le_trans (Nat.le_of_lt hconsumed) hi), h.finished, h.full,
    fun hsafe => ?_⟩
  · show s.read < position + s.input.storage.size / 2 + fill
    omega
  · show s.read < position + s.input.storage.size / 2
    obtain ⟨hmore, hcases⟩ := hsafe
    have hmore : s.input.finishedReadingInput = false := Bool.eq_false_iff.2 hmore
    have hfill := h.full (Or.inl hmore)
    have hcases : ¬ s.input.lastReadFirstHalf = true ∧
          s.input.place back > s.input.storage.size / 2 ∨
        s.input.lastReadFirstHalf = true ∧ s.input.place back < s.input.storage.size / 2 ∧
          s.input.place back > 0 := hcases
    have hplace : s.input.place back = RingPlaces.before s.input.storage.size
        s.input.readOffset back := by
      rw [ParserInputBuffer.place, h.endPlace_eq hfill]
    unfold RingPlaces.before at hplace
    rcases s.input.readOffset_or with ⟨hfirst, hoffset⟩ | ⟨hfirst, hoffset⟩ <;>
      simp only [hfirst, hoffset, true_and, false_and, not_true, not_false_eq_true,
        Bool.false_eq_true, false_or, or_false] at hcases hplace <;>
      split at hplace <;> omega

/-- Out of bounds, everything that is read is behind the position. -/
theorem Window.outOfBounds (h : s.Window log fill)
    (hout : s.input.getNextCharacter = (.error .bufferOutOfBounds, s.input)) :
    s.position = s.read ∧ fill = s.input.storage.size / 2 ∧
      s.input.storage.pos = s.input.readOffset := by
  have hpos : s.input.storage.pos = s.input.readOffset := by
    rcases s.input.getNextCharacter_cases with ⟨-, hget⟩ | ⟨-, hpos, -⟩ | ⟨-, -, hget⟩
    · rw [hget] at hout
      cases hout
    · exact hpos
    · rw [hget] at hout
      cases hout
  have hposition : s.position = s.read := by
    rcases Nat.lt_or_eq_of_le h.position_le with hlt | heq
    · exact absurd (h.pos.symm.trans hpos) (h.placeOf_ne_readOffset h.consumed_le hlt)
    · exact heq
  refine ⟨hposition, ?_, hpos⟩
  have hend := h.endPlace
  have hlt := h.endPlace_lt
  have hle := h.fill_le
  have heven := h.even
  rw [← hpos, h.pos, hposition, placeOf, Nat.sub_self, ParserInputBuffer.place,
    RingPlaces.before_zero] at hend
  unfold RingPlaces.before at hend
  have := h.fill_pos
  split at hend <;> omega

/-- The bytes of the window go to the old half of the new storage. -/
theorem Window.grow (h : s.Window log fill)
    (hout : s.input.getNextCharacter = (.error .bufferOutOfBounds, s.input))
    {input : ParserInputBuffer} (hgrows : s.input.GrowsTo input) :
    Window log s.input.storage.size { s with input := input } := by
  obtain ⟨hposition, hfill, -⟩ := h.outOfBounds hout
  have heven := h.even
  have hpos := h.size_pos
  have hwindow := h.window_lt
  have hendPlace := h.endPlace_eq hfill
  have hsize := hgrows.size
  have hlast := hgrows.posLastReadChar
  have hend : input.endPlace = s.input.storage.size := by
    unfold ParserInputBuffer.endPlace
    rw [hlast, hsize, if_neg (by omega)]
  have hoffset : input.readOffset = s.input.storage.size := by
    rcases input.readOffset_or with ⟨hfirst, -⟩ | ⟨-, hoffset⟩
    · rw [hgrows.lastReadFirstHalf] at hfirst
      cases hfirst
    · omega
  have hplace : ∀ back, back ≤ s.input.storage.size →
      input.place back = s.input.storage.size - back := by
    intro back hback
    unfold ParserInputBuffer.place RingPlaces.before
    rw [hend, if_pos hback]
  constructor
  case even => show input.storage.size = 2 * (input.storage.size / 2); omega
  case fill_pos => exact hpos
  case fill_le => show _ ≤ input.storage.size / 2; omega
  case rest => exact h.rest
  case read_le => exact h.read_le
  case fills => exact h.fills
  case consumed_le => exact h.consumed_le
  case position_le => exact h.position_le
  case window_lt => show s.read < s.consumed + input.storage.size / 2 + _; omega
  case posLastReadChar_le => show input.posLastReadChar ≤ input.storage.size; omega
  case endPlace =>
    show input.readOffset = RingPlaces.before input.storage.size input.endPlace
      (input.storage.size / 2 + s.input.storage.size)
    rw [hoffset, hend, hsize]
    unfold RingPlaces.before
    split <;> omega
  case pos =>
    show input.storage.pos = input.place (s.read - s.position)
    rw [hplace _ (by omega), hgrows.pos]
    omega
  case holds =>
    intro i hi hlt
    have hi : s.consumed ≤ i := hi
    have hlt : i < s.read := hlt
    show log[i]? = some (input.storage.getValue (input.place (s.read - i)))
    have hold : s.placeOf i =
        if s.input.readOffset + (s.input.storage.size - (s.read - i)) < s.input.storage.size then
          s.input.readOffset + (s.input.storage.size - (s.read - i))
        else s.input.readOffset + (s.input.storage.size - (s.read - i)) -
          s.input.storage.size := by
      have hoffset := s.input.readOffset_or
      unfold placeOf ParserInputBuffer.place RingPlaces.before
      rw [hendPlace]
      split <;> split <;> omega
    rw [hplace _ (by omega), hgrows.getValue _ (by omega), ← hold, h.holds i hi hlt]
  case finished =>
    intro hfinished
    exact h.finished (hgrows.finished.symm.trans hfinished)
  case full => intro _; show s.input.storage.size = input.storage.size / 2; omega
  case safe => intro _; show s.read < s.consumed + input.storage.size / 2; omega

/-! ## Runs -/

/-- A reset parser has read nothing. -/
theorem window_start (input : ParserInputBuffer) {reader : Reader} (hfills : reader.Fills) :
    Window reader.rest (cStaticByteBuffSize / 2) (start input reader) := by
  have hsize : (start input reader).input.storage.size = cStaticByteBuffSize := rfl
  have hstatic : cStaticByteBuffSize = 48000 := rfl
  have hend : (start input reader).input.endPlace = 0 := by
    unfold ParserInputBuffer.endPlace
    rw [hsize, hstatic]
    exact if_neg (show ¬ (0 : Nat) = 48000 by decide)
  constructor
  case even => omega
  case fill_pos => omega
  case fill_le => omega
  case rest => rfl
  case read_le => exact Nat.zero_le _
  case fills => exact hfills
  case consumed_le => exact Nat.le_refl _
  case position_le => exact Nat.le_refl _
  case window_lt => show 0 < 0 + (start input reader).input.storage.size / 2 + _; omega
  case posLastReadChar_le => exact Nat.zero_le _
  case endPlace =>
    show 0 = _
    rw [hend, hsize, hstatic]
    decide
  case pos =>
    show 0 = _
    unfold placeOf ParserInputBuffer.place
    rw [hend]
    rfl
  case holds => exact fun i _ hlt => absurd hlt (Nat.not_lt_zero _)
  case finished => intro hfinished; cases hfinished
  case full => exact fun _ => rfl
  case safe => intro _; show 0 < 0 + (start input reader).input.storage.size / 2; omega

/-- What a read that is not safe, or a read at the end of the file, leaves as it
is. -/
theorem Window.readIfSafe (h : s.Window log fill) (hfits : s.Fits .readIfSafe)
    (hstep : s.step .readIfSafe = some s') : ∃ fill', Window log fill' s' := by
  unfold Fits delivered at hfits
  unfold step delivered at hstep
  cases hstep
  cases hread : s.input.readIfSafe s.reader with
  | mk err result =>
    obtain ⟨input, reader⟩ := result
    rw [hread] at hfits
    unfold ParserInputBuffer.readIfSafe at hread
    split at hread
    · rename_i hsafe
      rcases ParserInputBuffer.read_cases hread with
        ⟨-, rfl, rfl, hrest⟩ | ⟨bytes, -, hreads, hrest, hle, hpos, hfills⟩
      · refine ⟨fill, ?_⟩
        dsimp only
        rw [Nat.sub_self, Nat.add_zero]
        exact h.endOfFile hrest
      · have hcount : s.reader.rest.length - reader.rest.length = bytes.length := by
          rw [hrest, List.length_append, Nat.add_sub_cancel]
        refine ⟨bytes.length, ?_⟩
        dsimp only at hfits ⊢
        rw [hcount] at hfits ⊢
        have hhalf : 0 < s.input.storage.size / 2 := by
          have := h.fill_pos
          have := h.fill_le
          omega
        exact h.read hsafe hreads hrest (hpos hhalf) hle (hfills h.fills) hfits
    · cases hread
      refine ⟨fill, ?_⟩
      dsimp only
      rw [Nat.sub_self, Nat.add_zero]
      exact h

theorem Window.step (h : s.Window log fill) {op : InputOperation} (hfits : s.Fits op)
    (hstep : s.step op = some s') : ∃ fill', Window log fill' s' := by
  cases op with
  | readIfSafe => exact h.readIfSafe hfits hstep
  | getNextCharacter =>
    unfold Progress.step at hstep
    cases hnext : s.input.getNextCharacter with
    | mk result input =>
      rw [hnext] at hstep
      cases result with
      | error err =>
        cases hstep
        refine ⟨fill, ?_⟩
        rcases s.input.getNextCharacter_cases with ⟨-, hget⟩ | ⟨-, -, hget⟩ | ⟨-, -, hget⟩ <;>
          rw [hnext] at hget <;> cases hget
        exact h
      | ok nextChar =>
        cases hstep
        refine ⟨fill, ?_⟩
        rcases h.getNextCharacter hnext with ⟨hend, -, rfl⟩ | ⟨hend, hlt, -, rfl⟩
        · rw [if_pos hend]
          exact ⟨h.even, h.fill_pos, h.fill_le, h.rest, h.read_le, h.fills, h.consumed_le,
            h.position_le, h.window_lt, h.posLastReadChar_le, h.endPlace, h.pos, h.holds,
            h.finished, h.full, h.safe⟩
        · rw [if_neg hend]
          exact h.next hlt
  | setLogFullyConsumed logFullyConsumed =>
    cases hstep
    exact ⟨fill, h.even, h.fill_pos, h.fill_le, h.rest, h.read_le, h.fills, h.consumed_le,
      h.position_le, h.window_lt, h.posLastReadChar_le, h.endPlace, h.pos, h.holds, h.finished,
      h.full, h.safe⟩
  | setPos position =>
    simp only [Progress.step] at hstep
    split at hstep
    · rename_i hpos
      cases hstep
      exact ⟨fill, h.setPos hpos.1 (Nat.le_trans hpos.2 h.position_le)⟩
    · cases hstep
  | setConsumedPos position atLast =>
    simp only [Progress.step] at hstep
    split at hstep
    · rename_i hpos
      cases hstep
      refine ⟨fill, h.consume hpos.1 hpos.2 ?_⟩
      have := h.position_le
      split <;> omega
    · cases hstep
  | increaseCapacity =>
    simp only [Progress.step] at hstep
    split at hstep
    · rename_i input hout
      cases hstep
      have hinput : input = s.input := by
        rcases s.input.getNextCharacter_cases with ⟨-, hget⟩ | ⟨-, -, hget⟩ | ⟨-, -, hget⟩ <;>
          rw [hout] at hget <;> cases hget
        rfl
      rw [hinput] at hout
      exact ⟨_, h.grow hout (s.input.growsTo_increaseCapacity h.even hfits)⟩
    · cases hstep

theorem Window.run (h : s.Window log fill) {ops : List InputOperation} (hfits : s.RunFits ops)
    (hrun : s.run ops = some s') : ∃ fill', Window log fill' s' := by
  induction ops generalizing s fill with
  | nil =>
    cases hrun
    exact ⟨fill, h⟩
  | cons op ops ih =>
    obtain ⟨s₁, hstep, hrest⟩ := Option.bind_eq_some_iff.1 hrun
    obtain ⟨fill₁, h₁⟩ := h.step hfits.1 hstep
    exact ih h₁ (hfits.2 s₁ hstep) hrest

/-- The unconsumed bytes lie in the storage, a read overwrites none of them, and
the input ends where the log does. -/
structure KeepsUnconsumed (log : List UInt8) (s : Progress) : Prop where
  holds : ∀ i, s.consumed ≤ i → i < s.read →
    log[i]? = some (s.input.storage.getValue (s.placeOf i))
  kept : ∀ i, s.consumed ≤ i → i < s.read → ¬ s.input.Overwrites (s.placeOf i)
  atEnd : s.input.AtEnd → s.position = log.length

theorem Window.keepsUnconsumed (h : s.Window log fill) : s.KeepsUnconsumed log where
  holds := h.holds
  kept := by
    intro i hi hlt hover
    have hmore : s.input.finishedReadingInput = false := Bool.eq_false_iff.2 hover.1.1
    exact h.placeOf_notMem (h.full (Or.inl hmore)) (h.safe hover.1) hi hlt hover.2
  atEnd := by
    intro hend
    rcases h.getNextCharacter (if_pos hend) with ⟨-, hposition, -⟩ | ⟨hend', -⟩
    · exact hposition
    · exact absurd hend hend'

/-- The character that an operation returns is the next one of the log. -/
theorem Window.emitted (h : s.Window log fill) {op : InputOperation}
    (hstep : s.step op = some s') (hrewinds : ¬ op.Rewinds) :
    s.emitted op = (log.drop s.position).take (s.emitted op).length ∧
      s'.position = s.position + (s.emitted op).length := by
  cases op with
  | setPos position => exact absurd trivial hrewinds
  | getNextCharacter =>
    simp only [Progress.step] at hstep
    unfold Progress.emitted
    cases hnext : s.input.getNextCharacter with
    | mk result input =>
      rw [hnext] at hstep
      cases result with
      | error err =>
        cases hstep
        exact ⟨rfl, rfl⟩
      | ok nextChar =>
        cases hstep
        dsimp only
        rcases h.getNextCharacter hnext with ⟨hend, -, -⟩ | ⟨hend, -, hbyte, -⟩
        · rw [if_pos hend, if_pos hend]
          exact ⟨rfl, rfl⟩
        · rw [if_neg hend, if_neg hend]
          refine ⟨?_, rfl⟩
          rw [List.length_singleton, List.take_one, List.head?_drop, hbyte]
          rfl
  | setConsumedPos position atLast =>
    simp only [Progress.step] at hstep
    split at hstep
    · cases hstep
      exact ⟨rfl, rfl⟩
    · cases hstep
  | increaseCapacity =>
    simp only [Progress.step] at hstep
    split at hstep
    · cases hstep
      exact ⟨rfl, rfl⟩
    · cases hstep
  | readIfSafe =>
    cases hstep
    exact ⟨rfl, rfl⟩
  | setLogFullyConsumed logFullyConsumed =>
    cases hstep
    exact ⟨rfl, rfl⟩

/-- The characters that the operations return are the next ones of the log. -/
theorem Window.returned (h : s.Window log fill) {ops : List InputOperation}
    (hfits : s.RunFits ops) (hrun : s.run ops = some s') (hrewinds : ∀ op ∈ ops, ¬ op.Rewinds) :
    s.returned ops = (log.drop s.position).take (s.returned ops).length ∧
      s'.position = s.position + (s.returned ops).length := by
  induction ops generalizing s fill with
  | nil =>
    cases hrun
    exact ⟨rfl, rfl⟩
  | cons op ops ih =>
    obtain ⟨s₁, hstep, hrest⟩ := Option.bind_eq_some_iff.1 hrun
    obtain ⟨fill₁, h₁⟩ := h.step hfits.1 hstep
    obtain ⟨hbytes, hposition⟩ := ih h₁ (hfits.2 s₁ hstep) hrest
      fun op hop => hrewinds op (List.mem_cons_of_mem _ hop)
    obtain ⟨hemitted, hnext⟩ := h.emitted hstep (hrewinds op List.mem_cons_self)
    unfold Progress.returned
    rw [hstep, Option.map_some, Option.getD_some, List.length_append]
    refine ⟨?_, by omega⟩
    rw [List.take_add, List.drop_drop, ← hnext, ← hemitted, ← hbytes]

/-- The unconsumed bytes are kept in every state of a run whose sums do not wrap,
and the characters come in the order of the log. -/
theorem run_keepsUnconsumed (input : ParserInputBuffer) {reader : Reader} (hfills : reader.Fills)
    {ops : List InputOperation} (hfits : (start input reader).RunFits ops)
    (hrun : (start input reader).run ops = some s) :
    s.KeepsUnconsumed reader.rest ∧
      ∀ ops' s', s.RunFits ops' → s.run ops' = some s' → (∀ op ∈ ops', ¬ op.Rewinds) →
        s.returned ops' = (reader.rest.drop s.position).take (s.returned ops').length ∧
          s'.position = s.position + (s.returned ops').length := by
  obtain ⟨fill, h⟩ := (window_start input hfills).run hfits hrun
  exact ⟨h.keepsUnconsumed, fun _ _ hfits' hrun' hrewinds => h.returned hfits' hrun' hrewinds⟩

theorem run_keepsUnconsumed_line :
    ∃ s, (start .new (.ofBytes [104, 105, 10])).run
        [.readIfSafe, .getNextCharacter, .getNextCharacter] = some s ∧
      s.KeepsUnconsumed [104, 105, 10] := by
  refine ⟨_, rfl, ?_⟩
  have hfits : (start .new (.ofBytes [104, 105, 10])).RunFits
      [.readIfSafe, .getNextCharacter, .getNextCharacter] :=
    ⟨by decide, fun _ _ => ⟨trivial, fun _ _ => ⟨trivial, fun _ _ => trivial⟩⟩⟩
  exact (run_keepsUnconsumed .new (Reader.fills_ofBytes [104, 105, 10]) hfits rfl).1

/-! ### A size that wraps -/

theorem run_append (ops ops' : List InputOperation) :
    s.run (ops ++ ops') = (s.run ops).bind (·.run ops') := by
  induction ops generalizing s with
  | nil => rfl
  | cons op ops ih =>
    show (s.step op).bind _ = ((s.step op).bind _).bind _
    rw [Option.bind_assoc]
    congr 1
    funext s
    exact ih

/-- The parser may read on to the end of the window. -/
theorem Window.exists_drain (h : s.Window log fill) :
    ∃ ops, s.run ops = some
      { s with input := s.input.setPos (s.placeOf s.read), position := s.read } := by
  generalize hleft : s.read - s.position = left
  have hread := h.position_le
  induction left generalizing s with
  | zero =>
    have hposition : s.position = s.read := by omega
    have hpos : s.input.setPos (s.placeOf s.read) = s.input := by
      rw [← hposition, ← h.pos]
      rfl
    refine ⟨[], ?_⟩
    rw [hpos]
    exact congrArg (fun position => some { s with position := position }) hposition
  | succ left ih =>
    have hlt : s.position < s.read := by omega
    have hpos := h.placeOf_ne_readOffset h.consumed_le hlt
    have hend := h.placeOf_ne_posLastReadChar h.consumed_le hlt
    rw [← h.pos] at hpos hend
    rcases s.input.getNextCharacter_cases with ⟨hend', -⟩ | ⟨-, hpos', -⟩ | ⟨hend', -, hget⟩
    · exact absurd hend'.2 hend
    · exact absurd hpos' hpos
    · obtain ⟨ops, hrun⟩ := ih (h.next hlt) (by show s.read - (s.position + 1) = left; omega) hlt
      refine ⟨.getNextCharacter :: ops, ?_⟩
      have hstep : s.step .getNextCharacter = some { s with
          input := s.input.setPos (RingPlaces.next s.input.storage.size s.input.storage.pos)
          position := s.position + 1 } := by
        simp only [Progress.step, hget, if_neg hend']
      show (s.step _).bind _ = _
      rw [hstep]
      exact hrun

/-- Behind a full half, the buffer is out of bounds. -/
theorem Window.getNextCharacter_end (h : s.Window log fill)
    (hmore : s.input.finishedReadingInput = false) (hposition : s.position = s.read) :
    s.input.getNextCharacter = (.error .bufferOutOfBounds, s.input) := by
  have hpos : s.input.storage.pos = s.input.readOffset := by
    rw [h.pos, hposition, placeOf, Nat.sub_self, ParserInputBuffer.place, RingPlaces.before_zero]
    exact h.endPlace_eq (h.full (Or.inl hmore))
  rcases s.input.getNextCharacter_cases with ⟨hend, -⟩ | ⟨-, -, hget⟩ | ⟨-, hne, -⟩
  · rw [hend.1] at hmore
    cases hmore
  · exact hget
  · exact absurd hpos hne

/-- A read that is safe fills a half, as long as the log does. -/
theorem Window.exists_read (h : s.Window log fill) (hsafe : s.input.ReadIsSafe)
    (hrest : s.read + s.input.storage.size / 2 ≤ log.length)
    (hfits : s.input.posLastReadChar + s.input.storage.size / 2 < 2 ^ 32) :
    ∃ input reader, s.step .readIfSafe = some
        { s with input := input, reader := reader, read := s.read + s.input.storage.size / 2 } ∧
      Window log (s.input.storage.size / 2)
        { s with input := input, reader := reader, read := s.read + s.input.storage.size / 2 } ∧
      input.storage.size = s.input.storage.size ∧
      input.lastReadFirstHalf = (! s.input.lastReadFirstHalf) ∧
      input.finishedReadingInput = false ∧ input.consumedPos = s.input.consumedPos := by
  have hhalf : 0 < s.input.storage.size / 2 := by
    have := h.fill_pos
    have := h.fill_le
    omega
  have hlength : s.reader.rest.length = log.length - s.read := by
    rw [h.rest, List.length_drop]
  cases hread : s.input.read s.reader with
  | mk err result =>
    obtain ⟨input, reader⟩ := result
    rcases ParserInputBuffer.read_cases hread with
      ⟨-, -, -, hnil⟩ | ⟨bytes, -, hreads, hbytes, hle, hpos, hfills⟩
    · rw [hnil, List.length_nil] at hlength
      omega
    · have hfull : bytes.length = s.input.storage.size / 2 := by
        rw [hbytes, List.length_append] at hlength
        by_contra hne
        rw [(hfills h.fills).2 (by omega), List.length_nil] at hlength
        omega
      have hwindow := h.read hsafe hreads hbytes (hpos hhalf) hle (hfills h.fills) (by omega)
      have hdelivered : s.delivered = bytes.length := by
        unfold delivered ParserInputBuffer.readIfSafe
        rw [if_pos hsafe, hread, hbytes, List.length_append, Nat.add_sub_cancel]
      have hfinished : input.finishedReadingInput = false := by
        rw [hreads.finished, hfull]
        simpa using hsafe.1
      rw [hfull] at hwindow hdelivered
      refine ⟨input, reader, ?_, hwindow, hreads.size, hreads.lastReadFirstHalf, hfinished,
        hreads.consumedPos⟩
      simp only [Progress.step, hdelivered, ParserInputBuffer.readIfSafe, if_pos hsafe, hread]

/-- Nothing is consumed, and the buffer is out of bounds behind `count`
bytes. -/
structure Stalled (log : List UInt8) (size : Nat) (first : Bool) (count : Nat) (s : Progress) :
    Prop where
  window : ∃ fill, s.Window log fill
  size : s.input.storage.size = size
  read : s.read = count
  position : s.position = count
  consumed : s.consumed = 0
  lastReadFirstHalf : s.input.lastReadFirstHalf = first
  notFinished : s.input.finishedReadingInput = false
  consumedPos : s.input.consumedPos = 47999

/-- The next half is read, and all its characters. -/
theorem Stalled.fillHalf {size count : Nat} {first : Bool} (h : s.Stalled log size first count)
    (hsafe : s.input.ReadIsSafe) (hrest : count + size / 2 ≤ log.length)
    (hfits : s.input.posLastReadChar + size / 2 < 2 ^ 32) :
    ∃ ops s', s.run ops = some s' ∧ s'.Stalled log size (! first) (count + size / 2) := by
  obtain ⟨fill, hwindow⟩ := h.window
  rw [← h.size, ← h.read] at hrest
  rw [← h.size] at hfits
  obtain ⟨input, reader, hstep, hread, hsize, hfirst, hmore, hconsumedPos⟩ :=
    hwindow.exists_read hsafe hrest hfits
  obtain ⟨ops, hrun⟩ := hread.exists_drain
  have hdrained := hread.setPos (Nat.le_trans hread.consumed_le hread.position_le) (Nat.le_refl _)
  rw [← h.size, ← h.read, ← h.lastReadFirstHalf]
  refine ⟨.readIfSafe :: ops, _, ?_, ⟨_, hdrained⟩, hsize, rfl, rfl, h.consumed, hfirst, hmore,
    hconsumedPos.trans h.consumedPos⟩
  show (s.step _).bind _ = _
  rw [hstep]
  exact hrun

/-- The storage grows. -/
theorem Stalled.grow {size count : Nat} {first : Bool} (h : s.Stalled log size first count)
    (hfits : size * 2 < 2 ^ 32) :
    ∃ ops s', s.run ops = some s' ∧ s'.Stalled log (2 * size) true count ∧
      s'.input.posLastReadChar = size := by
  obtain ⟨fill, hwindow⟩ := h.window
  have hout := hwindow.getNextCharacter_end h.notFinished (h.position.trans h.read.symm)
  have hgrows := s.input.growsTo_increaseCapacity hwindow.even (by rw [h.size]; exact hfits)
  have hgrown := hwindow.grow hout hgrows
  refine ⟨[.increaseCapacity], { s with input := s.input.increaseCapacity.2.2 }, ?_,
    ⟨⟨_, hgrown⟩, ?_, h.read, h.position, h.consumed, rfl, h.notFinished, h.consumedPos⟩, ?_⟩
  · show (s.step _).bind _ = _
    simp only [Progress.step, hout, Option.bind_some]
    rfl
  · rw [← h.size]
    exact hgrows.size
  · rw [← h.size]
    exact hgrows.posLastReadChar

/-- After the first growth, no read makes the first half safe to read, so the
storage grows with every half of it that is read. -/
theorem exists_stalled (input : ParserInputBuffer) {reader : Reader} (hfills : reader.Fills)
    (hlog : 3145704000 ≤ reader.rest.length) {growths : Nat} (hgrowths : growths ≤ 15) :
    ∃ ops s, (start input reader).run ops = some s ∧
      s.Stalled reader.rest (96000 * 2 ^ growths) true (48000 * 2 ^ growths - 24000) ∧
      s.input.posLastReadChar = 48000 * 2 ^ growths := by
  have hpow : 2 ^ growths ≤ 2 ^ 15 := Nat.pow_le_pow_right (by decide) hgrowths
  induction growths with
  | zero =>
    have hstart : (start input reader).Stalled reader.rest 48000 false 0 :=
      ⟨⟨_, window_start input hfills⟩, rfl, rfl, rfl, rfl, rfl, rfl, rfl⟩
    obtain ⟨ops, s, hrun, hstalled⟩ := hstart.fillHalf
      ⟨Bool.false_ne_true, Or.inl ⟨Bool.false_ne_true, by show 47999 > 48000 / 2; decide⟩⟩
      (by omega) (by show 0 + 48000 / 2 < 2 ^ 32; decide)
    obtain ⟨ops', s', hrun', hstalled', hlast⟩ := hstalled.grow (by decide)
    refine ⟨ops ++ ops', s', ?_, hstalled', hlast⟩
    rw [run_append, hrun, Option.bind_some, hrun']
  | succ growths ih =>
    have hsucc : 2 ^ (growths + 1) = 2 * 2 ^ growths := by rw [Nat.pow_succ, Nat.mul_comm]
    rw [hsucc] at hpow ⊢
    obtain ⟨ops, s, hrun, hstalled, hlast⟩ := ih (by omega) (by omega)
    have hsafe : s.input.ReadIsSafe := by
      refine ⟨by rw [hstalled.notFinished]; exact Bool.false_ne_true,
        Or.inr ⟨hstalled.lastReadFirstHalf, ?_⟩⟩
      rw [hstalled.consumedPos, hstalled.size]
      have := Nat.one_le_two_pow (n := growths)
      omega
    obtain ⟨ops₁, s₁, hrun₁, hstalled₁⟩ := hstalled.fillHalf hsafe (by omega) (by omega)
    obtain ⟨ops₂, s₂, hrun₂, hstalled₂, hlast₂⟩ := hstalled₁.grow (by omega)
    refine ⟨ops ++ (ops₁ ++ ops₂), s₂, ?_, ?_, by omega⟩
    · rw [run_append, hrun, Option.bind_some, run_append, hrun₁, Option.bind_some, hrun₂]
    · convert hstalled₂ using 1 <;> omega

/-- A growth whose size wraps lets the next read overwrite bytes of the window. -/
theorem Stalled.not_keepsUnconsumed {first : Bool}
    (h : s.Stalled log 3145728000 first 3145704000) :
    ∃ s', s.run [.increaseCapacity] = some s' ∧ ¬ s'.KeepsUnconsumed log := by
  obtain ⟨fill, hwindow⟩ := h.window
  have hout := hwindow.getNextCharacter_end h.notFinished (h.position.trans h.read.symm)
  have hsize : s.input.increaseCapacity.2.2.storage.size = 1996488704 := by
    show s.input.grownStorage.size = _
    rw [ParserInputBuffer.size_grownStorage, h.size]
    rfl
  have hlast : s.input.increaseCapacity.2.2.posLastReadChar = 3145728000 := by
    show subUInt32 (toUInt32 (s.input.storage.size * 2)) s.input.storage.size = _
    rw [h.size]
    rfl
  have hend : s.input.increaseCapacity.2.2.endPlace = 3145728000 := by
    unfold ParserInputBuffer.endPlace
    rw [hlast, hsize]
    rfl
  have hoffset : s.input.increaseCapacity.2.2.readOffset = 998244352 := by
    show s.input.increaseCapacity.2.2.storage.size / 2 = _
    rw [hsize]
  refine ⟨{ s with input := s.input.increaseCapacity.2.2 }, ?_, fun hkeeps => ?_⟩
  · show (s.step _).bind _ = _
    simp only [Progress.step, hout, Option.bind_some]
    rfl
  · have hplace : placeOf { s with input := s.input.increaseCapacity.2.2 } 999976000 =
        1000000000 := by
      show s.input.increaseCapacity.2.2.place (s.read - 999976000) = _
      unfold ParserInputBuffer.place
      rw [hend, hsize, h.read]
      rfl
    refine hkeeps.kept 999976000 (by rw [h.consumed]; omega) (by rw [h.read]; omega) ?_
    rw [hplace]
    refine ⟨⟨?_, Or.inr ⟨rfl, ?_, ?_⟩⟩, ?_, ?_⟩
    · show ¬ s.input.finishedReadingInput = true
      rw [h.notFinished]
      exact Bool.false_ne_true
    · show s.input.consumedPos < s.input.increaseCapacity.2.2.storage.size / 2
      rw [h.consumedPos, hsize]
      decide
    · show s.input.consumedPos > 0
      rw [h.consumedPos]
      decide
    · show s.input.increaseCapacity.2.2.readOffset ≤ _
      rw [hoffset]
      decide
    · show _ < s.input.increaseCapacity.2.2.readOffset +
        s.input.increaseCapacity.2.2.storage.size / 2
      rw [hoffset, hsize]
      decide

/-- The bytes of an event of more than three gigabytes are overwritten. -/
theorem not_run_keepsUnconsumed :
    ¬ ∀ (input : ParserInputBuffer) (reader : Reader), reader.Fills →
      ∀ ops s, (start input reader).run ops = some s → s.KeepsUnconsumed reader.rest := by
  intro hall
  have hlog : (Reader.ofBytes (List.replicate 3145704000 1)).rest.length = 3145704000 := by
    rw [Reader.rest_ofBytes, List.length_replicate]
  have hfills := Reader.fills_ofBytes (List.replicate 3145704000 1)
  generalize Reader.ofBytes (List.replicate 3145704000 1) = reader at hlog hfills
  obtain ⟨ops, s, hrun, hstalled, hlast⟩ :=
    exists_stalled .new hfills (Nat.le_of_eq hlog.symm) (Nat.le_refl 15)
  have hsafe : s.input.ReadIsSafe := by
    refine ⟨by rw [hstalled.notFinished]; exact Bool.false_ne_true,
      Or.inr ⟨hstalled.lastReadFirstHalf, ?_⟩⟩
    rw [hstalled.consumedPos, hstalled.size]
    decide
  obtain ⟨ops₁, s₁, hrun₁, hstalled₁⟩ := hstalled.fillHalf hsafe (by omega) (by omega)
  obtain ⟨s₂, hrun₂, hnot⟩ := hstalled₁.not_keepsUnconsumed
  have hwhole : (start .new reader).run (ops ++ (ops₁ ++ [.increaseCapacity])) = some s₂ := by
    rw [run_append, hrun, Option.bind_some, run_append, hrun₁, Option.bind_some, hrun₂]
  exact hnot (hall .new reader hfills _ s₂ hwhole)

end Progress

end LogSurgeon
