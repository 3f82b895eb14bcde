import LogSurgeon.Buffer
import LogSurgeon.Lib.RingPlaces

/-!
# Reading into the input buffer

The half of `ParserInputBuffer` that `ReaderParser` uses: the reads into one
half of the storage, and the growth of the storage.

* A `Reader` is the list of what its reads deliver.  A read that asks for less
  than the next chunk leaves the rest of it for later.
* Positions are `uint32_t` in the source, so sums and differences of them are
  taken modulo `2 ^ 32`.
-/

namespace LogSurgeon

/-- The difference of two `uint32_t`. -/
def subUInt32 (m n : Nat) : Nat := toUInt32 (m + (2 ^ 32 - n))

theorem subUInt32_of_le {m n : Nat} (h : n ≤ m) (hlt : m < 2 ^ 32) : subUInt32 m n = m - n := by
  unfold subUInt32 toUInt32
  omega

/-- What the reads of a reader deliver, one after the other, before the end of
the file.  A read that succeeds delivers some bytes. -/
structure Reader where
  chunks : List (List UInt8)
  ne_nil : ∀ chunk ∈ chunks, chunk ≠ []

namespace Reader

/-- The bytes that the reader has not delivered yet. -/
def rest (reader : Reader) : List UInt8 := reader.chunks.flatten

/-- Every read delivers all that it asks for, except at the end. -/
def Fills (reader : Reader) : Prop := reader.chunks.length ≤ 1

/-- The reader behind the first `count` bytes of its next chunk. -/
def dropChunk (count : Nat) (chunk : List UInt8) (chunks : List (List UInt8))
    (ne_nil : ∀ chunk ∈ chunks, chunk ≠ []) : Reader :=
  if h : chunk.drop count = [] then ⟨chunks, ne_nil⟩
  else ⟨chunk.drop count :: chunks, List.forall_mem_cons.2 ⟨h, ne_nil⟩⟩

def read (count : Nat) : Reader → Except ErrorCode (List UInt8) × Reader
  | ⟨[], ne_nil⟩ => (.error .endOfFile, ⟨[], ne_nil⟩)
  | ⟨chunk :: chunks, ne_nil⟩ =>
    (.ok (chunk.take count), dropChunk count chunk chunks (List.forall_mem_cons.1 ne_nil).2)

theorem rest_dropChunk (count : Nat) (chunk : List UInt8) (chunks : List (List UInt8))
    (ne_nil : ∀ chunk ∈ chunks, chunk ≠ []) :
    (dropChunk count chunk chunks ne_nil).rest = chunk.drop count ++ chunks.flatten := by
  unfold dropChunk rest
  split
  · rename_i h
    rw [h, List.nil_append]
  · rfl

/-- A read is at the end of the file, or it delivers the bytes that come next. -/
theorem read_cases {count : Nat} {reader reader' : Reader} {result : Except ErrorCode (List UInt8)}
    (h : reader.read count = (result, reader')) :
    (result = .error .endOfFile ∧ reader' = reader ∧ reader.rest = []) ∨
      ∃ bytes, result = .ok bytes ∧ reader.rest = bytes ++ reader'.rest ∧
        bytes.length ≤ count ∧ (0 < count → 0 < bytes.length) ∧
        (reader.Fills → reader'.Fills ∧ (bytes.length < count → reader'.rest = [])) := by
  rcases reader with ⟨chunks, ne_nil⟩
  cases chunks with
  | nil =>
    cases h
    exact Or.inl ⟨rfl, rfl, rfl⟩
  | cons chunk chunks =>
    cases h
    have hchunk : 0 < chunk.length := List.length_pos_of_ne_nil (ne_nil _ List.mem_cons_self)
    refine Or.inr ⟨chunk.take count, rfl, ?_, ?_, ?_, ?_⟩
    · rw [rest_dropChunk, ← List.append_assoc, List.take_append_drop]
      rfl
    · rw [List.length_take]
      exact Nat.min_le_left _ _
    · intro hcount
      rw [List.length_take]
      omega
    · intro hfills
      obtain rfl : chunks = [] := by
        simpa [Fills] using hfills
      refine ⟨?_, fun hshort => ?_⟩
      · unfold dropChunk Fills
        split <;> simp
      · rw [rest_dropChunk, List.flatten_nil, List.append_nil]
        apply List.drop_of_length_le
        rw [List.length_take] at hshort
        omega

/-- The reader that delivers the bytes whenever it is asked for them. -/
def ofBytes (bytes : List UInt8) : Reader :=
  if h : bytes = [] then ⟨[], by simp⟩ else ⟨[bytes], by simpa using h⟩

theorem fills_ofBytes (bytes : List UInt8) : (ofBytes bytes).Fills := by
  unfold ofBytes Fills
  split <;> simp

@[simp] theorem rest_ofBytes (bytes : List UInt8) : (ofBytes bytes).rest = bytes := by
  unfold ofBytes rest
  split
  · rename_i h
    rw [h]
    rfl
  · exact List.flatten_singleton

end Reader

namespace Buffer

/-- The bytes that the reader delivers go to the positions from `readOffset`. -/
def read (b : Buffer UInt8) (reader : Reader) (readOffset bytesToRead : Nat) :
    Except ErrorCode Nat × Buffer UInt8 × Reader :=
  match reader.read bytesToRead with
  | (.error err, reader) => (.error err, b, reader)
  | (.ok bytes, reader) =>
    (.ok bytes.length, b.copy (fun i => bytes.getD i 0) 0 bytes.length readOffset, reader)

@[simp] theorem activeSize_copy (b : Buffer UInt8) (storage : Nat → UInt8)
    (first last offset : Nat) : (b.copy storage first last offset).activeSize = b.activeSize :=
  activeSize_write b _

@[simp] theorem pos_copy (b : Buffer UInt8) (storage : Nat → UInt8) (first last offset : Nat) :
    (b.copy storage first last offset).pos = b.pos := pos_write b _

theorem getValue_copy (b : Buffer UInt8) (storage : Nat → UInt8) (first last offset i : Nat) :
    (b.copy storage first last offset).getValue i =
      if offset ≤ i ∧ i < offset + (last - first) then storage (first + (i - offset))
      else b.getValue i := by
  simp [copy, getValue]

end Buffer

namespace ParserInputBuffer

/-- The buffer behind its construction. -/
def new : ParserInputBuffer := { storage := { staticStorage := fun _ => 0 } }

/-- The last log message ends in the half that was read last. -/
def ReadIsSafe (input : ParserInputBuffer) : Prop :=
  ¬ input.finishedReadingInput ∧
    (¬ input.lastReadFirstHalf ∧ input.consumedPos > input.storage.size / 2 ∨
      input.lastReadFirstHalf ∧ input.consumedPos < input.storage.size / 2 ∧
        input.consumedPos > 0)

instance (input : ParserInputBuffer) : Decidable input.ReadIsSafe :=
  inferInstanceAs (Decidable (_ ∧ _))

/-- Where the half that is read next starts. -/
def readOffset (input : ParserInputBuffer) : Nat :=
  if input.lastReadFirstHalf then input.storage.size / 2 else 0

/-- The position of the last character read, behind a read. -/
def advanceLastRead (posLastReadChar bytesRead size : Nat) : Nat :=
  if toUInt32 (posLastReadChar + bytesRead) > size then
    toUInt32 (posLastReadChar + bytesRead) - size
  else toUInt32 (posLastReadChar + bytesRead)

def read (input : ParserInputBuffer) (reader : Reader) :
    ErrorCode × ParserInputBuffer × Reader :=
  match input.storage.read reader input.readOffset (input.storage.size / 2) with
  | (.error err, storage, reader) =>
    (err,
      { input with
        storage := storage
        finishedReadingInput := input.finishedReadingInput || err == .endOfFile },
      reader)
  | (.ok bytesRead, storage, reader) =>
    (.success,
      { input with
        storage := storage
        lastReadFirstHalf := ! input.lastReadFirstHalf
        finishedReadingInput :=
          input.finishedReadingInput || decide (bytesRead < storage.size / 2)
        posLastReadChar := advanceLastRead input.posLastReadChar bytesRead storage.size },
      reader)

def readIfSafe (input : ParserInputBuffer) (reader : Reader) :
    ErrorCode × ParserInputBuffer × Reader :=
  if input.ReadIsSafe then input.read reader else (.success, input, reader)

/-- The old storage goes to the first half of the new one, with its own halves
in the order of the log. -/
def grownStorage (input : ParserInputBuffer) : Buffer UInt8 :=
  let old := input.storage.getActiveBuffer
  let oldStorageSize := input.storage.size
  if ¬ input.lastReadFirstHalf then
    input.storage.doubleSize.copy old 0 oldStorageSize 0
  else
    (input.storage.doubleSize.copy old (oldStorageSize / 2) oldStorageSize 0).copy
      old 0 (oldStorageSize / 2) (oldStorageSize / 2)

/-- The old size, whether the halves changed places, and the buffer. -/
def increaseCapacity (input : ParserInputBuffer) : Nat × Bool × ParserInputBuffer :=
  let oldStorageSize := input.storage.size
  let newStorageSize := toUInt32 (oldStorageSize * 2)
  (oldStorageSize, input.lastReadFirstHalf,
    { input with
      storage := input.grownStorage.setPos oldStorageSize
      lastReadFirstHalf := true
      posLastReadChar := subUInt32 newStorageSize oldStorageSize })

/-! ## The next character -/

/-- The input is read to its end. -/
def AtEnd (input : ParserInputBuffer) : Prop :=
  input.finishedReadingInput ∧ input.storage.pos = input.posLastReadChar

instance (input : ParserInputBuffer) : Decidable input.AtEnd :=
  inferInstanceAs (Decidable (_ ∧ _))

theorem readOffset_or (input : ParserInputBuffer) :
    input.lastReadFirstHalf = false ∧ input.readOffset = 0 ∨
      input.lastReadFirstHalf = true ∧ input.readOffset = input.storage.size / 2 := by
  unfold readOffset
  cases input.lastReadFirstHalf with
  | false => exact Or.inl ⟨rfl, rfl⟩
  | true => exact Or.inr ⟨rfl, rfl⟩

/-- What the next character is. -/
theorem getNextCharacter_cases (input : ParserInputBuffer) :
    (input.AtEnd ∧ input.getNextCharacter =
        (.ok cCharEOF, { input with logFullyConsumed := true })) ∨
      (¬ input.AtEnd ∧ input.storage.pos = input.readOffset ∧
        input.getNextCharacter = (.error .bufferOutOfBounds, input)) ∨
      (¬ input.AtEnd ∧ input.storage.pos ≠ input.readOffset ∧
        input.getNextCharacter = (.ok (input.storage.getValue input.storage.pos),
          input.setPos (Lib.RingPlaces.next input.storage.size input.storage.pos))) := by
  have hoffset : (input.lastReadFirstHalf ∧ input.storage.pos = input.storage.size / 2 ∨
      ¬ input.lastReadFirstHalf ∧ input.storage.pos = 0) ↔
      input.storage.pos = input.readOffset := by
    unfold readOffset
    cases input.lastReadFirstHalf <;> simp
  unfold getNextCharacter
  by_cases hend : input.AtEnd
  · exact Or.inl ⟨hend, if_pos hend⟩
  · have hend' := hend
    unfold AtEnd at hend'
    rw [if_neg hend']
    by_cases hpos : input.storage.pos = input.readOffset
    · exact Or.inr (Or.inl ⟨hend, hpos, if_pos (hoffset.2 hpos)⟩)
    · refine Or.inr (Or.inr ⟨hend, hpos, ?_⟩)
      rw [if_neg fun h => hpos (hoffset.1 h)]
      unfold Lib.RingPlaces.next setPos
      have hnext : input.storage.incrementPos.size = input.storage.size := rfl
      dsimp only
      rw [Buffer.pos_incrementPos, hnext]
      split <;> rfl

/-! ## What a read and a growth do -/

theorem readOffset_le (input : ParserInputBuffer) :
    input.readOffset + input.storage.size / 2 ≤ input.storage.size := by
  unfold readOffset
  split <;> omega

/-- What a read does that is not at the end of the file. -/
structure ReadsBytes (input : ParserInputBuffer) (bytes : List UInt8)
    (input' : ParserInputBuffer) : Prop where
  size : input'.storage.size = input.storage.size
  pos : input'.storage.pos = input.storage.pos
  getValue : ∀ i, input'.storage.getValue i =
    if input.readOffset ≤ i ∧ i < input.readOffset + bytes.length then
      bytes.getD (i - input.readOffset) 0
    else input.storage.getValue i
  lastReadFirstHalf : input'.lastReadFirstHalf = ! input.lastReadFirstHalf
  finished : input'.finishedReadingInput =
    (input.finishedReadingInput || decide (bytes.length < input.storage.size / 2))
  posLastReadChar : input'.posLastReadChar =
    advanceLastRead input.posLastReadChar bytes.length input.storage.size
  consumedPos : input'.consumedPos = input.consumedPos
  logFullyConsumed : input'.logFullyConsumed = input.logFullyConsumed

theorem read_cases {input input' : ParserInputBuffer} {reader reader' : Reader} {err : ErrorCode}
    (h : input.read reader = (err, input', reader')) :
    (err = .endOfFile ∧ input' = { input with finishedReadingInput := true } ∧
        reader' = reader ∧ reader.rest = []) ∨
      ∃ bytes, err = .success ∧ input.ReadsBytes bytes input' ∧
        reader.rest = bytes ++ reader'.rest ∧ bytes.length ≤ input.storage.size / 2 ∧
        (0 < input.storage.size / 2 → 0 < bytes.length) ∧
        (reader.Fills → reader'.Fills ∧
          (bytes.length < input.storage.size / 2 → reader'.rest = [])) := by
  unfold read Buffer.read at h
  cases hread : reader.read (input.storage.size / 2) with
  | mk result reader'' =>
    rw [hread] at h
    rcases Reader.read_cases hread with ⟨rfl, rfl, hrest⟩ | ⟨bytes, rfl, hrest⟩
    · cases h
      refine Or.inl ⟨rfl, ?_, rfl, hrest⟩
      simp
    · cases h
      refine Or.inr ⟨bytes, rfl, ?_, hrest⟩
      refine ⟨Buffer.activeSize_copy _ _ _ _ _, Buffer.pos_copy _ _ _ _ _, fun i => ?_, rfl,
        ?_, ?_, rfl, rfl⟩
      · dsimp only
        rw [Buffer.getValue_copy]
        simp only [Nat.sub_zero, Nat.zero_add]
      · have hsize : (input.storage.copy (fun i => bytes.getD i 0) 0 bytes.length
            input.readOffset).size = input.storage.size := Buffer.activeSize_copy _ _ _ _ _
        dsimp only
        rw [hsize]
      · have hsize : (input.storage.copy (fun i => bytes.getD i 0) 0 bytes.length
            input.readOffset).size = input.storage.size := Buffer.activeSize_copy _ _ _ _ _
        dsimp only
        rw [hsize]

/-- What `readIfSafe` does: nothing, or a read. -/
theorem readIfSafe_cases {input input' : ParserInputBuffer} {reader reader' : Reader}
    {err : ErrorCode} (h : input.readIfSafe reader = (err, input', reader')) :
    (¬ input.ReadIsSafe ∧ err = .success ∧ input' = input ∧ reader' = reader) ∨
      input.ReadIsSafe ∧ input.read reader = (err, input', reader') := by
  unfold readIfSafe at h
  split at h
  · rename_i hsafe
    exact Or.inr ⟨hsafe, h⟩
  · rename_i hsafe
    cases h
    exact Or.inl ⟨hsafe, rfl, rfl, rfl⟩

/-- What a read leaves as it is. -/
theorem readIfSafe_keeps {input input' : ParserInputBuffer} {reader reader' : Reader}
    {err : ErrorCode} (h : input.readIfSafe reader = (err, input', reader')) :
    input'.storage.size = input.storage.size ∧ input'.storage.pos = input.storage.pos ∧
      input'.consumedPos = input.consumedPos ∧ input'.logFullyConsumed = input.logFullyConsumed ∧
      (err = .success ∨ err = .endOfFile) := by
  rcases readIfSafe_cases h with ⟨-, rfl, rfl, -⟩ | ⟨-, hread⟩
  · exact ⟨rfl, rfl, rfl, rfl, Or.inl rfl⟩
  · rcases read_cases hread with ⟨rfl, rfl, -⟩ | ⟨bytes, rfl, hreads, -⟩
    · exact ⟨rfl, rfl, rfl, rfl, Or.inr rfl⟩
    · exact ⟨hreads.size, hreads.pos, hreads.consumedPos, hreads.logFullyConsumed, Or.inl rfl⟩

/-- The bytes before the position that is written to next come to stand before
the end of the old storage. -/
theorem getValue_grownStorage (input : ParserInputBuffer) {i : Nat}
    (hi : i < input.storage.size) (heven : input.storage.size = 2 * (input.storage.size / 2)) :
    input.grownStorage.getValue i =
      input.storage.getValue
        (if input.readOffset + i < input.storage.size then input.readOffset + i
          else input.readOffset + i - input.storage.size) := by
  unfold grownStorage readOffset
  dsimp only
  by_cases hfirst : input.lastReadFirstHalf = true
  · rw [if_neg (by simp [hfirst]), if_pos hfirst, Buffer.getValue_copy, Buffer.getValue_copy]
    simp only [Nat.zero_add, Nat.zero_le, true_and, Nat.sub_zero]
    by_cases hhalf : i < input.storage.size / 2
    · rw [if_neg (by omega), if_pos (by omega), if_pos (by omega)]
      rfl
    · rw [if_pos (by omega), if_neg (by omega)]
      exact congrArg input.storage.getActiveBuffer (by omega)
  · rw [if_pos (by simp [hfirst]), if_neg hfirst, Buffer.getValue_copy,
      if_pos ⟨Nat.zero_le _, by omega⟩, if_pos (by omega)]
    rfl

@[simp] theorem size_grownStorage (input : ParserInputBuffer) :
    input.grownStorage.size = toUInt32 (2 * input.storage.size) := by
  unfold grownStorage
  dsimp only
  split <;> simp [Buffer.size, Buffer.doubleSize]

/-- What a growth does whose size does not wrap. -/
structure GrowsTo (input input' : ParserInputBuffer) : Prop where
  size : input'.storage.size = 2 * input.storage.size
  pos : input'.storage.pos = input.storage.size
  getValue : ∀ i, i < input.storage.size → input'.storage.getValue i =
    input.storage.getValue
      (if input.readOffset + i < input.storage.size then input.readOffset + i
        else input.readOffset + i - input.storage.size)
  lastReadFirstHalf : input'.lastReadFirstHalf = true
  finished : input'.finishedReadingInput = input.finishedReadingInput
  posLastReadChar : input'.posLastReadChar = input.storage.size
  consumedPos : input'.consumedPos = input.consumedPos
  logFullyConsumed : input'.logFullyConsumed = input.logFullyConsumed

theorem growsTo_increaseCapacity (input : ParserInputBuffer)
    (heven : input.storage.size = 2 * (input.storage.size / 2))
    (h : input.storage.size * 2 < 2 ^ 32) :
    input.GrowsTo input.increaseCapacity.2.2 where
  size := by
    have hsize : input.increaseCapacity.2.2.storage.size = input.grownStorage.size := rfl
    rw [hsize, size_grownStorage, toUInt32_of_lt (by omega)]
  pos := rfl
  getValue := fun _ hi => input.getValue_grownStorage hi heven
  lastReadFirstHalf := rfl
  finished := rfl
  posLastReadChar := by
    have hlast : input.increaseCapacity.2.2.posLastReadChar =
        subUInt32 (toUInt32 (input.storage.size * 2)) input.storage.size := rfl
    rw [hlast, toUInt32_of_lt h, subUInt32_of_le (by omega) h]
    omega
  consumedPos := rfl
  logFullyConsumed := rfl

end ParserInputBuffer

end LogSurgeon
