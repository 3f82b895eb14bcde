import LogSurgeon.InputWindow
import LogSurgeon.LexerPieces
import LogSurgeon.ScannerFrame

/-!
# The retries of the reader parser

`Reaches` has the states of a `ReaderParser`: those between two calls, and those
in front of a run of the loop of `parse_next_event`.  The growths that such a
run makes may be restricted by a condition.

* `growth_progress_iff`: a growth whose size does not wrap leads to a read, or
  reading has finished, exactly when reading had finished before or the consumed
  position is not 0.
* A call whose growths all meet that condition grows the buffer at most twice
  more than there are bytes left, so that its loop ends.
-/

namespace LogSurgeon

namespace LogParser

/-- Behind a growth, the reader is called or reading has finished. -/
def GrowsOntoRead (p : LogParser) : Prop :=
  p.increaseCapacity.inputBuffer.ReadIsSafe ∨
    p.increaseCapacity.inputBuffer.finishedReadingInput

/-- The size of a growth does not wrap. -/
def FitsGrown (p : LogParser) : Prop := p.inputBuffer.storage.size * 2 < 2 ^ 32

/-- Reading has finished, or an event has been consumed that does not leave the
consumed position at the start of the storage. -/
def ConsumedInside (p : LogParser) : Prop :=
  p.inputBuffer.finishedReadingInput ∨ p.inputBuffer.consumedPos ≠ 0

end LogParser

namespace ReaderParser

/-- The parse asks for more data than the buffer can hold. -/
def OutOfBounds (t : LexerTables) (fuel : Nat) (p : ReaderParser) (logParser : LogParser) : Prop :=
  p.logParser.parse t fuel = .ok (logParser, .error .bufferOutOfBounds)

/-- The parser behind the growth, and the read that follows. -/
def grown (p : ReaderParser) (logParser : LogParser) : ReaderParser :=
  (growAndRead { p with logParser := logParser }).2

/-- The states of a parser whose growths all meet the condition.  In a `looping`
state, the loop of `parse_next_event` starts again. -/
inductive Reaches (t : LexerTables) (condition : LogParser → Prop) :
    (looping : Bool) → ReaderParser → Prop where
  | new {reader : Reader} {p : ReaderParser}
      (hreset : (new t).resetAndSetReader t reader = .ok p) : Reaches t condition false p
  | reset {reader : Reader} {p p' : ReaderParser} (h : Reaches t condition false p)
      (hreset : p.resetAndSetReader t reader = .ok p') : Reaches t condition false p'
  | begin {p : ReaderParser} (h : Reaches t condition false p) :
      Reaches t condition true p.beginEvent.2
  | grow {fuel : Nat} {p : ReaderParser} {logParser : LogParser} (h : Reaches t condition true p)
      (hout : p.OutOfBounds t fuel logParser) (hcondition : condition logParser) :
      Reaches t condition true (p.grown logParser)
  | stop {fuel : Nat} {p p' : ReaderParser} {err : ErrorCode} (h : Reaches t condition true p)
      (hretry : p.retry t fuel = .ok (p', some err)) : Reaches t condition false p'

/-- The growths of the loop, one after the other. -/
inductive Grows (t : LexerTables) (fuel : Nat) (condition : LogParser → Prop) :
    Nat → ReaderParser → ReaderParser → Prop where
  | none {p : ReaderParser} : Grows t fuel condition 0 p p
  | next {count : Nat} {p p' : ReaderParser} {logParser : LogParser}
      (hout : p.OutOfBounds t fuel logParser) (hcondition : condition logParser)
      (hrest : Grows t fuel condition count (p.grown logParser) p') :
      Grows t fuel condition (count + 1) p p'

end ReaderParser

/-! ## Positions stay in the storage -/

namespace LogParser

variable {p : LogParser}

/-- The positions of the parser lie in a storage that has two halves. -/
structure Bounded (p : LogParser) : Prop extends Within p where
  even : p.inputBuffer.storage.size = 2 * (p.inputBuffer.storage.size / 2)
  size_pos : 0 < p.inputBuffer.storage.size

theorem Frame.bounded {p' : LogParser} (h : p.Frame p') (hbounded : p.Bounded) : p'.Bounded where
  toWithin := h.within
  even := by
    rw [h.size]
    exact hbounded.even
  size_pos := by
    rw [h.size]
    exact hbounded.size_pos

theorem bounded_reset {t : LexerTables} {p' : LogParser} (h : p.reset t = .ok p') :
    p'.Bounded := by
  unfold LogParser.reset at h
  obtain ⟨lexer, hlexer, h⟩ := exists_of_bind_eq_ok h
  unfold Lexer.prependStartOfFileChar at hlexer
  obtain ⟨state, -, hlexer⟩ := exists_of_bind_eq_ok hlexer
  cases hlexer
  cases h
  have hsize : (0 : Nat) < cStaticByteBuffSize := by decide
  have heven : cStaticByteBuffSize = 2 * (cStaticByteBuffSize / 2) := by decide
  exact ⟨⟨⟨hsize, hsize, hsize, hsize, fun f hf => by cases hf⟩, by
    show cStaticByteBuffSize - 1 < cStaticByteBuffSize
    omega⟩, heven, hsize⟩

/-- A read moves no position. -/
theorem Bounded.readIntoInput (h : p.Bounded) (reader : Reader) :
    (p.readIntoInput reader).2.1.Bounded := by
  unfold LogParser.readIntoInput
  cases hread : p.inputBuffer.readIfSafe reader with
  | mk err result =>
    obtain ⟨input, reader'⟩ := result
    obtain ⟨hsize, hpos, hconsumed, -⟩ := ParserInputBuffer.readIfSafe_keeps hread
    refine ⟨⟨⟨?_, ?_, ?_, ?_, fun f hf => ?_⟩, ?_⟩, ?_, ?_⟩
    · show input.storage.pos < input.storage.size
      rw [hsize, hpos]
      exact h.scanner.pos
    · show p.lexer.startPos < input.storage.size
      rw [hsize]
      exact h.scanner.startPos
    · show p.lexer.lastMatchPos < input.storage.size
      rw [hsize]
      exact h.scanner.lastMatchPos
    · show p.lexer.matchPos < input.storage.size
      rw [hsize]
      exact h.scanner.matchPos
    · show f < input.storage.size
      rw [hsize]
      exact h.scanner.firstDelimiterPos f hf
    · show input.consumedPos < input.storage.size
      rw [hsize, hconsumed]
      exact h.consumedPos
    · show input.storage.size = 2 * (input.storage.size / 2)
      rw [hsize]
      exact h.even
    · show 0 < input.storage.size
      rw [hsize]
      exact h.size_pos

theorem flipState_le {half position : Nat} {inSecondHalf : Prop} [Decidable inSecondHalf]
    (h : ¬ inSecondHalf → position ≤ half) (hpos : position ≤ 2 * half) :
    Lexer.flipState half position inSecondHalf ≤ 2 * half := by
  unfold Lexer.flipState
  split
  · omega
  · rename_i hfirst
    have hle : toUInt32 (position + half) ≤ position + half := Nat.mod_le _ _
    have := h hfirst
    omega

/-- No position moves beyond the end of the old storage. -/
theorem Bounded.growStates (h : p.Bounded) (newStorageSize : Nat) (flipped : Bool) :
    let lexer := p.lexer.growStates p.inputBuffer.storage.size newStorageSize flipped
    lexer.startPos ≤ p.inputBuffer.storage.size ∧ lexer.lastMatchPos ≤ p.inputBuffer.storage.size ∧
      lexer.matchPos ≤ p.inputBuffer.storage.size ∧
      lexer.firstDelimiterPos = p.lexer.firstDelimiterPos := by
  have heven := h.even
  have hstart := h.scanner.startPos
  have hlast := h.scanner.lastMatchPos
  have hmatch := h.scanner.matchPos
  have hflip : let lexer := if flipped then p.lexer.flipStates p.inputBuffer.storage.size else p.lexer
      lexer.startPos ≤ p.inputBuffer.storage.size ∧
        lexer.lastMatchPos ≤ p.inputBuffer.storage.size ∧
        lexer.matchPos ≤ p.inputBuffer.storage.size ∧
        lexer.firstDelimiterPos = p.lexer.firstDelimiterPos := by
    dsimp only at hstart hlast hmatch
    cases flipped with
    | false => exact ⟨Nat.le_of_lt hstart, Nat.le_of_lt hlast, Nat.le_of_lt hmatch, rfl⟩
    | true =>
      refine ⟨?_, ?_, ?_, rfl⟩ <;> refine Nat.le_trans (flipState_le ?_ ?_) ?_ <;> omega
  unfold Lexer.growStates
  dsimp only at hflip ⊢
  generalize (if flipped then p.lexer.flipStates p.inputBuffer.storage.size else p.lexer) = lexer
    at hflip ⊢
  split
  · split
    · exact ⟨Nat.le_refl _, Nat.le_refl _, hflip.2.2.1, hflip.2.2.2⟩
    · exact hflip
  · exact ⟨Nat.le_of_lt hstart, Nat.le_of_lt hlast, Nat.le_of_lt hmatch, rfl⟩

theorem Bounded.increaseCapacity (h : p.Bounded) (hfits : p.FitsGrown) :
    p.increaseCapacity.Bounded := by
  have hgrows := p.inputBuffer.growsTo_increaseCapacity h.even hfits
  have hsize : p.increaseCapacity.inputBuffer.storage.size = 2 * p.inputBuffer.storage.size :=
    hgrows.size
  have hpos : p.increaseCapacity.inputBuffer.storage.pos = p.inputBuffer.storage.size := rfl
  have hconsumed : p.increaseCapacity.inputBuffer.consumedPos = p.inputBuffer.consumedPos := rfl
  obtain ⟨hstart, hlast, hmatch, hdelimiter⟩ :=
    h.growStates p.increaseCapacity.inputBuffer.storage.size p.inputBuffer.lastReadFirstHalf
  have hsize_pos := h.size_pos
  have hconsumedPos := h.consumedPos
  refine ⟨⟨⟨?_, ?_, ?_, ?_, fun f hf => ?_⟩, ?_⟩, ?_, ?_⟩
  · show p.increaseCapacity.inputBuffer.storage.pos <
      p.increaseCapacity.inputBuffer.storage.size
    omega
  · show _ < p.increaseCapacity.inputBuffer.storage.size
    exact Nat.lt_of_le_of_lt hstart (by omega)
  · show _ < p.increaseCapacity.inputBuffer.storage.size
    exact Nat.lt_of_le_of_lt hlast (by omega)
  · show _ < p.increaseCapacity.inputBuffer.storage.size
    exact Nat.lt_of_le_of_lt hmatch (by omega)
  · show _ < p.increaseCapacity.inputBuffer.storage.size
    have := h.scanner.firstDelimiterPos f (hdelimiter.symm.trans hf)
    dsimp only at this
    omega
  · omega
  · omega
  · omega

/-- Behind a growth, the consumed position lies in the half that counts as the
one read last. -/
theorem Bounded.growsOntoRead_iff (h : p.Bounded) (hfits : p.FitsGrown) :
    p.GrowsOntoRead ↔ p.ConsumedInside := by
  have hgrows := p.inputBuffer.growsTo_increaseCapacity h.even hfits
  have hsize : p.increaseCapacity.inputBuffer.storage.size = 2 * p.inputBuffer.storage.size :=
    hgrows.size
  have hfirst : p.increaseCapacity.inputBuffer.lastReadFirstHalf = true := rfl
  have hfinished : p.increaseCapacity.inputBuffer.finishedReadingInput =
      p.inputBuffer.finishedReadingInput := rfl
  have hconsumed : p.increaseCapacity.inputBuffer.consumedPos = p.inputBuffer.consumedPos := rfl
  have hlt := h.consumedPos
  have hhalf : 2 * p.inputBuffer.storage.size / 2 = p.inputBuffer.storage.size := by omega
  unfold GrowsOntoRead ConsumedInside ParserInputBuffer.ReadIsSafe
  rw [hsize, hfirst, hfinished, hconsumed, hhalf]
  cases p.inputBuffer.finishedReadingInput with
  | true => simp
  | false => simp [hlt, Nat.pos_iff_ne_zero]

end LogParser

namespace ReaderParser

variable {t : LexerTables} {condition : LogParser → Prop} {p p' : ReaderParser} {fuel count : Nat}
  {looping : Bool}

theorem OutOfBounds.frame {logParser : LogParser} (hout : p.OutOfBounds t fuel logParser)
    (h : p.logParser.Bounded) :
    p.logParser.Frame logParser ∧ logParser.OutOfBounds .bufferOutOfBounds := by
  obtain ⟨hframe, herr⟩ := LogParser.parse_frame h.toWithin hout
  exact ⟨hframe, herr _ rfl⟩

theorem bounded_grown {logParser : LogParser} (h : logParser.Bounded) (hfits : logParser.FitsGrown) :
    (p.grown logParser).logParser.Bounded :=
  (h.increaseCapacity hfits).readIntoInput p.reader

theorem not_isReadError_growAndRead (p : ReaderParser) : ¬ IsReadError p.growAndRead.1 := by
  have hfst : p.growAndRead.1 =
      (p.logParser.increaseCapacity.inputBuffer.readIfSafe p.reader).1 := rfl
  rw [hfst]
  cases hread : p.logParser.increaseCapacity.inputBuffer.readIfSafe p.reader with
  | mk err result =>
    obtain ⟨-, -, -, -, herr⟩ := ParserInputBuffer.readIfSafe_keeps hread
    unfold IsReadError
    tauto

theorem retry_of_outOfBounds {logParser : LogParser} (hout : p.OutOfBounds t fuel logParser) :
    p.retry t fuel = .ok (p.grown logParser, none) := by
  have hnone : (if IsReadError (growAndRead { p with logParser := logParser }).1 then
      some (growAndRead { p with logParser := logParser }).1 else none) = none :=
    if_neg (not_isReadError_growAndRead _)
  unfold OutOfBounds at hout
  unfold retry
  rw [hout]
  exact congrArg (fun err => Except.ok (p.grown logParser, err)) hnone

theorem bounded_retry {err : ErrorCode} (h : p.logParser.Bounded)
    (hretry : p.retry t fuel = .ok (p', some err)) : p'.logParser.Bounded := by
  obtain ⟨⟨logParser, result⟩, hparse, hrest⟩ := exists_of_bind_eq_ok hretry
  obtain ⟨hframe, -⟩ := LogParser.parse_frame h.toWithin hparse
  have hbounded := hframe.bounded h
  rcases result with err' | action
  · by_cases hout : err' = .bufferOutOfBounds
    · rw [hout] at hparse
      rw [retry_of_outOfBounds hparse] at hretry
      cases hretry
    · cases err' <;> first | exact absurd rfl hout | (cases hrest; exact hbounded)
  · cases hrest
    exact hbounded

/-- As long as no size wraps, all positions stay in the storage. -/
theorem Reaches.bounded (h : Reaches t condition looping p)
    (hfits : ∀ logParser, condition logParser → logParser.FitsGrown) : p.logParser.Bounded := by
  induction h with
  | new hreset =>
    obtain ⟨logParser, hlogParser, hreset⟩ := exists_of_bind_eq_ok hreset
    cases hreset
    exact LogParser.bounded_reset hlogParser
  | reset _ hreset _ =>
    obtain ⟨logParser, hlogParser, hreset⟩ := exists_of_bind_eq_ok hreset
    cases hreset
    exact LogParser.bounded_reset hlogParser
  | @begin p _ ih =>
    have hview : p.logParser.resetLogEventView.Bounded :=
      ⟨⟨ih.scanner, ih.consumedPos⟩, ih.even, ih.size_pos⟩
    exact hview.readIntoInput p.reader
  | grow _ hout hcondition ih =>
    obtain ⟨hframe, -⟩ := hout.frame ih
    exact bounded_grown (hframe.bounded ih) (hfits _ hcondition)
  | stop _ hretry ih => exact bounded_retry ih hretry

/-! ## The number of growths -/

/-- The input is read to its end, and that is where the storage is out of
bounds. -/
structure Exhausted (p : ReaderParser) : Prop where
  bounded : p.logParser.Bounded
  finished : p.logParser.inputBuffer.finishedReadingInput = true
  posLastReadChar : p.logParser.inputBuffer.posLastReadChar = p.logParser.inputBuffer.readOffset

/-- At the end of the input, no more data is asked for. -/
theorem Exhausted.not_outOfBounds (h : p.Exhausted) (logParser : LogParser) :
    ¬ p.OutOfBounds t fuel logParser := by
  intro hout
  obtain ⟨hframe, hget⟩ := hout.frame h.bounded
  have hoffset : logParser.inputBuffer.readOffset = p.logParser.inputBuffer.readOffset := by
    unfold ParserInputBuffer.readOffset
    rw [hframe.lastReadFirstHalf, hframe.size]
  have hlast : logParser.inputBuffer.posLastReadChar = logParser.inputBuffer.readOffset := by
    rw [hframe.posLastReadChar, hoffset, h.posLastReadChar]
  unfold LogParser.OutOfBounds at hget
  rcases logParser.inputBuffer.getNextCharacter_cases with
    ⟨-, hcase⟩ | ⟨hend, hpos, -⟩ | ⟨-, -, hcase⟩
  · rw [hget] at hcase
    cases hcase
  · exact hend ⟨hframe.finished.trans h.finished, hpos.trans hlast.symm⟩
  · rw [hget] at hcase
    cases hcase

/-- A growth that meets the condition exhausts the input, or some bytes are
read. -/
theorem grown_cases {logParser : LogParser} (h : logParser.Bounded) (hfits : logParser.FitsGrown)
    (hinside : logParser.ConsumedInside) :
    (p.grown logParser).Exhausted ∨
      logParser.inputBuffer.finishedReadingInput = false ∧
        (p.grown logParser).reader.rest.length < p.reader.rest.length := by
  have hbounded := bounded_grown (p := p) h hfits
  have hgrows := logParser.inputBuffer.growsTo_increaseCapacity h.even hfits
  have hhalf : 0 < logParser.increaseCapacity.inputBuffer.storage.size / 2 := by
    have hsize : logParser.increaseCapacity.inputBuffer.storage.size =
      2 * logParser.inputBuffer.storage.size := hgrows.size
    have := h.size_pos
    omega
  have hoffset : logParser.increaseCapacity.inputBuffer.posLastReadChar =
      logParser.increaseCapacity.inputBuffer.readOffset := by
    show logParser.inputBuffer.increaseCapacity.2.2.posLastReadChar =
      logParser.inputBuffer.increaseCapacity.2.2.storage.size / 2
    rw [hgrows.size, hgrows.posLastReadChar]
    omega
  have hinput : (p.grown logParser).logParser.inputBuffer =
      (logParser.increaseCapacity.inputBuffer.readIfSafe p.reader).2.1 := rfl
  have hreader : (p.grown logParser).reader =
      (logParser.increaseCapacity.inputBuffer.readIfSafe p.reader).2.2 := rfl
  rw [hreader]
  cases hread : logParser.increaseCapacity.inputBuffer.readIfSafe p.reader with
  | mk err result =>
    obtain ⟨input, reader⟩ := result
    rw [hread] at hinput
    rcases ParserInputBuffer.readIfSafe_cases hread with ⟨hnotSafe, -, rfl, -⟩ | ⟨hsafe, hread⟩
    · have hfinished : logParser.increaseCapacity.inputBuffer.finishedReadingInput = true :=
        ((h.growsOntoRead_iff hfits).2 hinside).resolve_left hnotSafe
      exact Or.inl ⟨hbounded, by rw [hinput]; exact hfinished, by rw [hinput]; exact hoffset⟩
    · rcases ParserInputBuffer.read_cases hread with
        ⟨-, rfl, -, -⟩ | ⟨bytes, -, -, hrest, -, hpos, -⟩
      · exact Or.inl ⟨hbounded, by rw [hinput], by rw [hinput]; exact hoffset⟩
      · refine Or.inr ⟨Bool.eq_false_iff.2 hsafe.1, ?_⟩
        have := hpos hhalf
        show reader.rest.length < p.reader.rest.length
        rw [hrest, List.length_append]
        omega

/-- The growths of one call. -/
theorem Grows.count_le (h : Grows t fuel condition count p p') (hbounded : p.logParser.Bounded)
    (hfits : ∀ logParser, condition logParser → logParser.FitsGrown)
    (hinside : ∀ logParser, condition logParser → logParser.ConsumedInside) :
    count ≤ if p.logParser.inputBuffer.finishedReadingInput then 1 else p.reader.rest.length + 2 := by
  induction h with
  | none => exact Nat.zero_le _
  | @next count p p' logParser hout hcondition hrest ih =>
    obtain ⟨hframe, -⟩ := hout.frame hbounded
    have hgrown := bounded_grown (p := p) (hframe.bounded hbounded) (hfits _ hcondition)
    rcases grown_cases (p := p) (hframe.bounded hbounded) (hfits _ hcondition)
      (hinside _ hcondition) with hexhausted | ⟨hmore, hlt⟩
    · have hzero : count = 0 := by
        cases hrest with
        | none => rfl
        | next hout' => exact absurd hout' (hexhausted.not_outOfBounds _)
      split <;> omega
    · have hle := ih hgrown
      rw [hframe.finished] at hmore
      rw [hmore, if_neg Bool.false_ne_true]
      split at hle <;> omega

/-- What holds of every growth of the loop may be its condition. -/
theorem Grows.restrict (h : Grows t fuel (fun _ => True) count p p')
    (hall : ∀ count p' logParser, Grows t fuel (fun _ => True) count p p' →
      p'.OutOfBounds t fuel logParser → condition logParser) :
    Grows t fuel condition count p p' := by
  induction h with
  | none => exact .none
  | next hout _ _ ih =>
    exact .next hout (hall 0 _ _ .none hout)
      (ih fun count p' logParser hgrows => hall (count + 1) p' logParser (.next hout trivial hgrows))

/-- The loop ends when its growths do, or a parse of it fails. -/
theorem retryLoop_returns {retries : Nat}
    (hcount : ∀ count p', Grows t fuel (fun _ => True) count p p' → count < retries) :
    (∃ p' err, p.retryLoop t fuel retries = .ok (p', err)) ∨
      ∃ count p' fault, Grows t fuel (fun _ => True) count p p' ∧
        p'.logParser.parse t fuel = .error fault := by
  induction retries generalizing p with
  | zero => exact absurd (hcount 0 p .none) (Nat.lt_irrefl 0)
  | succ retries ih =>
    rw [retryLoop]
    cases hparse : p.logParser.parse t fuel with
    | error fault => exact Or.inr ⟨0, p, fault, .none, hparse⟩
    | ok parsed =>
      obtain ⟨logParser, err | action⟩ := parsed
      · by_cases hout : err = .bufferOutOfBounds
        · rw [hout] at hparse
          rw [retry_of_outOfBounds hparse]
          rcases ih fun count p' hgrows =>
              Nat.lt_of_succ_lt_succ (hcount (count + 1) p' (.next hparse trivial hgrows)) with
            hok | ⟨count, p', fault, hgrows, hfault⟩
          · exact Or.inl hok
          · exact Or.inr ⟨count + 1, p', fault, .next hparse trivial hgrows, hfault⟩
        · rw [retry, hparse]
          cases err <;> first | exact absurd rfl hout | exact Or.inl ⟨_, _, rfl⟩
      · rw [retry, hparse]
        exact Or.inl ⟨_, _, rfl⟩

/-- A growth whose size does not wrap is followed by a read, or by the end of
reading, exactly when the consumed position is not 0 or reading had finished.
A call whose growths all are so makes at most two more of them than there are
bytes left, and it returns unless one of its parses fails. -/
theorem growth_progress_iff (h : Reaches t LogParser.FitsGrown true p) :
    (∀ fuel logParser, p.OutOfBounds t fuel logParser → logParser.FitsGrown →
      (logParser.GrowsOntoRead ↔ logParser.ConsumedInside)) ∧
    ∀ fuel, (∀ count p' logParser, Grows t fuel (fun _ => True) count p p' →
        p'.OutOfBounds t fuel logParser → logParser.FitsGrown ∧ logParser.ConsumedInside) →
      (∀ count p', Grows t fuel (fun _ => True) count p p' → count ≤ p.reader.rest.length + 2) ∧
      ∀ retries, p.reader.rest.length + 2 < retries →
        (∃ p' err, p.retryLoop t fuel retries = .ok (p', err)) ∨
          ∃ count p' fault, Grows t fuel (fun _ => True) count p p' ∧
            p'.logParser.parse t fuel = .error fault := by
  have hbounded := h.bounded fun _ hfits => hfits
  refine ⟨fun fuel logParser hout hfits => ?_, fun fuel hall => ?_⟩
  · obtain ⟨hframe, -⟩ := hout.frame hbounded
    exact (hframe.bounded hbounded).growsOntoRead_iff hfits
  · have hcount : ∀ count p', Grows t fuel (fun _ => True) count p p' →
        count ≤ p.reader.rest.length + 2 := by
      intro count p' hgrows
      have hle := (hgrows.restrict hall).count_le hbounded (fun _ h => h.1) fun _ h => h.2
      split at hle <;> omega
    exact ⟨hcount, fun retries hretries =>
      retryLoop_returns fun count p' hgrows => Nat.lt_of_le_of_lt (hcount count p' hgrows) hretries⟩

end ReaderParser

/-! ## A half of the storage without an event -/

open Progress in
/-- The first read fills the first half of the static storage. -/
theorem ParserInputBuffer.holds_firstRead (input : ParserInputBuffer) {log : List UInt8}
    (hlog : 24000 ≤ log.length) :
    ∃ src : Source, src.size = 24000 ∧ src.finished = false ∧
      (∀ i < 24000, log[i]? = some (src.bytes i)) ∧
      (input.reset.readIfSafe (.ofBytes log)).2.1.Holds src ∧
      (input.reset.readIfSafe (.ofBytes log)).2.1.storage.pos = 0 := by
  have hwindow := window_start input (Reader.fills_ofBytes log)
  rw [Reader.rest_ofBytes] at hwindow
  have hsize : (start input (.ofBytes log)).input.storage.size = 48000 := rfl
  have hnone : (start input (.ofBytes log)).read = 0 := rfl
  have hlast : (start input (.ofBytes log)).input.posLastReadChar = 0 := rfl
  have hfirst : (start input (.ofBytes log)).input.lastReadFirstHalf = false := rfl
  have hsafe : (start input (.ofBytes log)).input.ReadIsSafe :=
    ⟨Bool.false_ne_true, Or.inl ⟨Bool.false_ne_true, by show 47999 > 48000 / 2; decide⟩⟩
  obtain ⟨input', reader, hstep, hread, hsize', hfirst', hmore, -⟩ := hwindow.exists_read hsafe
    (by rw [hsize, hnone]; omega) (by rw [hsize, hlast]; decide)
  have hinput : (input.reset.readIfSafe (.ofBytes log)).2.1 = input' :=
    congrArg Progress.input (Option.some.inj hstep)
  rw [hinput]
  have hkeeps : input'.storage.pos = 0 ∧ input'.logFullyConsumed = false := by
    cases hcall : input.reset.readIfSafe (.ofBytes log) with
    | mk err result =>
      obtain ⟨-, hpos, -, hconsumed, -⟩ := ParserInputBuffer.readIfSafe_keeps hcall
      rw [hcall] at hinput
      rw [← hinput]
      exact ⟨hpos, hconsumed⟩
  have hoffset : input'.readOffset = 24000 := by
    unfold ParserInputBuffer.readOffset
    rw [hfirst', hsize', hsize, hfirst]
    rfl
  have hend : input'.endPlace = 24000 :=
    (hread.endPlace_eq (by show _ = input'.storage.size / 2; rw [hsize'])).trans hoffset
  have hposLast : input'.posLastReadChar = 24000 := by
    rcases input'.endPlace_or with ⟨hor, -⟩ | ⟨hor, -⟩ <;> omega
  refine ⟨⟨input'.storage.getActiveBuffer, 24000, false⟩, rfl, rfl, fun i hi => ?_, ?_, hkeeps.1⟩
  · have hbyte := hread.holds i (Nat.zero_le i) (by
      show i < (start input (.ofBytes log)).read + (start input (.ofBytes log)).input.storage.size / 2
      rw [hsize, hnone]
      omega)
    have hplace : input'.place
        ((start input (.ofBytes log)).read + (start input (.ofBytes log)).input.storage.size / 2 - i) =
        i := by
      unfold ParserInputBuffer.place Lib.RingPlaces.before
      rw [hend, hsize', hsize, hnone, if_pos (by omega)]
      omega
    exact hbyte.trans (congrArg (fun place => some (input'.storage.getValue place)) hplace)
  · refine ⟨hmore, rfl, by
      show input'.storage.size = 2 * 24000
      omega, hposLast, ?_, ?_, fun hconsumed => ?_⟩
    · rw [hfirst', hfirst]
      rfl
    · rw [hkeeps.1]
      exact Nat.zero_le _
    · rw [hkeeps.2] at hconsumed
      cases hconsumed

namespace ReaderParser

/-- A header `b`. -/
def headerSchema : SchemaAST := ⟨[⟨"header", .mkLiteral 98⟩], [[10, 32]]⟩

/-- What the lexer of the schema reads. -/
structure ReadsHeader (t : LexerTables) : Prop where
  startOfFile : Lexer.startOfFileState t = some 2
  noNewline : t.dfa.transition? 2 10 = none
  newline : (t.dfa.transition? t.dfa.getRoot 10).map (·.destState) = some 1
  header : (t.dfa.transition? 1 98).map (·.destState) = some 3
  stops : t.dfa.transition? 3 32 = none
  rootSpace : t.dfa.transition? t.dfa.getRoot 32 = none
  typeIds : t.dfa.typeIds 2 = [] ∧ t.dfa.typeIds 1 = [6] ∧ t.dfa.typeIds 3 = [5] ∧
    t.dfa.typeIds t.dfa.getRoot = []
  isDelimiter : t.isDelimiter 10 = true ∧ t.isDelimiter 98 = false ∧ t.isDelimiter 32 = true
  isFirstCharOfAVariable : t.isFirstCharOfAVariable 32 = false ∧ t.isFirstCharOfAVariable 97 = false
  captures : t.getCapturesFromRuleId 5 = none

/-- The text starts with a header behind a newline, and neither comes again. -/
structure HeaderText (src : Source) : Prop where
  size : src.size = 24000
  finished : src.finished = false
  newline : src.bytes 0 = 10
  header : src.bytes 1 = 98
  space : src.bytes 2 = 32
  rest : ∀ i, 2 < i → i < 24000 → src.bytes i = 97

open Cursor in
/-- The lexer returns the header with its newline. -/
theorem ReadsHeader.scans_header {t : LexerTables} {src : Source} (ht : ReadsHeader t)
    (hsrc : HeaderText src) :
    Scans t src ⟨0, 0, 0, some 2, none, none, 0, 0, 0, true⟩
      ⟨2, 0, 2, none, none, none, 1, 1, 1, false⟩ (.ok ⟨0, 2, 1, [5]⟩) := by
  have h0 : src.charAt 0 = 10 := by rw [Source.charAt_of_lt (by rw [hsrc.size]; decide), hsrc.newline]
  have h1 : src.charAt 1 = 98 := by rw [Source.charAt_of_lt (by rw [hsrc.size]; decide), hsrc.header]
  have h2 : src.charAt 2 = 32 := by rw [Source.charAt_of_lt (by rw [hsrc.size]; decide), hsrc.space]
  have hstep0 : step t src ⟨0, 0, 0, some 2, none, none, 0, 0, 0, false⟩ =
      (⟨1, 0, 0, some 1, none, some (1, [6]), 1, 1, 0, false⟩, none) := by
    simp [step, readChar, getNextCharacter, noteDelimiter, recordMatch, processChar, countLine,
      Cursor.typeIds, nextState, StartsAtNewline, startAtNewline, Cursor.root, h0, hsrc.size,
      ht.noNewline, ht.newline, ht.typeIds]
  have hstep1 : step t src ⟨1, 0, 0, some 1, none, some (1, [6]), 1, 1, 0, false⟩ =
      (⟨2, 0, 0, some 3, none, some (1, [6]), 1, 1, 0, false⟩, none) := by
    simp [step, readChar, getNextCharacter, noteDelimiter, recordMatch, processChar, countLine,
      Cursor.typeIds, nextState, h1, hsrc.size, ht.header, ht.isDelimiter]
  have hstep2 : step t src ⟨2, 0, 0, some 3, none, some (1, [6]), 1, 1, 0, false⟩ =
      (⟨2, 0, 2, none, none, none, 1, 1, 1, false⟩, some (.ok ⟨0, 2, 1, [5]⟩)) := by
    simp [step, readChar, getNextCharacter, noteDelimiter, recordMatch, processChar, countLine,
      Cursor.typeIds, nextState, finish, finishMatch, releaseMatch, h2, hsrc.size, ht.stops,
      ht.typeIds, ht.isDelimiter]
  exact (scans_of_asked rfl).2 (.next hstep0 (.next hstep1 (.stop hstep2)))

open Cursor in
/-- The lexer skips the text and asks for more. -/
theorem ReadsHeader.scans_text {t : LexerTables} {src : Source} (ht : ReadsHeader t)
    (hsrc : HeaderText src) :
    ∃ c, Scans t src ⟨2, 0, 2, none, none, none, 1, 1, 1, false⟩ c (.error .bufferOutOfBounds) := by
  have h2 : src.charAt 2 = 32 := by rw [Source.charAt_of_lt (by rw [hsrc.size]; decide), hsrc.space]
  have hskip : SkipsTo t src 2 24000 := by
    refine ⟨by decide, hsrc.size.ge, fun i hle hlt => ?_, fun hlt => ?_⟩
    · rcases Nat.lt_or_eq_of_le hle with hlt' | rfl
      · rw [hsrc.rest i hlt' hlt]
        simp [ht.isFirstCharOfAVariable]
      · rw [hsrc.space]
        simp [ht.isFirstCharOfAVariable]
    · exact absurd hlt (by rw [hsrc.size]; exact Nat.lt_irrefl _)
  have hskipTo : skipTo t src (24000 - 2) 2 = 24000 := by
    have heq := skipTo_eq hskip
    rwa [hsrc.size] at heq
  have hstep : step t src ⟨2, 2, 2, some t.dfa.getRoot, none, none, 1, 1, 1, false⟩ =
      (⟨24000, 2, 2, some t.dfa.getRoot, none, none, 1, 1, 1, true⟩,
        some (.error .bufferOutOfBounds)) := by
    simp [step, readChar, getNextCharacter, noteDelimiter, recordMatch, processChar, countLine,
      Cursor.typeIds, nextState, finish, skip, Cursor.root, h2, hsrc.size, hsrc.finished, hskipTo,
      ht.rootSpace, ht.typeIds]
  exact ⟨_, (scans_of_begin Bool.false_ne_true rfl).2 (.stop hstep)⟩

/-- The next symbol is what the cursor scans. -/
theorem getNextSymbol_of_scans {t : LexerTables} (ht : t.WellFormed) {src : Source} {p : LogParser}
    {fuel : Nat} (h : p.scanner.Resting t src) (hfuel : 2 * src.size + 1 < fuel) {c : Cursor}
    {result : Cursor.Result}
    (hscans : Cursor.Scans t src (Cursor.ofScanner p.scanner) c result) :
    ∃ s result', p.scanner.scan t fuel = .ok (s, result') ∧
      p.getNextSymbol t fuel =
        .ok ({ p with lexer := s.lexer, inputBuffer := s.input }, result') ∧
      s.Resting t src ∧ Cursor.ofScanner s = c ∧ Delivers t src result result' := by
  obtain ⟨s, result', result'', hscan, hresting, hscans', hdelivers⟩ :=
    Scanner.scan_refines ht h hfuel
  obtain ⟨hcursor, hresult⟩ := hscans'.unique hscans
  refine ⟨s, result', hscan, ?_, hresting, hcursor, hresult ▸ hdelivers⟩
  unfold LogParser.getNextSymbol
  have hscan : Scanner.scan t fuel { lexer := p.lexer, input := p.inputBuffer } =
    .ok (s, result') := hscan
  rw [hscan]
  rfl

/-- The first call returns the newline, and keeps the header.  The position of
the newline is the consumed one. -/
theorem ReadsHeader.retry_newline {t : LexerTables} (hwf : t.WellFormed) (ht : ReadsHeader t)
    {src : Source} (hsrc : HeaderText src) {p : ReaderParser}
    (hresting : p.logParser.scanner.Resting t src)
    (hcursor : Cursor.ofScanner p.logParser.scanner = ⟨0, 0, 0, some 2, none, none, 0, 0, 0, true⟩)
    (hfresh : p.logParser.Fresh) (hstart : p.logParser.hasStartOfLog = false) :
    ∃ p', p.retry t 48002 = .ok (p', some .success) ∧ p'.logParser.scanner.Resting t src ∧
      Cursor.ofScanner p'.logParser.scanner = ⟨2, 0, 2, none, none, none, 1, 1, 1, false⟩ ∧
      p'.logParser.hasStartOfLog = true ∧ p'.logParser.startOfLogMessage.firstTypeId = .ok 5 ∧
      p'.logParser.inputBuffer.consumedPos = 0 := by
  have hfuel : 2 * src.size + 1 < 48002 := by
    rw [hsrc.size]
    decide
  obtain ⟨s, result, -, hsymbol, hresting', hcursor', hdelivers⟩ :=
    getNextSymbol_of_scans hwf hresting hfuel (hcursor ▸ ht.scans_header hsrc)
  rcases result with err | token
  · exact hdelivers.elim
  have hcovers : token.Covers t src ⟨0, 2, 1, [5]⟩ := hdelivers
  have htype : token.firstTypeId = .ok 5 := LogParser.firstTypeId_of_covers hcovers rfl
  have hchar : token.getFirstChar = 10 := by
    unfold Token.getFirstChar
    rw [hcovers.buffer, hcovers.startPos]
    exact hsrc.newline
  have hparse : p.logParser.parse t 48002 = .ok (({ p.logParser with
      lexer := s.lexer, inputBuffer := s.input } : LogParser).beginWithNewline token,
      .ok .compress) := by
    rw [LogParser.parse_of_token hfresh hstart hsymbol
      ⟨hfresh.pos, hfresh.hasHeader, hfresh.timestamp⟩ htype, if_pos ⟨rfl, hchar⟩]
  refine ⟨{ p with
      logParser := ({ p.logParser with lexer := s.lexer, inputBuffer := s.input } :
        LogParser).beginWithNewline token
      done := p.done || ParsingAction.compress == .compressAndFinish },
    ?_, ?_, ?_, rfl, htype, hcovers.startPos⟩
  · unfold retry
    rw [hparse]
    rfl
  · exact ⟨⟨⟨hresting'.input.finished, hresting'.input.bytes, hresting'.input.size,
      hresting'.input.posLastReadChar, hresting'.input.lastReadFirstHalf, hresting'.input.pos_le,
      hresting'.input.consumed⟩, hresting'.registers, hresting'.state, hresting'.isMatch,
      hresting'.firstDelimiterPos⟩, hresting'.resumes⟩
  · exact hcursor'

/-- The second call reads up to the end of the half. -/
theorem ReadsHeader.outOfBounds_text {t : LexerTables} (hwf : t.WellFormed) (ht : ReadsHeader t)
    {src : Source} (hsrc : HeaderText src) {p : LogParser} (hwithin : p.Within)
    (hresting : p.scanner.Resting t src)
    (hcursor : Cursor.ofScanner p.scanner = ⟨2, 0, 2, none, none, none, 1, 1, 1, false⟩)
    (hfresh : p.Fresh) (hstart : p.hasStartOfLog = true)
    (htype : p.startOfLogMessage.firstTypeId = .ok 5) :
    ∃ p', p.parse t 48002 = .ok (p', .error .bufferOutOfBounds) ∧
      p'.inputBuffer.consumedPos = p.inputBuffer.consumedPos := by
  have hfuel : 2 * src.size + 1 < 48002 := by
    rw [hsrc.size]
    decide
  rw [LogParser.parse_of_kept hfresh hstart]
  have htimestamp : LogParser.headerTimestamp t p.startOfLogMessage = .ok none := by
    unfold LogParser.headerTimestamp
    rw [show SymbolId.tokenHeader.toNat = 5 from rfl, ht.captures]
  rcases p.beginEvent_cases (t := t) htype with
    ⟨hid, -⟩ | ⟨-, fault, hfault, -⟩ | ⟨-, p', -, hbegin, hlexer, hinput, -⟩
  · cases hid
  · rw [htimestamp] at hfault
    cases hfault
  have hscanner : p'.scanner = p.scanner := by
    unfold LogParser.scanner
    rw [hlexer, hinput]
  obtain ⟨c, hscans⟩ := ht.scans_text hsrc
  rw [← hscanner] at hresting
  rw [← hscanner] at hcursor
  obtain ⟨s, result, hscan, hsymbol, -, -, hdelivers⟩ :=
    getNextSymbol_of_scans hwf hresting hfuel (hcursor ▸ hscans)
  obtain ⟨hframe, -⟩ := Scanner.scan_frame (hscanner ▸ hwithin.scanner) hscan
  rcases result with err | token
  · have herr : ErrorCode.bufferOutOfBounds = err := hdelivers
    refine ⟨{ p' with lexer := s.lexer, inputBuffer := s.input }, ?_, ?_⟩
    · unfold LogParser.beginAndLoop
      rw [hbegin]
      show LogParser.parseLoop t 48002 48002 p' = _
      rw [LogParser.parseLoop, hsymbol, ← herr]
      rfl
    · have hconsumed := hframe.input.consumedPos
      rw [hscanner] at hconsumed
      exact hconsumed
  · exact hdelivers.elim

def headerLog : List UInt8 := 10 :: 98 :: 32 :: List.replicate 24000 97

theorem length_headerLog : headerLog.length = 24003 := by
  unfold headerLog
  rw [List.length_cons, List.length_cons, List.length_cons, List.length_replicate]

theorem headerText_of_bytes {src : Source} (hsize : src.size = 24000)
    (hfinished : src.finished = false) (hbytes : ∀ i < 24000, headerLog[i]? = some (src.bytes i)) :
    HeaderText src := by
  refine ⟨hsize, hfinished, ?_, ?_, ?_, fun i hlt hi => ?_⟩
  · exact (Option.some.inj (hbytes 0 (by decide))).symm
  · exact (Option.some.inj (hbytes 1 (by decide))).symm
  · exact (Option.some.inj (hbytes 2 (by decide))).symm
  · obtain ⟨k, rfl⟩ : ∃ k, i = k + 3 := ⟨i - 3, by omega⟩
    have hk := hbytes (k + 3) hi
    have hdrop : headerLog[k + 3]? = (List.replicate 24000 (97 : UInt8))[k]? := rfl
    rw [hdrop, List.getElem?_replicate, if_pos (by omega)] at hk
    exact (Option.some.inj hk).symm

/-- The lexer of a new parser. -/
theorem ofScanner_reset {t : LexerTables} {state : Nat}
    (hstate : Lexer.startOfFileState t = some state) {p : LogParser}
    (hreset : (LogParser.new t).reset t = .ok p) :
    p.inputBuffer = (LogParser.new t).inputBuffer.reset ∧ p.hasStartOfLog = false ∧
      ∀ input : ParserInputBuffer, Cursor.ofScanner { lexer := p.lexer, input := input } =
        ⟨input.storage.pos, 0, 0, some state, none, none, 0, 0, 0, true⟩ := by
  unfold LogParser.reset Lexer.prependStartOfFileChar at hreset
  rw [hstate] at hreset
  cases hreset
  exact ⟨rfl, rfl, fun _ => rfl⟩

theorem ReadsHeader.exists_reset {t : LexerTables} (ht : ReadsHeader t) {bytes : List UInt8} :
    ∃ p, (new t).resetAndSetReader t (.ofBytes bytes) = .ok p := by
  unfold resetAndSetReader LogParser.reset Lexer.prependStartOfFileChar
  rw [ht.startOfFile]
  exact ⟨_, rfl⟩

/-- The states in front of the loop of the second call, whose parse is out of
bounds with the position of the newline as the consumed one. -/
theorem ReadsHeader.exists_stalled {t : LexerTables} (hwf : t.WellFormed) (ht : ReadsHeader t)
    {p : ReaderParser} (hreset : (new t).resetAndSetReader t (.ofBytes headerLog) = .ok p) :
    ∃ p' logParser, Reaches t LogParser.FitsGrown true p' ∧ p'.OutOfBounds t 48002 logParser ∧
      logParser.FitsGrown ∧ ¬ logParser.ConsumedInside := by
  have hnew : Reaches t LogParser.FitsGrown false p := .new hreset
  obtain ⟨logParser, hlogParser, hp⟩ := exists_of_bind_eq_ok hreset
  cases hp
  obtain ⟨hinput, hstart, hcursor⟩ := ofScanner_reset ht.startOfFile hlogParser
  have hlog : 24000 ≤ headerLog.length := by
    rw [length_headerLog]
    decide
  obtain ⟨src, hsize, hfinished, hbytes, hholds, hpos⟩ :=
    (LogParser.new t).inputBuffer.holds_firstRead hlog
  have hsrc := headerText_of_bytes hsize hfinished hbytes
  rw [← hinput] at hholds hpos
  have hfirst : Reaches t LogParser.FitsGrown true (ReaderParser.beginEvent
      { logParser := logParser, reader := .ofBytes headerLog, done := false }).2 := hnew.begin
  obtain ⟨hresting, -⟩ := Scanner.opened_of_reset hwf hlogParser hholds
  obtain ⟨p₁, hretry, hresting₁, hcursor₁, hstart₁, htype₁, hconsumed₁⟩ :=
    ht.retry_newline hwf hsrc (p := (ReaderParser.beginEvent
      { logParser := logParser, reader := .ofBytes headerLog, done := false }).2) hresting
      ((hcursor (logParser.inputBuffer.readIfSafe (.ofBytes headerLog)).2.1).trans (by rw [hpos]))
      ⟨rfl, rfl, rfl⟩ hstart
  have hstop := hfirst.stop hretry
  have hsecond := hstop.begin
  have hbounded := hsecond.bounded fun _ hfits => hfits
  -- the read in front of the second call is not safe
  have hnotSafe : ¬ p₁.logParser.inputBuffer.ReadIsSafe := by
    rintro ⟨-, ⟨hhalf, -⟩ | ⟨-, -, hpos⟩⟩
    · exact hhalf hresting₁.input.lastReadFirstHalf
    · rw [hconsumed₁] at hpos
      exact Nat.lt_irrefl 0 hpos
  have hsame : p₁.beginEvent.2.logParser.inputBuffer = p₁.logParser.inputBuffer := by
    show (p₁.logParser.inputBuffer.readIfSafe p₁.reader).2.1 = _
    unfold ParserInputBuffer.readIfSafe
    rw [if_neg hnotSafe]
  have hscanner : p₁.beginEvent.2.logParser.scanner = p₁.logParser.scanner := by
    unfold LogParser.scanner
    rw [hsame]
    rfl
  obtain ⟨p', hparse, hconsumed⟩ := ht.outOfBounds_text hwf hsrc hbounded.toWithin
    (hscanner ▸ hresting₁) (hscanner ▸ hcursor₁) ⟨rfl, rfl, rfl⟩ hstart₁ htype₁
  obtain ⟨hframe, -⟩ := OutOfBounds.frame (p := p₁.beginEvent.2) hparse hbounded
  have hholds₂ := hresting₁.input
  refine ⟨_, p', hsecond, hparse, ?_, ?_⟩
  · unfold LogParser.FitsGrown
    rw [hframe.size, hsame]
    have hsize₁ : p₁.logParser.inputBuffer.storage.size = 2 * src.size := hholds₂.size
    rw [hsize₁, hsize]
    decide
  · rintro (hyes | hne)
    · rw [hframe.finished, hsame] at hyes
      have hno : p₁.logParser.inputBuffer.finishedReadingInput = src.finished := hholds₂.finished
      rw [hno, hfinished] at hyes
      cases hyes
    · exact hne (hconsumed.trans ((congrArg (·.consumedPos) hsame).trans hconsumed₁))

/-- The lexer of the schema of the header, and a check of it. -/
def checkHeader (P : LexerTables → Bool) : Bool :=
  match headerSchema.generate id 40 with
  | .ok t => P t
  | .error _ => false

theorem exists_of_checkHeader {P : LexerTables → Bool} (h : checkHeader P = true) :
    ∃ t, headerSchema.generate id 40 = .ok t ∧ P t = true := by
  unfold checkHeader at h
  split at h
  · rename_i t ht
    exact ⟨t, ht, h⟩
  · cases h

theorem exists_readsHeader : ∃ t, headerSchema.generate id 40 = .ok t ∧ ReadsHeader t := by
  have hcheck : checkHeader (fun t =>
      Lexer.startOfFileState t = some 2 ∧ (t.dfa.transition? 2 10).isNone ∧
        (t.dfa.transition? t.dfa.getRoot 10).map (·.destState) = some 1 ∧
        (t.dfa.transition? 1 98).map (·.destState) = some 3 ∧
        (t.dfa.transition? 3 32).isNone ∧ (t.dfa.transition? t.dfa.getRoot 32).isNone ∧
        (t.dfa.typeIds 2 = [] ∧ t.dfa.typeIds 1 = [6] ∧ t.dfa.typeIds 3 = [5] ∧
          t.dfa.typeIds t.dfa.getRoot = []) ∧
        (t.isDelimiter 10 = true ∧ t.isDelimiter 98 = false ∧ t.isDelimiter 32 = true) ∧
        (t.isFirstCharOfAVariable 32 = false ∧ t.isFirstCharOfAVariable 97 = false) ∧
        (t.getCapturesFromRuleId 5).isNone) = true := by
    decide +kernel
  obtain ⟨t, ht, hcheck⟩ := exists_of_checkHeader hcheck
  obtain ⟨hstart, hno, hnewline, hheader, hstops, hspace, htypes, hdelimiter, hfirst, hcaptures⟩ :=
    of_decide_eq_true hcheck
  exact ⟨t, ht, hstart, Option.isNone_iff_eq_none.1 hno, hnewline, hheader,
    Option.isNone_iff_eq_none.1 hstops, Option.isNone_iff_eq_none.1 hspace, htypes, hdelimiter,
    hfirst, Option.isNone_iff_eq_none.1 hcaptures⟩

/-- A header behind a newline, and then a text that fills the half: the growth
in the second call leads to no read. -/
theorem not_growth_progress :
    ∃ t p logParser, headerSchema.generate id 40 = .ok t ∧
      Reaches t LogParser.FitsGrown true p ∧ p.OutOfBounds t 48002 logParser ∧
      logParser.FitsGrown ∧ ¬ logParser.GrowsOntoRead := by
  obtain ⟨t, hgenerate, ht⟩ := exists_readsHeader
  have hwf := (LexerTables.ofSchema_generate (fun _ => .refl _) hgenerate).toWellFormed
  obtain ⟨p, hreset⟩ := ht.exists_reset
  obtain ⟨p', logParser, hreaches, hout, hfits, houtside⟩ := ht.exists_stalled hwf hreset
  have hbounded := hreaches.bounded fun _ hfits => hfits
  obtain ⟨hframe, -⟩ := hout.frame hbounded
  exact ⟨t, p', logParser, hgenerate, hreaches, hout, hfits, fun hgrows =>
    houtside (((hframe.bounded hbounded).growsOntoRead_iff hfits).1 hgrows)⟩

/-- The growth in the second call of that log. -/
theorem growth_progress_iff_header :
    ∃ t p logParser, headerSchema.generate id 40 = .ok t ∧
      Reaches t LogParser.FitsGrown true p ∧ p.OutOfBounds t 48002 logParser ∧
      logParser.FitsGrown ∧ (logParser.GrowsOntoRead ↔ logParser.ConsumedInside) := by
  obtain ⟨t, hgenerate, ht⟩ := exists_readsHeader
  have hwf := (LexerTables.ofSchema_generate (fun _ => .refl _) hgenerate).toWellFormed
  obtain ⟨p, hreset⟩ := ht.exists_reset
  obtain ⟨p', logParser, hreaches, hout, hfits, -⟩ := ht.exists_stalled hwf hreset
  exact ⟨t, p', logParser, hgenerate, hreaches, hout, hfits,
    (growth_progress_iff hreaches).1 48002 logParser hout hfits⟩

end ReaderParser

end LogSurgeon
