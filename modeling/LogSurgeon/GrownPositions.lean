import LogSurgeon.ReaderParserRetries

/-!
# The positions behind a growth

When the input buffer is out of bounds, its position is where the data ends.
The lexer holds positions of characters in front of that place, and of the place
itself.  A growth moves the characters.

* `Denotes` says which character a position stands for, counted back from the
  end of the data.
* `KeepsPlaces`: behind the growth, every position of the lexer stands for the
  same character.
* `keepsPlaces_iff`: that is so exactly for the states that `Translates`
  describes.  A growth that swaps the halves leaves the position of the first
  delimiter as it is, and a match that ends where the data ends is lost.
-/

namespace LogSurgeon

open Lib

namespace ParserInputBuffer

/-- The position is that of the character `back` characters in front of the next
one.  For 0 it is where the data ends. -/
structure Denotes (input : ParserInputBuffer) (position back : Nat) : Prop where
  lt : back < input.storage.size
  eq : position = RingPlaces.before input.storage.size input.storage.pos back

/-- The positions stand for the same character, or for the end of the data. -/
def SameCharacter (input input' : ParserInputBuffer) (position position' : Nat) : Prop :=
  ∃ back, input.Denotes position back ∧ input'.Denotes position' back ∧
    (0 < back → input'.storage.getValue position' = input.storage.getValue position)

variable {input input' : ParserInputBuffer} {position position' : Nat}

/-- Behind a growth, the characters lie in order in front of the end of the
data. -/
theorem GrowsTo.sameCharacter_iff (h : input.GrowsTo input')
    (hpos : input.storage.pos = input.readOffset) (hlt : input.storage.pos < input.storage.size)
    (hposition : position < input.storage.size) :
    input.SameCharacter input' position position' ↔
      position' = input.storage.size -
        RingPlaces.before input.storage.size input.storage.pos position := by
  have hplace : ∀ back, back < input.storage.size →
      RingPlaces.before input'.storage.size input'.storage.pos back = input.storage.size - back := by
    intro back hback
    rw [h.pos]
    exact if_pos (Nat.le_of_lt hback)
  have hback : RingPlaces.before input.storage.size input.storage.pos position <
      input.storage.size := RingPlaces.before_lt hlt
  constructor
  · rintro ⟨back, hdenotes, hdenotes', -⟩
    rw [hdenotes.eq, RingPlaces.before_before hlt hdenotes.lt, hdenotes'.eq,
      hplace back hdenotes.lt]
  · intro heq
    refine ⟨_, ⟨hback, (RingPlaces.before_before hlt hposition).symm⟩, ⟨?_, ?_⟩, fun hpositive => ?_⟩
    · have hsize := h.size
      omega
    · rw [hplace _ hback, heq]
    · -- the old place of what lies `back` characters in front of the end
      have hold : ∀ back, 0 < back → back < input.storage.size →
          input'.storage.getValue (input.storage.size - back) =
            input.storage.getValue
              (RingPlaces.before input.storage.size input.storage.pos back) := by
        intro back hpositive hback
        rw [h.getValue _ (by omega), ← hpos]
        congr 1
        unfold RingPlaces.before
        split <;> split <;> omega
      rw [heq, hold _ hpositive hback, RingPlaces.before_before hlt hposition]

end ParserInputBuffer

namespace LogParser

/-- The positions stand for the same character in front of the growth and behind
it. -/
def SameCharacter (p : LogParser) (position position' : Nat) : Prop :=
  p.inputBuffer.SameCharacter p.increaseCapacity.inputBuffer position position'

/-- Behind the growth there is room for the next character, and every position
that the lexer uses stands for the same character as before. -/
structure KeepsPlaces (p : LogParser) : Prop where
  room : p.increaseCapacity.inputBuffer.storage.pos < p.increaseCapacity.inputBuffer.storage.size
  startPos : p.SameCharacter p.lexer.startPos p.increaseCapacity.lexer.startPos
  lastMatchPos : p.SameCharacter p.lexer.lastMatchPos p.increaseCapacity.lexer.lastMatchPos
  matchPos : p.lexer.isMatch → p.SameCharacter p.lexer.matchPos p.increaseCapacity.lexer.matchPos
  firstDelimiterPos : ∀ f, p.lexer.firstDelimiterPos = some f →
    ∃ f', p.increaseCapacity.lexer.firstDelimiterPos = some f' ∧ p.SameCharacter f f'

/-- The position of the match stands for the same character also when there is
no match. -/
structure KeepsAllPlaces (p : LogParser) : Prop extends KeepsPlaces p where
  staleMatchPos : p.SameCharacter p.lexer.matchPos p.increaseCapacity.lexer.matchPos

/-- The states whose positions `increase_buffer_capacity` moves along. -/
structure Translates (p : LogParser) : Prop where
  fits : p.FitsGrown
  startPos : p.lexer.lastMatchPos = p.inputBuffer.storage.pos →
    p.lexer.startPos = p.inputBuffer.storage.pos
  lastMatchPos : ¬ p.inputBuffer.lastReadFirstHalf →
    p.lexer.startPos = p.inputBuffer.storage.pos →
      p.lexer.lastMatchPos = p.inputBuffer.storage.pos
  matchPos : p.lexer.isMatch → p.lexer.matchPos ≠ p.inputBuffer.storage.pos
  firstDelimiterPos : ∀ f, p.lexer.firstDelimiterPos = some f →
    ¬ p.inputBuffer.lastReadFirstHalf ∧ f ≠ p.inputBuffer.storage.pos

/-! ## The positions one by one -/

variable {p : LogParser} {position position' : Nat}

/-- The size does not wrap exactly when the next character has room. -/
theorem room_iff_fitsGrown :
    p.increaseCapacity.inputBuffer.storage.pos < p.increaseCapacity.inputBuffer.storage.size ↔
      0 < p.inputBuffer.storage.size ∧ p.FitsGrown := by
  have hsize : p.increaseCapacity.inputBuffer.storage.size =
      toUInt32 (2 * p.inputBuffer.storage.size) := p.inputBuffer.size_grownStorage
  have hpos : p.increaseCapacity.inputBuffer.storage.pos = p.inputBuffer.storage.size := rfl
  unfold FitsGrown
  rw [hsize, hpos]
  unfold toUInt32
  omega

/-- The buffer is out of bounds, and the size does not wrap when it grows. -/
structure AtGrowth (p : LogParser) : Prop where
  bounded : p.Bounded
  pos : p.inputBuffer.storage.pos = p.inputBuffer.readOffset
  fits : p.FitsGrown

namespace AtGrowth

theorem readOffset_cases (h : p.AtGrowth) :
    p.inputBuffer.lastReadFirstHalf = false ∧ p.inputBuffer.storage.pos = 0 ∨
      p.inputBuffer.lastReadFirstHalf = true ∧
        p.inputBuffer.storage.pos = p.inputBuffer.storage.size / 2 := by
  rw [h.pos]
  exact p.inputBuffer.readOffset_or

theorem sameCharacter_iff (h : p.AtGrowth) (hposition : position < p.inputBuffer.storage.size) :
    p.SameCharacter position position' ↔
      position' = p.inputBuffer.storage.size -
        RingPlaces.before p.inputBuffer.storage.size p.inputBuffer.storage.pos position :=
  (p.inputBuffer.growsTo_increaseCapacity h.bounded.even h.fits).sameCharacter_iff h.pos
    h.bounded.scanner.pos hposition

/-- The halves keep their order, and the data ends at the new position. -/
theorem sameCharacter_iff_of_ordered (h : p.AtGrowth)
    (hfirst : p.inputBuffer.lastReadFirstHalf = false)
    (hposition : position < p.inputBuffer.storage.size) :
    p.SameCharacter position position' ↔
      position' = if position = 0 then p.inputBuffer.storage.size else position := by
  have hpos : p.inputBuffer.storage.pos = 0 := by
    rw [h.pos, ParserInputBuffer.readOffset, hfirst]
    rfl
  rw [h.sameCharacter_iff hposition, hpos]
  unfold RingPlaces.before
  split <;> split <;> omega

/-- The halves change places, and so does a position at their border, where the
data ends. -/
theorem sameCharacter_iff_of_flipped (h : p.AtGrowth)
    (hfirst : p.inputBuffer.lastReadFirstHalf = true)
    (hposition : position < p.inputBuffer.storage.size) :
    p.SameCharacter position position' ↔
      position' = if p.inputBuffer.storage.size / 2 < position
        then position - p.inputBuffer.storage.size / 2
        else position + p.inputBuffer.storage.size / 2 := by
  have hpos : p.inputBuffer.storage.pos = p.inputBuffer.storage.size / 2 := by
    rw [h.pos, ParserInputBuffer.readOffset, hfirst]
    rfl
  have heven := h.bounded.even
  rw [h.sameCharacter_iff hposition, hpos]
  unfold RingPlaces.before
  split <;> split <;> omega

/-- The lexer behind the growth. -/
theorem lexer_eq (h : p.AtGrowth) :
    p.increaseCapacity.lexer =
      let lexer := if p.inputBuffer.lastReadFirstHalf
        then p.lexer.flipStates p.inputBuffer.storage.size else p.lexer
      if lexer.lastMatchPos = 0 then
        { lexer with
          lastMatchPos := p.inputBuffer.storage.size
          startPos := p.inputBuffer.storage.size }
      else lexer := by
  have hsize : p.increaseCapacity.inputBuffer.storage.size = 2 * p.inputBuffer.storage.size :=
    (p.inputBuffer.growsTo_increaseCapacity h.bounded.even h.fits).size
  have hgrows : p.inputBuffer.storage.size < p.increaseCapacity.inputBuffer.storage.size := by
    have := h.bounded.size_pos
    omega
  exact if_pos hgrows

theorem firstDelimiterPos_eq (h : p.AtGrowth) :
    p.increaseCapacity.lexer.firstDelimiterPos = p.lexer.firstDelimiterPos :=
  (h.bounded.growStates p.increaseCapacity.inputBuffer.storage.size
    p.inputBuffer.lastReadFirstHalf).2.2.2

/-- A position of the first half moves to the second one. -/
theorem toUInt32_add_half (h : p.AtGrowth) (hposition : position < p.inputBuffer.storage.size) :
    toUInt32 (position + p.inputBuffer.storage.size / 2) =
      position + p.inputBuffer.storage.size / 2 := by
  have hfits : p.inputBuffer.storage.size * 2 < 2 ^ 32 := h.fits
  exact toUInt32_of_lt (by omega)

/-- The positions of the lexer behind a growth that keeps the order of the
halves. -/
theorem positions_of_ordered (h : p.AtGrowth) (hfirst : p.inputBuffer.lastReadFirstHalf = false) :
    p.increaseCapacity.lexer.lastMatchPos =
        (if p.lexer.lastMatchPos = 0 then p.inputBuffer.storage.size else p.lexer.lastMatchPos) ∧
      p.increaseCapacity.lexer.startPos =
        (if p.lexer.lastMatchPos = 0 then p.inputBuffer.storage.size else p.lexer.startPos) ∧
      p.increaseCapacity.lexer.matchPos = p.lexer.matchPos := by
  rw [h.lexer_eq, hfirst, if_neg Bool.false_ne_true]
  dsimp only
  split
  · exact ⟨rfl, rfl, rfl⟩
  · exact ⟨rfl, rfl, rfl⟩

/-- The positions of the lexer behind a growth that swaps the halves. -/
theorem positions_of_flipped (h : p.AtGrowth) (hfirst : p.inputBuffer.lastReadFirstHalf = true) :
    let half := p.inputBuffer.storage.size / 2
    p.increaseCapacity.lexer.lastMatchPos =
        (if p.lexer.lastMatchPos = half then p.inputBuffer.storage.size
          else if p.lexer.lastMatchPos ≥ half then p.lexer.lastMatchPos - half
          else p.lexer.lastMatchPos + half) ∧
      p.increaseCapacity.lexer.startPos =
        (if p.lexer.lastMatchPos = half then p.inputBuffer.storage.size
          else if p.lexer.startPos > half then p.lexer.startPos - half
          else p.lexer.startPos + half) ∧
      p.increaseCapacity.lexer.matchPos =
        (if p.lexer.matchPos ≥ half then p.lexer.matchPos - half else p.lexer.matchPos + half) := by
  have hpositive := h.bounded.size_pos
  have heven := h.bounded.even
  have hlast : Lexer.flipState (p.inputBuffer.storage.size / 2) p.lexer.lastMatchPos
      (p.lexer.lastMatchPos ≥ p.inputBuffer.storage.size / 2) = 0 ↔
        p.lexer.lastMatchPos = p.inputBuffer.storage.size / 2 := by
    unfold Lexer.flipState
    rw [h.toUInt32_add_half h.bounded.scanner.lastMatchPos]
    split <;> omega
  rw [h.lexer_eq, hfirst, if_pos rfl]
  dsimp only [Lexer.flipStates]
  simp only [hlast]
  unfold Lexer.flipState
  rw [h.toUInt32_add_half h.bounded.scanner.lastMatchPos,
    h.toUInt32_add_half h.bounded.scanner.startPos, h.toUInt32_add_half h.bounded.scanner.matchPos]
  split
  · exact ⟨rfl, rfl, rfl⟩
  · exact ⟨rfl, rfl, rfl⟩

/-- The position of the last match always stands for the same character: 0
becomes the end of the data. -/
theorem sameCharacter_lastMatchPos (h : p.AtGrowth) :
    p.SameCharacter p.lexer.lastMatchPos p.increaseCapacity.lexer.lastMatchPos := by
  have hlt : p.lexer.lastMatchPos < p.inputBuffer.storage.size := h.bounded.scanner.lastMatchPos
  have heven := h.bounded.even
  rcases h.readOffset_cases with ⟨hfirst, -⟩ | ⟨hfirst, -⟩
  · obtain ⟨hlast, -, -⟩ := h.positions_of_ordered hfirst
    exact (h.sameCharacter_iff_of_ordered hfirst hlt).2 hlast
  · obtain ⟨hlast, -, -⟩ := h.positions_of_flipped hfirst
    rw [h.sameCharacter_iff_of_flipped hfirst hlt, hlast]
    split
    · split <;> omega
    · split <;> split <;> omega

/-- The start of the token goes where the last match goes when that is the end
of the data. -/
theorem sameCharacter_startPos_iff (h : p.AtGrowth) :
    p.SameCharacter p.lexer.startPos p.increaseCapacity.lexer.startPos ↔
      (p.lexer.lastMatchPos = p.inputBuffer.storage.pos →
        p.lexer.startPos = p.inputBuffer.storage.pos) ∧
      (¬ p.inputBuffer.lastReadFirstHalf → p.lexer.startPos = p.inputBuffer.storage.pos →
        p.lexer.lastMatchPos = p.inputBuffer.storage.pos) := by
  have hlt : p.lexer.startPos < p.inputBuffer.storage.size := h.bounded.scanner.startPos
  have heven := h.bounded.even
  rcases h.readOffset_cases with ⟨hfirst, hpos⟩ | ⟨hfirst, hpos⟩
  · obtain ⟨-, hstart, -⟩ := h.positions_of_ordered hfirst
    rw [h.sameCharacter_iff_of_ordered hfirst hlt, hstart, hpos]
    simp only [hfirst, Bool.false_eq_true, not_false_eq_true, true_imp_iff]
    split <;> split <;> omega
  · obtain ⟨-, hstart, -⟩ := h.positions_of_flipped hfirst
    rw [h.sameCharacter_iff_of_flipped hfirst hlt, hstart, hpos]
    simp only [hfirst, not_true_eq_false, false_imp_iff, and_true]
    split
    · split <;> omega
    · split <;> omega

/-- A match that ends where the data ends becomes one that ends at 0. -/
theorem sameCharacter_matchPos_iff (h : p.AtGrowth) :
    p.SameCharacter p.lexer.matchPos p.increaseCapacity.lexer.matchPos ↔
      p.lexer.matchPos ≠ p.inputBuffer.storage.pos := by
  have hlt : p.lexer.matchPos < p.inputBuffer.storage.size := h.bounded.scanner.matchPos
  have heven := h.bounded.even
  rcases h.readOffset_cases with ⟨hfirst, hpos⟩ | ⟨hfirst, hpos⟩
  · obtain ⟨-, -, hmatch⟩ := h.positions_of_ordered hfirst
    rw [h.sameCharacter_iff_of_ordered hfirst hlt, hmatch, hpos]
    split <;> omega
  · obtain ⟨-, -, hmatch⟩ := h.positions_of_flipped hfirst
    rw [h.sameCharacter_iff_of_flipped hfirst hlt, hmatch, hpos]
    split <;> split <;> omega

/-- A position that is not moved stands for the same character when the halves
keep their order. -/
theorem sameCharacter_self_iff (h : p.AtGrowth) (hposition : position < p.inputBuffer.storage.size) :
    p.SameCharacter position position ↔
      ¬ p.inputBuffer.lastReadFirstHalf ∧ position ≠ p.inputBuffer.storage.pos := by
  have hpositive := h.bounded.size_pos
  have heven := h.bounded.even
  rcases h.readOffset_cases with ⟨hfirst, hpos⟩ | ⟨hfirst, hpos⟩
  · rw [h.sameCharacter_iff_of_ordered hfirst hposition, hpos]
    simp only [hfirst, Bool.false_eq_true, not_false_eq_true, true_and]
    split <;> omega
  · rw [h.sameCharacter_iff_of_flipped hfirst hposition]
    simp only [hfirst, not_true_eq_false, false_and, iff_false]
    split <;> omega

end AtGrowth

theorem Bounded.keepsPlaces_iff_translates (h : p.Bounded)
    (hpos : p.inputBuffer.storage.pos = p.inputBuffer.readOffset) :
    p.KeepsPlaces ↔ p.Translates := by
  constructor
  · intro hkeeps
    have hgrowth : p.AtGrowth := ⟨h, hpos, (room_iff_fitsGrown.1 hkeeps.room).2⟩
    obtain ⟨hstart, hlast⟩ := hgrowth.sameCharacter_startPos_iff.1 hkeeps.startPos
    refine ⟨hgrowth.fits, hstart, hlast, fun hmatch => ?_, fun f hf => ?_⟩
    · exact hgrowth.sameCharacter_matchPos_iff.1 (hkeeps.matchPos hmatch)
    · obtain ⟨f', hf', hsame⟩ := hkeeps.firstDelimiterPos f hf
      rw [hgrowth.firstDelimiterPos_eq, hf] at hf'
      cases hf'
      exact (hgrowth.sameCharacter_self_iff (h.scanner.firstDelimiterPos f hf)).1 hsame
  · intro htranslates
    have hgrowth : p.AtGrowth := ⟨h, hpos, htranslates.fits⟩
    refine ⟨room_iff_fitsGrown.2 ⟨h.size_pos, htranslates.fits⟩, ?_,
      hgrowth.sameCharacter_lastMatchPos, fun hmatch => ?_, fun f hf => ⟨f, ?_, ?_⟩⟩
    · exact hgrowth.sameCharacter_startPos_iff.2 ⟨htranslates.startPos, htranslates.lastMatchPos⟩
    · exact hgrowth.sameCharacter_matchPos_iff.2 (htranslates.matchPos hmatch)
    · rw [hgrowth.firstDelimiterPos_eq, hf]
    · exact (hgrowth.sameCharacter_self_iff (h.scanner.firstDelimiterPos f hf)).2
        (htranslates.firstDelimiterPos f hf)

theorem Bounded.keepsAllPlaces_iff_translates (h : p.Bounded)
    (hpos : p.inputBuffer.storage.pos = p.inputBuffer.readOffset) :
    p.KeepsAllPlaces ↔ p.Translates ∧ p.lexer.matchPos ≠ p.inputBuffer.storage.pos := by
  have hiff := h.keepsPlaces_iff_translates hpos
  constructor
  · intro hkeeps
    have htranslates := hiff.1 hkeeps.toKeepsPlaces
    have hgrowth : p.AtGrowth := ⟨h, hpos, htranslates.fits⟩
    exact ⟨htranslates, hgrowth.sameCharacter_matchPos_iff.1 hkeeps.staleMatchPos⟩
  · rintro ⟨htranslates, hmatch⟩
    have hgrowth : p.AtGrowth := ⟨h, hpos, htranslates.fits⟩
    exact ⟨hiff.2 htranslates, hgrowth.sameCharacter_matchPos_iff.2 hmatch⟩

/-- The buffer is out of bounds where the data ends. -/
theorem OutOfBounds.pos_eq (h : p.OutOfBounds .bufferOutOfBounds) :
    p.inputBuffer.storage.pos = p.inputBuffer.readOffset := by
  unfold OutOfBounds at h
  rcases p.inputBuffer.getNextCharacter_cases with ⟨-, hcase⟩ | ⟨-, hpos, -⟩ | ⟨-, -, hcase⟩
  · rw [h] at hcase
    cases hcase
  · exact hpos
  · rw [h] at hcase
    cases hcase

end LogParser

namespace ReaderParser

variable {t : LexerTables} {p : ReaderParser} {logParser : LogParser} {fuel : Nat}

/-- In every state that the parser reaches and whose parse is out of bounds, the
growth keeps the places of the lexer exactly when it moves its positions along.
With the position of the match counted when there is none, that position must
not be where the data ends. -/
theorem keepsPlaces_iff (h : Reaches t LogParser.FitsGrown true p)
    (hout : p.OutOfBounds t fuel logParser) :
    (logParser.KeepsPlaces ↔ logParser.Translates) ∧
      (logParser.KeepsAllPlaces ↔
        logParser.Translates ∧ logParser.lexer.matchPos ≠ logParser.inputBuffer.storage.pos) := by
  have hbounded := h.bounded fun _ hfits => hfits
  obtain ⟨hframe, hend⟩ := hout.frame hbounded
  have hpos := LogParser.OutOfBounds.pos_eq hend
  exact ⟨(hframe.bounded hbounded).keepsPlaces_iff_translates hpos,
    (hframe.bounded hbounded).keepsAllPlaces_iff_translates hpos⟩

/-! ## The first growth -/

/-- What else the lexer of the header reads. -/
structure ReadsText (t : LexerTables) : Prop extends ReadsHeader t where
  noText : t.dfa.transition? 2 97 = none
  text : t.isDelimiter 97 = false
  firstNewline : t.isFirstCharOfAVariable 10 = true

/-- The bytes of the log in the first half of the storage. -/
structure FirstHalf (log : List UInt8) (src : Source) : Prop where
  size : src.size = 24000
  finished : src.finished = false
  bytes : ∀ i < 24000, log[i]? = some (src.bytes i)

/-- The first parse asks for more data when its first call of `scan` does. -/
theorem exists_firstGrowth (hwf : t.WellFormed) (ht : ReadsHeader t) {log : List UInt8}
    (hlog : 24000 ≤ log.length) {c : Cursor}
    (hscans : ∀ src, FirstHalf log src → Cursor.Scans t src
      ⟨0, 0, 0, some 2, none, none, 0, 0, 0, true⟩ c (.error .bufferOutOfBounds)) :
    ∃ p logParser, Reaches t LogParser.FitsGrown true p ∧ p.OutOfBounds t 48002 logParser ∧
      logParser.FitsGrown ∧ logParser.inputBuffer.lastReadFirstHalf = true ∧
      Cursor.ofScanner logParser.scanner = c := by
  obtain ⟨p, hreset⟩ : ∃ p, (new t).resetAndSetReader t (.ofBytes log) = .ok p := ht.exists_reset
  have hnew : Reaches t LogParser.FitsGrown false p := .new hreset
  obtain ⟨logParser, hlogParser, hp⟩ := exists_of_bind_eq_ok hreset
  cases hp
  obtain ⟨hinput, hstart, hcursor⟩ := ofScanner_reset ht.startOfFile hlogParser
  obtain ⟨src, hsize, hfinished, hbytes, hholds, hpos⟩ :=
    (LogParser.new t).inputBuffer.holds_firstRead hlog
  rw [← hinput] at hholds hpos
  obtain ⟨hresting, -⟩ := Scanner.opened_of_reset hwf hlogParser hholds
  have hfirst := hnew.begin
  have hfuel : 2 * src.size + 1 < 48002 := by
    rw [hsize]
    decide
  have hasked := hcursor (logParser.inputBuffer.readIfSafe (.ofBytes log)).2.1
  rw [hpos] at hasked
  -- the parser in front of the loop of the first call
  generalize hp : (beginEvent { logParser := logParser, reader := .ofBytes log, done := false }).2 = p
    at hfirst
  have hfresh : p.logParser.Fresh := by
    rw [← hp]
    exact ⟨rfl, rfl, rfl⟩
  have hnone : p.logParser.hasStartOfLog = false := by
    rw [← hp]
    exact hstart
  have hscanner : p.logParser.scanner = { lexer := logParser.lexer
                                          input := (logParser.inputBuffer.readIfSafe
                                            (.ofBytes log)).2.1 } := by
    rw [← hp]
    rfl
  rw [← hscanner] at hresting hasked
  obtain ⟨s, result, -, hsymbol, hresting', hcursor', hdelivers⟩ :=
    getNextSymbol_of_scans hwf hresting hfuel (hasked ▸ hscans src ⟨hsize, hfinished, hbytes⟩)
  rcases result with err | token
  · have herr : ErrorCode.bufferOutOfBounds = err := hdelivers
    subst herr
    have hsize' : s.input.storage.size = 2 * src.size := hresting'.input.size
    refine ⟨p, _, hfirst, LogParser.parse_of_error hfresh hnone hsymbol, ?_,
      hresting'.input.lastReadFirstHalf, hcursor'⟩
    show s.input.storage.size * 2 < 2 ^ 32
    rw [hsize', hsize]
    decide
  · exact hdelivers.elim

open Cursor in
/-- The lexer skips a text that fills the half. -/
theorem ReadsText.scans_text {src : Source} (ht : ReadsText t) (hsize : src.size = 24000)
    (hfinished : src.finished = false) (htext : ∀ i < 24000, src.bytes i = 97) :
    Scans t src ⟨0, 0, 0, some 2, none, none, 0, 0, 0, true⟩
      ⟨24000, 0, 0, some t.dfa.getRoot, none, none, 0, 0, 0, true⟩
      (.error .bufferOutOfBounds) := by
  have h0 : src.charAt 0 = 97 := by
    rw [Source.charAt_of_lt (by rw [hsize]; decide), htext 0 (by decide)]
  have hskip : SkipsTo t src 0 24000 := by
    refine ⟨by decide, hsize.ge, fun i _ hlt => ?_, fun hlt => ?_⟩
    · rw [htext i hlt]
      simp [ht.isFirstCharOfAVariable]
    · exact absurd hlt (by rw [hsize]; exact Nat.lt_irrefl _)
  have hskipTo : skipTo t src 24000 0 = 24000 := by
    have heq := skipTo_eq hskip
    rwa [hsize] at heq
  have hstep : step t src ⟨0, 0, 0, some 2, none, none, 0, 0, 0, false⟩ =
      (⟨24000, 0, 0, some t.dfa.getRoot, none, none, 0, 0, 0, true⟩,
        some (.error .bufferOutOfBounds)) := by
    simp [step, readChar, getNextCharacter, noteDelimiter, recordMatch, processChar, countLine,
      Cursor.typeIds, nextState, finish, skip, Cursor.root, h0, hsize, hfinished, hskipTo,
      ht.noText, ht.text, ht.typeIds]
  exact (scans_of_asked rfl).2 (.stop hstep)

open Cursor in
/-- A newline at the end of the half is the first delimiter, and a match. -/
theorem ReadsText.scans_line {src : Source} (ht : ReadsText t) (hsize : src.size = 24000)
    (hfinished : src.finished = false) (htext : ∀ i < 23999, src.bytes i = 97)
    (hnewline : src.bytes 23999 = 10) :
    Scans t src ⟨0, 0, 0, some 2, none, none, 0, 0, 0, true⟩
      ⟨24000, 23999, 0, some 1, some 23999, some (24000, [6]), 1, 1, 0, true⟩
      (.error .bufferOutOfBounds) := by
  have h0 : src.charAt 0 = 97 := by
    rw [Source.charAt_of_lt (by rw [hsize]; decide), htext 0 (by decide)]
  have hend : src.charAt 23999 = 10 := by
    rw [Source.charAt_of_lt (by rw [hsize]; decide), hnewline]
  have hskip : SkipsTo t src 0 23999 := by
    refine ⟨by decide, by rw [hsize]; decide, fun i _ hlt => ?_, fun _ => ?_⟩
    · rw [htext i hlt]
      simp [ht.isFirstCharOfAVariable]
    · rw [hnewline]
      exact ⟨ht.firstNewline, ht.isDelimiter.1⟩
  have hskipTo : skipTo t src 24000 0 = 23999 := by
    have heq := skipTo_eq hskip
    rwa [hsize] at heq
  have hstep0 : step t src ⟨0, 0, 0, some 2, none, none, 0, 0, 0, false⟩ =
      (⟨23999, 23999, 0, some t.dfa.getRoot, none, none, 0, 0, 0, false⟩, none) := by
    simp [step, readChar, getNextCharacter, noteDelimiter, recordMatch, processChar, countLine,
      Cursor.typeIds, nextState, finish, skip, Cursor.root, h0, hsize, hskipTo, ht.noText, ht.text,
      ht.typeIds]
  have hstep1 : step t src ⟨23999, 23999, 0, some t.dfa.getRoot, none, none, 0, 0, 0, false⟩ =
      (⟨24000, 23999, 0, some 1, some 23999, some (24000, [6]), 1, 1, 0, false⟩, none) := by
    simp [step, readChar, getNextCharacter, noteDelimiter, recordMatch, processChar, countLine,
      Cursor.typeIds, nextState, StartsAtNewline, startAtNewline, Cursor.root, hend, hsize,
      ht.newline, ht.typeIds, ht.isDelimiter]
  have hstep2 : step t src ⟨24000, 23999, 0, some 1, some 23999, some (24000, [6]), 1, 1, 0, false⟩ =
      (⟨24000, 23999, 0, some 1, some 23999, some (24000, [6]), 1, 1, 0, true⟩,
        some (.error .bufferOutOfBounds)) := by
    simp [step, hsize, hfinished]
  exact (scans_of_asked rfl).2 (.next hstep0 (.next hstep1 (.stop hstep2)))

theorem exists_readsText : ∃ t, headerSchema.generate id 40 = .ok t ∧ ReadsText t := by
  have hcheck : checkHeader (fun t => (t.dfa.transition? 2 97).isNone ∧
      t.isDelimiter 97 = false ∧ t.isFirstCharOfAVariable 10 = true) = true := by
    decide +kernel
  obtain ⟨t, hgenerate, hcheck⟩ := exists_of_checkHeader hcheck
  obtain ⟨t', hgenerate', ht⟩ := exists_readsHeader
  rw [hgenerate] at hgenerate'
  cases hgenerate'
  obtain ⟨hno, hdelimiter, hfirst⟩ := of_decide_eq_true hcheck
  exact ⟨t, hgenerate, ht, Option.isNone_iff_eq_none.1 hno, hdelimiter, hfirst⟩

/-- A line that fills the half of the storage with its newline. -/
def longLine : List UInt8 := List.replicate 23999 97 ++ [10]

theorem length_longLine : longLine.length = 24000 := by
  unfold longLine
  rw [List.length_append, List.length_replicate, List.length_singleton]

theorem scans_longLine {src : Source} (ht : ReadsText t) (hsrc : FirstHalf longLine src) :
    Cursor.Scans t src ⟨0, 0, 0, some 2, none, none, 0, 0, 0, true⟩
      ⟨24000, 23999, 0, some 1, some 23999, some (24000, [6]), 1, 1, 0, true⟩
      (.error .bufferOutOfBounds) := by
  refine ht.scans_line hsrc.size hsrc.finished (fun i hi => ?_) ?_
  · have hbyte := hsrc.bytes i (by omega)
    unfold longLine at hbyte
    rw [List.getElem?_append_left (by rw [List.length_replicate]; exact hi),
      List.getElem?_replicate, if_pos hi] at hbyte
    exact (Option.some.inj hbyte).symm
  · have hbyte := hsrc.bytes 23999 (by omega)
    unfold longLine at hbyte
    rw [List.getElem?_append_right (by rw [List.length_replicate]), List.length_replicate] at hbyte
    exact (Option.some.inj hbyte).symm

/-- Behind the growth, the position of the first delimiter is no longer that of
the newline, and the match does not end behind it. -/
theorem not_keepsPlaces :
    ∃ t p logParser, headerSchema.generate id 40 = .ok t ∧
      Reaches t LogParser.FitsGrown true p ∧ p.OutOfBounds t 48002 logParser ∧
      logParser.FitsGrown ∧ ¬ logParser.KeepsPlaces := by
  obtain ⟨t, hgenerate, ht⟩ := exists_readsText
  have hwf := (LexerTables.ofSchema_generate (fun _ => .refl _) hgenerate).toWellFormed
  obtain ⟨p, logParser, hreaches, hout, hfits, hfirst, hcursor⟩ :=
    exists_firstGrowth hwf ht.toReadsHeader length_longLine.ge fun src hsrc => scans_longLine ht hsrc
  refine ⟨t, p, logParser, hgenerate, hreaches, hout, hfits, fun hkeeps => ?_⟩
  have hbounded := hreaches.bounded fun _ hfits => hfits
  obtain ⟨hframe, hend⟩ := hout.frame hbounded
  have htranslates := ((hframe.bounded hbounded).keepsPlaces_iff_translates
    (LogParser.OutOfBounds.pos_eq hend)).1 hkeeps
  have hdelimiter : logParser.lexer.firstDelimiterPos = some 23999 :=
    congrArg Cursor.firstDelimiterPos hcursor
  exact (htranslates.firstDelimiterPos 23999 hdelimiter).1 hfirst

/-- A text without a delimiter fills the half, and the growth keeps the places. -/
theorem keepsPlaces_iff_text :
    ∃ t p logParser, headerSchema.generate id 40 = .ok t ∧
      Reaches t LogParser.FitsGrown true p ∧ p.OutOfBounds t 48002 logParser ∧
      logParser.KeepsPlaces := by
  obtain ⟨t, hgenerate, ht⟩ := exists_readsText
  have hwf := (LexerTables.ofSchema_generate (fun _ => .refl _) hgenerate).toWellFormed
  have hlog : (List.replicate 24000 (97 : UInt8)).length = 24000 := List.length_replicate
  obtain ⟨p, logParser, hreaches, hout, hfits, hfirst, hcursor⟩ :=
    exists_firstGrowth hwf ht.toReadsHeader hlog.ge fun src hsrc =>
      ht.scans_text hsrc.size hsrc.finished fun i hi => by
        have hbyte := hsrc.bytes i hi
        rw [List.getElem?_replicate, if_pos hi] at hbyte
        exact (Option.some.inj hbyte).symm
  have hpos : logParser.inputBuffer.storage.pos = 24000 := congrArg Cursor.pos hcursor
  have hlast : logParser.lexer.lastMatchPos = 0 := congrArg Cursor.lastMatchPos hcursor
  have hdelimiter : logParser.lexer.firstDelimiterPos = none :=
    congrArg Cursor.firstDelimiterPos hcursor
  have hnone : logParser.lexer.isMatch = false := by
    have hmatched : (if logParser.lexer.isMatch then
        some (logParser.lexer.matchPos, logParser.lexer.typeIds.getD []) else none) = none :=
      congrArg Cursor.matched hcursor
    by_contra hmatch
    rw [Bool.not_eq_false] at hmatch
    rw [if_pos hmatch] at hmatched
    cases hmatched
  refine ⟨t, p, logParser, hgenerate, hreaches, hout, (keepsPlaces_iff hreaches hout).1.2
    ⟨hfits, fun hend => ?_, fun hordered => absurd hfirst hordered, fun hmatch => ?_,
      fun f hf => ?_⟩⟩
  · rw [hlast, hpos] at hend
    cases hend
  · rw [hnone] at hmatch
    cases hmatch
  · rw [hdelimiter] at hf
    cases hf

end ReaderParser

end LogSurgeon
