import LogSurgeon.BufferParserRun
import LogSurgeon.ReaderParserRetries

/-!
# The sizes of the input buffer

The active size of the input buffer is a `uint32_t`.  `setStorage` doubles the
size of a buffer of the caller, and `increaseCapacity` doubles the active size.

* `Scanner.Visits` has the scanners that a parse goes through, the one in front
  of every read of a character among them.
* `LogParser.StaysInside`: every position that a parse uses lies in the storage.
* `BufferParser.Reaches` has the states of a `BufferParser`, as
  `ReaderParser.Reaches` has those of a `ReaderParser`.
* `doubles_iff`: in a run whose steps all fit, all positions lie in the storage,
  and the next step doubles the size exactly when it fits too.
-/

namespace LogSurgeon

theorem toUInt32_lt (n : Nat) : toUInt32 n < 2 ^ 32 := Nat.mod_lt _ (by decide)

theorem toUInt32_eq_iff {n : Nat} : toUInt32 n = n ↔ n < 2 ^ 32 := by
  constructor
  · intro h
    rw [← h]
    exact toUInt32_lt n
  · exact toUInt32_of_lt

/-! ## The scanners of a parse -/

namespace Scanner

/-- The scanners that a parse goes through.  A step that skips text reads on
from the character that it has read. -/
inductive Visits (t : LexerTables) (s : Scanner) : Scanner → Prop where
  | start : Visits t s s
  | resume {s' : Scanner} (h : Visits t s s') :
      Visits t s { s' with lexer := { s'.lexer with askedForMoreData := false } }
  | begin {s' : Scanner} (h : Visits t s s') : Visits t s (s'.begin t)
  | release {s' : Scanner} (h : Visits t s s') : Visits t s ((s'.root t).releaseMatch t).1
  | step {fuel : Nat} {s' s'' : Scanner} {result : Option ScanResult} (h : Visits t s s')
      (hstep : s'.scanStep t fuel = .ok (s'', result)) : Visits t s s''
  | read {s' : Scanner} {next : UInt8} {input : ParserInputBuffer} (h : Visits t s s')
      (hget : s'.input.getNextCharacter = (.ok next, input)) :
      Visits t s { s' with input := input }
  | consume {s' : Scanner} {consumedPos : Nat} (h : Visits t s s') :
      Visits t s { s' with input := s'.input.setConsumedPos consumedPos }

variable {t : LexerTables} {s s' s'' : Scanner} {fuel : Nat}

/-- No visit leaves the storage, and none changes its size. -/
theorem Visits.stays (h : Visits t s s') (hwithin : s.Within) :
    s'.Within ∧ s'.input.storage.size = s.input.storage.size := by
  induction h with
  | start => exact ⟨hwithin, rfl⟩
  | resume _ ih =>
    obtain ⟨ih, hsize⟩ := ih
    exact ⟨⟨ih.pos, ih.startPos, ih.lastMatchPos, ih.matchPos, ih.firstDelimiterPos⟩, hsize⟩
  | begin _ ih =>
    have hframe := begin_frame (t := t) ih.1
    exact ⟨hframe.within, hframe.input.size.trans ih.2⟩
  | release _ ih =>
    obtain ⟨hframe, -⟩ := releaseMatch_frame (t := t) (ih.1.root (t := t))
    exact ⟨hframe.within, hframe.input.size.trans ih.2⟩
  | step _ hstep ih =>
    obtain ⟨hframe, -⟩ := scanStep_frame ih.1 hstep
    exact ⟨hframe.within, hframe.input.size.trans ih.2⟩
  | read _ hget ih =>
    have hframe := ih.1.getNextCharacter hget
    exact ⟨hframe.within, hframe.input.size.trans ih.2⟩
  | consume _ ih =>
    obtain ⟨ih, hsize⟩ := ih
    exact ⟨⟨ih.pos, ih.startPos, ih.lastMatchPos, ih.matchPos, ih.firstDelimiterPos⟩, hsize⟩

theorem Visits.scanLoop (h : Visits t s s') {result : ScanResult}
    (hloop : s'.scanLoop t fuel = .ok (s'', result)) : Visits t s s'' := by
  induction fuel generalizing s' with
  | zero => cases hloop
  | succ fuel ih =>
    obtain ⟨⟨s₁, r₁⟩, hstep, hloop⟩ := exists_of_bind_eq_ok hloop
    cases r₁ with
    | none => exact ih (h.step hstep) hloop
    | some r =>
      cases hloop
      exact h.step hstep

/-- A call of `scan` ends in a visit. -/
theorem Visits.scan (h : Visits t s s') {result : ScanResult}
    (hscan : s'.scan t fuel = .ok (s'', result)) : Visits t s s'' := by
  unfold Scanner.scan at hscan
  split at hscan
  · exact h.resume.scanLoop hscan
  · split at hscan
    · cases hscan
      exact h.release
    · exact h.begin.scanLoop hscan

end Scanner

namespace LogParser

variable {t : LexerTables} {s : Scanner} {p p' : LogParser} {token : Token} {fuel steps : Nat}

open Scanner (Visits)

theorem visits_getNextSymbol (h : Visits t s p.scanner) {result : ScanResult}
    (hsymbol : p.getNextSymbol t fuel = .ok (p', result)) : Visits t s p'.scanner := by
  obtain ⟨⟨s', r⟩, hscan, hsymbol⟩ := exists_of_bind_eq_ok hsymbol
  cases hsymbol
  exact h.scan hscan

theorem NotesConsumed.visits (hnotes : NotesConsumed token p p') (h : Visits t s p.scanner) :
    Visits t s p'.scanner := by
  unfold scanner at h ⊢
  rw [hnotes.lexer]
  rcases hnotes.input with hinput | hinput | hinput <;> rw [hinput]
  · exact h
  · exact h.consume
  · exact h.consume

theorem visits_beginEvent (h : Visits t s p.scanner) {action : Option ParsingAction}
    (hbegin : p.beginEvent t token = .ok (p', action)) : Visits t s p'.scanner := by
  obtain ⟨hlexer, hinput⟩ := beginEvent_keeps hbegin
  unfold scanner at h ⊢
  rw [hlexer, hinput]
  exact h

theorem visits_parseLoop (h : Visits t s p.scanner) {result : Except ErrorCode ParsingAction}
    (hloop : p.parseLoop t fuel steps = .ok (p', result)) : Visits t s p'.scanner := by
  induction steps generalizing p with
  | zero => cases hloop
  | succ steps ih =>
    obtain ⟨⟨p₁, r₁⟩, hsymbol, hloop⟩ := exists_of_bind_eq_ok hloop
    have hvisits := visits_getNextSymbol h hsymbol
    cases r₁ with
    | error err =>
      cases hloop
      exact hvisits
    | ok token =>
      obtain ⟨⟨p₂, r₂⟩, hadd, hloop⟩ := exists_of_bind_eq_ok hloop
      have hadded := (addToEvent_notes hadd).visits hvisits
      cases r₂ with
      | some action =>
        cases hloop
        exact hadded
      | none => exact ih hadded hloop

theorem visits_parseFirst (h : Visits t s p.scanner)
    {result : Except ErrorCode (Option ParsingAction)}
    (hfirst : p.parseFirst t fuel = .ok (p', result)) : Visits t s p'.scanner := by
  unfold parseFirst at hfirst
  split at hfirst
  · obtain ⟨⟨p₁, action⟩, hbegin, hfirst⟩ := exists_of_bind_eq_ok hfirst
    cases hfirst
    exact visits_beginEvent h hbegin
  · obtain ⟨⟨p₁, r₁⟩, hsymbol, hfirst⟩ := exists_of_bind_eq_ok hfirst
    have hvisits := visits_getNextSymbol h hsymbol
    cases r₁ with
    | error err =>
      cases hfirst
      exact hvisits
    | ok token =>
      obtain ⟨typeId, -, hfirst⟩ := exists_of_bind_eq_ok hfirst
      dsimp only at hfirst
      split at hfirst
      · cases hfirst
        exact hvisits.consume
      · obtain ⟨⟨p₂, action⟩, hbegin, hfirst⟩ := exists_of_bind_eq_ok hfirst
        cases hfirst
        exact visits_beginEvent hvisits hbegin

/-- A parse ends in a visit. -/
theorem visits_parse {result : Except ErrorCode ParsingAction}
    (hparse : p.parse t fuel = .ok (p', result)) : Visits t p.scanner p'.scanner := by
  unfold parse at hparse
  split at hparse
  · obtain ⟨⟨p₁, r₁⟩, hfirst, hparse⟩ := exists_of_bind_eq_ok hparse
    have hvisits := visits_parseFirst .start hfirst
    rcases r₁ with err | (_ | action)
    · cases hparse
      exact hvisits
    · exact visits_parseLoop hvisits hparse
    · cases hparse
      exact hvisits
  · exact visits_parseLoop .start hparse

/-! ## Positions and sizes -/

/-- Every position that a parse uses lies in the storage: where its characters
are read from, where its tokens lie, and where a read puts its bytes. -/
structure StaysInside (t : LexerTables) (p : LogParser) : Prop where
  size : ∀ s, Visits t p.scanner s → s.input.storage.size = p.inputBuffer.storage.size
  within : ∀ s, Visits t p.scanner s → s.Within
  holds : ∀ fuel s s' token, Visits t p.scanner s →
    s.scan t fuel = .ok (s', .ok token) → s'.Holds token
  read : p.inputBuffer.readOffset + p.inputBuffer.storage.size / 2 ≤ p.inputBuffer.storage.size

theorem staysInside_iff : p.StaysInside t ↔ p.scanner.Within := by
  constructor
  · intro h
    exact h.within _ .start
  · intro h
    refine ⟨fun s hvisits => (hvisits.stays h).2, fun s hvisits => (hvisits.stays h).1,
      fun fuel s s' token hvisits hscan => ?_, p.inputBuffer.readOffset_le⟩
    exact (Scanner.scan_frame (hvisits.stays h).1 hscan).2.ok _ rfl

/-- The growth doubles the active size, the new storage has room for the bytes
of the old one, and the positions lie in it. -/
structure GrowsExactly (t : LexerTables) (p : LogParser) : Prop where
  size : p.increaseCapacity.inputBuffer.storage.size = 2 * p.inputBuffer.storage.size
  room : p.inputBuffer.storage.size ≤ p.inputBuffer.storage.doubleSize.size
  inside : p.increaseCapacity.StaysInside t

theorem size_increaseCapacity (p : LogParser) :
    p.increaseCapacity.inputBuffer.storage.size = toUInt32 (2 * p.inputBuffer.storage.size) :=
  p.inputBuffer.size_grownStorage

theorem Bounded.growsExactly_iff (h : p.Bounded) : p.GrowsExactly t ↔ p.FitsGrown := by
  constructor
  · intro hgrows
    have hsize := hgrows.size
    rw [size_increaseCapacity, toUInt32_eq_iff] at hsize
    show p.inputBuffer.storage.size * 2 < 2 ^ 32
    omega
  · intro hfits
    have hlt : p.inputBuffer.storage.size * 2 < 2 ^ 32 := hfits
    have hdouble : toUInt32 (2 * p.inputBuffer.storage.size) = 2 * p.inputBuffer.storage.size :=
      toUInt32_of_lt (by omega)
    refine ⟨(size_increaseCapacity p).trans hdouble, ?_, ?_⟩
    · show p.inputBuffer.storage.size ≤ toUInt32 (2 * p.inputBuffer.storage.size)
      omega
    · exact staysInside_iff.2 (h.increaseCapacity hfits).scanner

/-- The active size is twice that of the buffer of the caller, and the positions
lie in it. -/
structure FeedsExactly (t : LexerTables) (p : LogParser) (buf : UserBuffer) (offset : Nat)
    (finished : Bool) : Prop where
  size : (p.feed buf offset finished).inputBuffer.storage.size = 2 * buf.size
  inside : (p.feed buf offset finished).StaysInside t

/-- Twice the size of the buffer is a `uint32_t`, and larger than the offset and
the positions that the lexer has from the calls before. -/
structure FitsFed (p : LogParser) (buf : UserBuffer) (offset : Nat) : Prop where
  size : 2 * buf.size < 2 ^ 32
  offset : toUInt32 offset < 2 * buf.size
  startPos : p.lexer.startPos < 2 * buf.size
  lastMatchPos : p.lexer.lastMatchPos < 2 * buf.size
  matchPos : p.lexer.matchPos < 2 * buf.size
  firstDelimiterPos : ∀ f, p.lexer.firstDelimiterPos = some f → f < 2 * buf.size

theorem size_feed (p : LogParser) (buf : UserBuffer) (offset : Nat) (finished : Bool) :
    (p.feed buf offset finished).inputBuffer.storage.size = toUInt32 (toUInt32 buf.size * 2) := rfl

theorem feedsExactly_iff {buf : UserBuffer} {offset : Nat} {finished : Bool} :
    p.FeedsExactly t buf offset finished ↔ p.FitsFed buf offset := by
  constructor
  · intro h
    have hlt : 2 * buf.size < 2 ^ 32 := by
      rw [← h.size, size_feed]
      exact toUInt32_lt _
    have hwithin := staysInside_iff.1 h.inside
    have hsize : (p.feed buf offset finished).scanner.input.storage.size = 2 * buf.size := h.size
    refine ⟨hlt, ?_, ?_, ?_, ?_, fun f hf => ?_⟩ <;> rw [← hsize]
    · exact hwithin.pos
    · exact hwithin.startPos
    · exact hwithin.lastMatchPos
    · exact hwithin.matchPos
    · exact hwithin.firstDelimiterPos f hf
  · intro h
    have hlt := h.size
    have hsize : (p.feed buf offset finished).inputBuffer.storage.size = 2 * buf.size := by
      have hbuf : toUInt32 buf.size = buf.size := toUInt32_of_lt (by omega)
      rw [size_feed, hbuf, toUInt32_of_lt (by omega)]
      omega
    refine ⟨hsize, staysInside_iff.2 ?_⟩
    have hsize : (p.feed buf offset finished).scanner.input.storage.size = 2 * buf.size := hsize
    refine ⟨?_, ?_, ?_, ?_, fun f hf => ?_⟩ <;> rw [hsize]
    · exact h.offset
    · exact h.startPos
    · exact h.lastMatchPos
    · exact h.matchPos
    · exact h.firstDelimiterPos f hf

end LogParser

/-! ## The runs of the two parsers -/

namespace BufferParser

variable {t : LexerTables} {p : BufferParser}

/-- The states of a parser whose calls all meet the condition. -/
inductive Reaches (t : LexerTables) (condition : LogParser → UserBuffer → Nat → Prop) :
    BufferParser → Prop where
  | new : Reaches t condition (new t)
  | reset {p p' : BufferParser} (h : Reaches t condition p) (hreset : reset t p = .ok p') :
      Reaches t condition p'
  | call {fuel : Nat} {p : BufferParser} {buf : UserBuffer} {offset : Nat} {finished : Bool}
      {call : Call} (h : Reaches t condition p) (hcondition : condition p.logParser buf offset)
      (hcall : p.parseNextEvent t fuel buf offset finished = .ok call) :
      Reaches t condition call.parser

theorem within_reset {p' : BufferParser} (h : reset t p = .ok p') :
    p'.logParser.scanner.Within := by
  obtain ⟨logParser, hlogParser, h⟩ := exists_of_bind_eq_ok h
  cases h
  exact (LogParser.bounded_reset hlogParser).scanner

/-- Behind a call that fails, the parser is reset. -/
theorem within_parseNextEvent {fuel offset : Nat} {buf : UserBuffer} {finished : Bool}
    {call : Call} (h : (p.logParser.feed buf offset finished).scanner.Within)
    (hcall : p.parseNextEvent t fuel buf offset finished = .ok call) :
    call.parser.logParser.scanner.Within := by
  obtain ⟨⟨logParser, result⟩, hparse, hcall⟩ := exists_of_bind_eq_ok hcall
  obtain ⟨hwithin, -⟩ := (LogParser.visits_parse hparse).stays h
  cases result with
  | error err =>
    obtain ⟨p', hreset, hcall⟩ := exists_of_bind_eq_ok hcall
    cases hcall
    exact within_reset hreset
  | ok action =>
    cases hcall
    exact hwithin

theorem Reaches.within (h : Reaches t LogParser.FitsFed p) : p.logParser.scanner.Within := by
  induction h with
  | new =>
    have hsize : (0 : Nat) < cStaticByteBuffSize := by decide
    exact ⟨hsize, hsize, hsize, hsize, fun f hf => by cases hf⟩
  | reset _ hreset _ => exact within_reset hreset
  | @call fuel p buf offset finished call _ hfits hcall ih =>
    have hfeeds : p.logParser.FeedsExactly t buf offset finished :=
      LogParser.feedsExactly_iff.2 hfits
    exact within_parseNextEvent (LogParser.staysInside_iff.1 hfeeds.inside) hcall

end BufferParser

/-- In a run whose growths, or whose buffers, all fit, every position lies in
the storage.  The next growth, or the next buffer, doubles the size exactly when
it fits too. -/
theorem doubles_iff (t : LexerTables) :
    (∀ looping p, ReaderParser.Reaches t LogParser.FitsGrown looping p →
      p.logParser.StaysInside t ∧
      ∀ fuel logParser, p.OutOfBounds t fuel logParser →
        (logParser.GrowsExactly t ↔ logParser.FitsGrown)) ∧
    ∀ p, BufferParser.Reaches t LogParser.FitsFed p →
      p.logParser.StaysInside t ∧
      ∀ buf offset finished,
        (p.logParser.FeedsExactly t buf offset finished ↔ p.logParser.FitsFed buf offset) := by
  constructor
  · intro looping p h
    have hbounded := h.bounded fun _ hfits => hfits
    refine ⟨LogParser.staysInside_iff.2 hbounded.scanner, fun fuel logParser hout => ?_⟩
    obtain ⟨hframe, -⟩ := hout.frame hbounded
    exact (hframe.bounded hbounded).growsExactly_iff
  · intro p h
    refine ⟨LogParser.staysInside_iff.2 h.within, fun buf offset finished => ?_⟩
    exact LogParser.feedsExactly_iff

/-- A growth of the reader parser, and a buffer of three bytes. -/
theorem doubles_iff_header :
    ∃ t p logParser, ReaderParser.headerSchema.generate id 40 = .ok t ∧
      ReaderParser.Reaches t LogParser.FitsGrown true p ∧ p.OutOfBounds t 48002 logParser ∧
      logParser.GrowsExactly t ∧
      (BufferParser.new t).logParser.FeedsExactly t ⟨fun _ => 97, 3⟩ 0 true := by
  obtain ⟨t, hgenerate, ht⟩ := ReaderParser.exists_readsHeader
  have hwf := (LexerTables.ofSchema_generate (fun _ => .refl _) hgenerate).toWellFormed
  obtain ⟨p, hreset⟩ := ht.exists_reset
  obtain ⟨p', logParser, hreaches, hout, hfits, -⟩ := ht.exists_stalled hwf hreset
  obtain ⟨hreader, hbuffer⟩ := doubles_iff t
  have hgrows := (hreader true p' hreaches).2 48002 logParser hout
  have hfeeds := (hbuffer (.new t) .new).2 ⟨fun _ => 97, 3⟩ 0 true
  refine ⟨t, p', logParser, hgenerate, hreaches, hout, hgrows.2 hfits, hfeeds.2 ?_⟩
  have hsize : 2 * 3 < 2 ^ 32 := by omega
  have hpos : 0 < 2 * 3 := by omega
  exact ⟨hsize, hpos, hpos, hpos, hpos, fun f hf => by cases hf⟩

/-- A buffer of `2 ^ 31` bytes leaves no storage. -/
theorem not_doubles :
    ∃ t, ReaderParser.headerSchema.generate id 40 = .ok t ∧
      BufferParser.Reaches t (fun _ _ _ => True) (.new t) ∧
      ((BufferParser.new t).logParser.feed ⟨fun _ => 97, 2 ^ 31⟩ 0 true).inputBuffer.storage.size
        = 0 ∧
      ¬ (BufferParser.new t).logParser.FeedsExactly t ⟨fun _ => 97, 2 ^ 31⟩ 0 true := by
  obtain ⟨t, hgenerate, -⟩ := ReaderParser.exists_readsHeader
  have hbuf : toUInt32 (2 ^ 31) = 2 ^ 31 := toUInt32_of_lt (by omega)
  refine ⟨t, hgenerate, .new, ?_, fun hfeeds => ?_⟩
  · rw [LogParser.size_feed, hbuf]
    unfold toUInt32
    omega
  · have hlt : 2 * 2 ^ 31 < 2 ^ 32 := (LogParser.feedsExactly_iff.1 hfeeds).size
    omega

end LogSurgeon
