import LogSurgeon.LogParserTokens
import LogSurgeon.ReaderParser

/-!
# What scanning leaves as it is

Scanning reads the storage of the input buffer and moves within it.  Whatever
state the lexer is in, a call of `scan` keeps the storage, and takes positions
that lie in it to positions that lie in it (`scan_frame`).  The same holds of
`LogParser.parse`, which also notes a consumed position (`parse_frame`).
-/

namespace LogSurgeon

namespace ParserInputBuffer

/-- The buffers hold the same input, at any position of it. -/
structure SameInput (input input' : ParserInputBuffer) : Prop where
  size : input'.storage.size = input.storage.size
  bytes : input'.storage.getActiveBuffer = input.storage.getActiveBuffer
  lastReadFirstHalf : input'.lastReadFirstHalf = input.lastReadFirstHalf
  finished : input'.finishedReadingInput = input.finishedReadingInput
  posLastReadChar : input'.posLastReadChar = input.posLastReadChar
  consumedPos : input'.consumedPos = input.consumedPos

theorem SameInput.refl (input : ParserInputBuffer) : input.SameInput input :=
  ⟨rfl, rfl, rfl, rfl, rfl, rfl⟩

theorem SameInput.trans {input input' input'' : ParserInputBuffer} (h : input.SameInput input')
    (h' : input'.SameInput input'') : input.SameInput input'' :=
  ⟨h'.size.trans h.size, h'.bytes.trans h.bytes, h'.lastReadFirstHalf.trans h.lastReadFirstHalf,
    h'.finished.trans h.finished, h'.posLastReadChar.trans h.posLastReadChar,
    h'.consumedPos.trans h.consumedPos⟩

/-- Reading a character moves the position only, and does not leave the storage. -/
theorem getNextCharacter_frame {input input' : ParserInputBuffer}
    {result : Except ErrorCode UInt8} (h : input.getNextCharacter = (result, input')) :
    input.SameInput input' ∧
      (input.storage.pos < input.storage.size → input'.storage.pos < input'.storage.size) := by
  rcases input.getNextCharacter_cases with ⟨-, hget⟩ | ⟨-, -, hget⟩ | ⟨-, -, hget⟩ <;>
    rw [h] at hget <;> cases hget
  · exact ⟨⟨rfl, rfl, rfl, rfl, rfl, rfl⟩, id⟩
  · exact ⟨.refl _, id⟩
  · refine ⟨⟨rfl, rfl, rfl, rfl, rfl, rfl⟩, fun hpos => ?_⟩
    show Lib.RingPlaces.next input.storage.size input.storage.pos < input.storage.size
    unfold Lib.RingPlaces.next
    split <;> omega

/-- A read that fails may be made again. -/
theorem getNextCharacter_error {input input' : ParserInputBuffer} {err : ErrorCode}
    (h : input.getNextCharacter = (.error err, input')) :
    err = .bufferOutOfBounds ∧ input' = input := by
  rcases input.getNextCharacter_cases with ⟨-, hget⟩ | ⟨-, -, hget⟩ | ⟨-, -, hget⟩ <;>
    rw [h] at hget <;> cases hget
  exact ⟨rfl, rfl⟩

end ParserInputBuffer

namespace Scanner

/-- The positions of the lexer lie in the storage. -/
structure Within (s : Scanner) : Prop where
  pos : s.input.storage.pos < s.input.storage.size
  startPos : s.lexer.startPos < s.input.storage.size
  lastMatchPos : s.lexer.lastMatchPos < s.input.storage.size
  matchPos : s.lexer.matchPos < s.input.storage.size
  firstDelimiterPos : ∀ f, s.lexer.firstDelimiterPos = some f → f < s.input.storage.size

/-- The token lies in the storage. -/
def Holds (s : Scanner) (token : Token) : Prop :=
  token.startPos < s.input.storage.size ∧ token.endPos < s.input.storage.size

variable {t : LexerTables} {s s' : Scanner} {fuel prevByteBufPos : Nat} {nextChar : UInt8}

/-- The lexer moves within the storage, and the input stays as it is. -/
structure MovesLexer (s s' : Scanner) : Prop where
  input : s'.input = s.input
  within : s'.Within

theorem noteDelimiter_moves (h : s.Within) (hprev : prevByteBufPos < s.input.storage.size) :
    s.MovesLexer (s.noteDelimiter t nextChar prevByteBufPos) := by
  unfold noteDelimiter
  split
  · refine ⟨rfl, h.pos, h.startPos, h.lastMatchPos, h.matchPos, fun f hf => ?_⟩
    cases hf
    exact hprev
  · exact ⟨rfl, h⟩

theorem recordMatch_moves (h : s.Within) (hprev : prevByteBufPos < s.input.storage.size)
    (hrecord : s.recordMatch t nextChar prevByteBufPos = .ok s') : s.MovesLexer s' := by
  unfold recordMatch at hrecord
  split at hrecord
  · obtain ⟨state, -, hrecord⟩ := exists_of_bind_eq_ok hrecord
    split at hrecord
    · obtain ⟨handler, -, hrecord⟩ := exists_of_bind_eq_ok hrecord
      cases hrecord
      exact ⟨rfl, h.pos, h.startPos, h.lastMatchPos, hprev, h.firstDelimiterPos⟩
    · cases hrecord
      exact ⟨rfl, h⟩
  · cases hrecord
    exact ⟨rfl, h⟩

theorem processChar_moves (h : s.Within)
    (hprocess : s.processChar t nextChar prevByteBufPos = .ok s') : s.MovesLexer s' := by
  unfold processChar at hprocess
  obtain ⟨state, -, hprocess⟩ := exists_of_bind_eq_ok hprocess
  split at hprocess
  · cases hprocess
    exact ⟨rfl, h.pos, h.startPos, h.lastMatchPos, h.matchPos, h.firstDelimiterPos⟩
  · obtain ⟨handler, -, hprocess⟩ := exists_of_bind_eq_ok hprocess
    cases hprocess
    exact ⟨rfl, h.pos, h.startPos, h.lastMatchPos, h.matchPos, h.firstDelimiterPos⟩

theorem Within.root (h : s.Within) : (s.root t).Within :=
  ⟨h.pos, h.startPos, h.lastMatchPos, h.matchPos, h.firstDelimiterPos⟩

theorem startAtNewline_moves (h : s.Within) (hprev : prevByteBufPos < s.input.storage.size)
    (hstart : s.startAtNewline t nextChar prevByteBufPos = .ok s') : s.MovesLexer s' := by
  unfold startAtNewline at hstart
  obtain ⟨s₁, hs₁, hstart⟩ := exists_of_bind_eq_ok hstart
  obtain ⟨state, -, hstart⟩ := exists_of_bind_eq_ok hstart
  cases hstart
  obtain ⟨hinput, hwithin⟩ := processChar_moves h.root hs₁
  refine ⟨hinput, hwithin.pos, ?_, hwithin.lastMatchPos, hwithin.pos, hwithin.firstDelimiterPos⟩
  show prevByteBufPos < s₁.input.storage.size
  rw [hinput]
  exact hprev

/-- Scanning keeps the input, and stays in the storage. -/
structure Frame (s s' : Scanner) : Prop where
  input : s.input.SameInput s'.input
  within : s'.Within

theorem Frame.trans {s'' : Scanner} (h : s.Frame s') (h' : s'.Frame s'') : s.Frame s'' :=
  ⟨h.input.trans h'.input, h'.within⟩

theorem MovesLexer.frame (h : s.MovesLexer s') : s.Frame s' :=
  ⟨h.input ▸ .refl _, h.within⟩

/-- What a read of a character does to the scanner. -/
theorem Within.getNextCharacter (h : s.Within) {input : ParserInputBuffer}
    {result : Except ErrorCode UInt8} (hget : s.input.getNextCharacter = (result, input)) :
    s.Frame { s with input := input } := by
  obtain ⟨hsame, hpos⟩ := ParserInputBuffer.getNextCharacter_frame hget
  refine ⟨hsame, hpos h.pos, ?_, ?_, ?_, fun f hf => ?_⟩ <;>
    show _ < input.storage.size <;> rw [hsame.size]
  · exact h.startPos
  · exact h.lastMatchPos
  · exact h.matchPos
  · exact h.firstDelimiterPos f hf

/-- A loop that asks for more data is out of bounds. -/
def OutOfBounds (s : Scanner) (err : ErrorCode) : Prop :=
  s.input.getNextCharacter = (.error err, s.input)

theorem Within.getNextCharacter_error (h : s.Within) {input : ParserInputBuffer} {err : ErrorCode}
    (hget : s.input.getNextCharacter = (.error err, input)) :
    s.Frame ⟨{ s.lexer with askedForMoreData := true }, input⟩ ∧
      OutOfBounds ⟨{ s.lexer with askedForMoreData := true }, input⟩ err := by
  obtain ⟨hsame, hwithin⟩ := h.getNextCharacter hget
  obtain ⟨-, rfl⟩ := ParserInputBuffer.getNextCharacter_error hget
  exact ⟨⟨hsame, hwithin.pos, hwithin.startPos, hwithin.lastMatchPos, hwithin.matchPos,
    hwithin.firstDelimiterPos⟩, hget⟩

theorem skip_frame (h : s.Within) (hprev : prevByteBufPos < s.input.storage.size)
    {result : Except ErrorCode Nat}
    (hskip : s.skip t fuel nextChar prevByteBufPos = .ok (s', result)) :
    s.Frame s' ∧ (∀ pos, result = .ok pos → pos < s'.input.storage.size) ∧
      ∀ err, result = .error err → s'.OutOfBounds err := by
  induction fuel generalizing s nextChar prevByteBufPos with
  | zero =>
    unfold skip at hskip
    split at hskip
    · cases hskip
    · cases hskip
      refine ⟨⟨.refl _, h⟩, fun pos hpos => ?_, fun err herr => ?_⟩
      · cases hpos
        exact hprev
      · cases herr
  | succ fuel ih =>
    unfold skip at hskip
    split at hskip
    · dsimp only at hskip
      split at hskip
      · rename_i err input hget
        cases hskip
        obtain ⟨hframe, hout⟩ := h.getNextCharacter_error hget
        refine ⟨hframe, fun pos hpos => ?_, fun err' herr => ?_⟩
        · cases hpos
        · cases herr
          exact hout
      · rename_i next input hget
        have hframe := h.getNextCharacter hget
        have hpos : s.input.storage.pos < input.storage.size := by
          rw [hframe.input.size]
          exact h.pos
        obtain ⟨hrest, hok, herr⟩ := ih hframe.within hpos hskip
        exact ⟨hframe.trans hrest, hok, herr⟩
    · cases hskip
      refine ⟨⟨.refl _, h⟩, fun pos hpos => ?_, fun err herr => ?_⟩
      · cases hpos
        exact hprev
      · cases herr

/-- What a part of `scan` returns: a token of the storage, or an error that the
next character gives again. -/
structure Returns (s : Scanner) (result : ScanResult) : Prop where
  ok : ∀ token, result = .ok token → s.Holds token
  error : ∀ err, result = .error err → s.OutOfBounds err

theorem returns_ok {token : Token} (h : s.Holds token) : s.Returns (.ok token) where
  ok := by
    intro token' htoken
    cases htoken
    exact h
  error := by
    intro err herr
    cases herr

theorem releaseStaticText_frame (h : s.Within) {f : Nat} (hf : f < s.input.storage.size) :
    s.Frame (s.releaseStaticText f).1 ∧ (s.releaseStaticText f).1.Holds (s.releaseStaticText f).2 :=
  ⟨⟨.refl _, h.pos, h.startPos, hf, h.matchPos, h.firstDelimiterPos⟩, h.lastMatchPos, hf⟩

theorem releaseMatch_frame (h : s.Within) :
    s.Frame (s.releaseMatch t).1 ∧ (s.releaseMatch t).1.Holds (s.releaseMatch t).2 := by
  refine ⟨⟨.refl _, h.pos, h.startPos, h.matchPos, h.matchPos, fun f hf => ?_⟩, h.startPos,
    h.matchPos⟩
  cases hf

theorem finishMatch_frame (h : s.Within) :
    s.Frame (s.finishMatch t).1 ∧ (s.finishMatch t).1.Holds (s.finishMatch t).2 := by
  have hmoved : Within { lexer := { s.lexer with line := s.lexer.matchLine }
                         input := (s.input.setLogFullyConsumed false).setPos s.lexer.matchPos } :=
    ⟨h.matchPos, h.startPos, h.lastMatchPos, h.matchPos, h.firstDelimiterPos⟩
  unfold finishMatch
  dsimp only
  split
  · exact ⟨⟨⟨rfl, rfl, rfl, rfl, rfl, rfl⟩, hmoved⟩, h.lastMatchPos, h.startPos⟩
  · obtain ⟨hframe, hholds⟩ := releaseMatch_frame (t := t) hmoved
    exact ⟨⟨⟨rfl, rfl, rfl, rfl, rfl, rfl⟩, hframe.within⟩, hholds⟩

theorem finishInput_frame (h : s.Within) :
    s.Frame s.finishInput.1 ∧ s.finishInput.1.Holds s.finishInput.2 := by
  unfold finishInput
  split
  · split
    · rename_i f hf
      exact releaseStaticText_frame h (h.firstDelimiterPos f hf)
    · exact ⟨⟨.refl _, h.pos, h.startPos, h.lastMatchPos, h.pos, h.firstDelimiterPos⟩,
        h.lastMatchPos, h.startPos⟩
  · exact ⟨⟨.refl _, h⟩, h.pos, h.pos⟩

theorem finish_frame (h : s.Within) (hprev : prevByteBufPos < s.input.storage.size)
    {result : Option ScanResult}
    (hfinish : s.finish t fuel nextChar prevByteBufPos = .ok (s', result)) :
    s.Frame s' ∧ ∀ r, result = some r → s'.Returns r := by
  unfold finish at hfinish
  split at hfinish
  · cases hfinish
    obtain ⟨hframe, hholds⟩ := finishMatch_frame (t := t) h
    refine ⟨hframe, fun r hr => ?_⟩
    cases hr
    exact returns_ok hholds
  · split at hfinish
    · cases hfinish
      obtain ⟨hframe, hholds⟩ := finishInput_frame h
      refine ⟨hframe, fun r hr => ?_⟩
      cases hr
      exact returns_ok hholds
    · split at hfinish
      · rename_i f hf
        cases hfinish
        obtain ⟨hframe, hholds⟩ := releaseStaticText_frame h (h.firstDelimiterPos f hf)
        refine ⟨hframe, fun r hr => ?_⟩
        cases hr
        exact returns_ok hholds
      · obtain ⟨⟨s₁, r₁⟩, hskip, hfinish⟩ := exists_of_bind_eq_ok hfinish
        obtain ⟨hframe, hok, herr⟩ := skip_frame h.root hprev hskip
        dsimp only at hfinish
        split at hfinish
        · cases hfinish
          refine ⟨⟨hframe.input, hframe.within⟩, fun r hr => ?_⟩
          cases hr
          exact ⟨fun _ h => (by cases h), fun err h => by cases h; exact herr _ rfl⟩
        · cases hfinish
          have hpos := hok _ rfl
          have hwithin := hframe.within
          refine ⟨⟨hframe.input.trans ⟨rfl, rfl, rfl, rfl, rfl, rfl⟩, hpos, hpos,
            hwithin.lastMatchPos, hwithin.matchPos, hwithin.firstDelimiterPos⟩, fun r hr => ?_⟩
          cases hr

theorem scanChar_frame (h : s.Within) (hprev : prevByteBufPos < s.input.storage.size)
    {result : Option ScanResult}
    (hscan : s.scanChar t fuel nextChar prevByteBufPos = .ok (s', result)) :
    s.Frame s' ∧ ∀ r, result = some r → s'.Returns r := by
  unfold scanChar at hscan
  have hnote : s.MovesLexer (s.noteDelimiter t nextChar prevByteBufPos) :=
    noteDelimiter_moves h hprev
  obtain ⟨s₁, hs₁, hscan⟩ := exists_of_bind_eq_ok hscan
  have hrecord := recordMatch_moves hnote.within (by rw [hnote.input]; exact hprev) hs₁
  obtain ⟨s₂, hs₂, hscan⟩ := exists_of_bind_eq_ok hscan
  have hprocess := processChar_moves hrecord.within hs₂
  have hinput : s₂.input = s.input := hprocess.input.trans (hrecord.input.trans hnote.input)
  have hcount : s.MovesLexer
      (if nextChar = 10 then { s₂ with lexer := { s₂.lexer with line := s₂.lexer.line + 1 } }
        else s₂) := by
    split
    · exact ⟨hinput, hprocess.within.pos, hprocess.within.startPos, hprocess.within.lastMatchPos,
        hprocess.within.matchPos, hprocess.within.firstDelimiterPos⟩
    · exact ⟨hinput, hprocess.within⟩
  dsimp only at hscan
  generalize (if nextChar = 10 then
    { s₂ with lexer := { s₂.lexer with line := s₂.lexer.line + 1 } } else s₂) = s₃ at hcount hscan
  have hprev' : prevByteBufPos < s₃.input.storage.size := by
    rw [hcount.input]
    exact hprev
  split at hscan
  · obtain ⟨s₄, hs₄, hscan⟩ := exists_of_bind_eq_ok hscan
    cases hscan
    refine ⟨hcount.frame.trans (startAtNewline_moves hcount.within hprev' hs₄).frame,
      fun r hr => ?_⟩
    cases hr
  · split at hscan
    · obtain ⟨hframe, hreturns⟩ := finish_frame hcount.within hprev' hscan
      exact ⟨hcount.frame.trans hframe, hreturns⟩
    · cases hscan
      refine ⟨hcount.frame, fun r hr => ?_⟩
      cases hr

theorem scanStep_frame (h : s.Within) {result : Option ScanResult}
    (hstep : s.scanStep t fuel = .ok (s', result)) :
    s.Frame s' ∧ ∀ r, result = some r → s'.Returns r := by
  unfold scanStep at hstep
  split at hstep
  · rename_i err input hget
    cases hstep
    obtain ⟨hframe, hout⟩ := h.getNextCharacter_error hget
    refine ⟨hframe, fun r hr => ?_⟩
    cases hr
    exact ⟨fun _ h => (by cases h), fun err h => by cases h; exact hout⟩
  · rename_i next input hget
    have hframe := h.getNextCharacter hget
    have hpos : s.input.storage.pos < input.storage.size := by
      rw [hframe.input.size]
      exact h.pos
    obtain ⟨hrest, hreturns⟩ := scanChar_frame hframe.within hpos hstep
    exact ⟨hframe.trans hrest, hreturns⟩

theorem scanLoop_frame (h : s.Within) {result : ScanResult}
    (hloop : s.scanLoop t fuel = .ok (s', result)) : s.Frame s' ∧ s'.Returns result := by
  induction fuel generalizing s with
  | zero => cases hloop
  | succ fuel ih =>
    obtain ⟨⟨s₁, r₁⟩, hstep, hloop⟩ := exists_of_bind_eq_ok hloop
    obtain ⟨hframe, hreturns⟩ := scanStep_frame h hstep
    cases r₁ with
    | none =>
      obtain ⟨hrest, hresult⟩ := ih hframe.within hloop
      exact ⟨hframe.trans hrest, hresult⟩
    | some r =>
      cases hloop
      exact ⟨hframe, hreturns _ rfl⟩

theorem begin_frame (h : s.Within) : s.Frame (s.begin t) := by
  unfold begin
  cases hf : s.lexer.firstDelimiterPos with
  | none =>
    refine ⟨.refl _, h.pos, h.pos, h.lastMatchPos, h.pos, fun f hf' => ?_⟩
    cases hf'
  | some f =>
    have hlt := h.firstDelimiterPos f hf
    refine ⟨⟨rfl, rfl, rfl, rfl, rfl, rfl⟩, hlt, hlt, h.lastMatchPos, hlt, fun f' hf' => ?_⟩
    cases hf'

/-- A call of `scan` returns a token of the storage, or it is out of bounds. -/
theorem scan_frame (h : s.Within) {result : ScanResult}
    (hscan : s.scan t fuel = .ok (s', result)) : s.Frame s' ∧ s'.Returns result := by
  unfold scan at hscan
  split at hscan
  · have hwithin : Within { s with lexer := { s.lexer with askedForMoreData := false } } :=
      ⟨h.pos, h.startPos, h.lastMatchPos, h.matchPos, h.firstDelimiterPos⟩
    obtain ⟨hframe, hreturns⟩ := scanLoop_frame hwithin hscan
    exact ⟨⟨hframe.input, hframe.within⟩, hreturns⟩
  · split at hscan
    · cases hscan
      obtain ⟨hframe, hholds⟩ := releaseMatch_frame (t := t) h.root
      exact ⟨⟨hframe.input, hframe.within⟩, returns_ok hholds⟩
    · have hbegin := begin_frame (t := t) h
      obtain ⟨hframe, hreturns⟩ := scanLoop_frame hbegin.within hscan
      exact ⟨hbegin.trans hframe, hreturns⟩

end Scanner

namespace LogParser

/-- The positions of the parser lie in the storage. -/
structure Within (p : LogParser) : Prop where
  scanner : Scanner.Within { lexer := p.lexer, input := p.inputBuffer }
  consumedPos : p.inputBuffer.consumedPos < p.inputBuffer.storage.size

/-- Parsing keeps what is read of the input, and stays in the storage. -/
structure Frame (p p' : LogParser) : Prop where
  size : p'.inputBuffer.storage.size = p.inputBuffer.storage.size
  bytes : p'.inputBuffer.storage.getActiveBuffer = p.inputBuffer.storage.getActiveBuffer
  lastReadFirstHalf : p'.inputBuffer.lastReadFirstHalf = p.inputBuffer.lastReadFirstHalf
  finished : p'.inputBuffer.finishedReadingInput = p.inputBuffer.finishedReadingInput
  posLastReadChar : p'.inputBuffer.posLastReadChar = p.inputBuffer.posLastReadChar
  within : p'.Within

variable {t : LexerTables} {p p' : LogParser} {token : Token} {fuel steps : Nat}

theorem Frame.refl (h : p.Within) : p.Frame p := ⟨rfl, rfl, rfl, rfl, rfl, h⟩

theorem Frame.trans {p'' : LogParser} (h : p.Frame p') (h' : p'.Frame p'') : p.Frame p'' :=
  ⟨h'.size.trans h.size, h'.bytes.trans h.bytes, h'.lastReadFirstHalf.trans h.lastReadFirstHalf,
    h'.finished.trans h.finished, h'.posLastReadChar.trans h.posLastReadChar, h'.within⟩

/-- The token lies in the storage of the parser. -/
def Holds (p : LogParser) (token : Token) : Prop :=
  Scanner.Holds { lexer := p.lexer, input := p.inputBuffer } token

/-- The next character is out of bounds. -/
def OutOfBounds (p : LogParser) (err : ErrorCode) : Prop :=
  p.inputBuffer.getNextCharacter = (.error err, p.inputBuffer)

theorem getNextSymbol_frame (h : p.Within) {result : ScanResult}
    (hsymbol : p.getNextSymbol t fuel = .ok (p', result)) :
    p.Frame p' ∧ (∀ token, result = .ok token → p'.Holds token) ∧
      ∀ err, result = .error err → p'.OutOfBounds err := by
  unfold getNextSymbol at hsymbol
  obtain ⟨⟨s, r⟩, hscan, hsymbol⟩ := exists_of_bind_eq_ok hsymbol
  cases hsymbol
  obtain ⟨hframe, hreturns⟩ := Scanner.scan_frame h.scanner hscan
  have hinput := hframe.input
  refine ⟨⟨hinput.size, hinput.bytes, hinput.lastReadFirstHalf, hinput.finished,
    hinput.posLastReadChar, hframe.within, ?_⟩, hreturns.ok, hreturns.error⟩
  show s.input.consumedPos < s.input.storage.size
  rw [hinput.consumedPos, hinput.size]
  exact h.consumedPos

/-- The lexer stays as it is, and the input too but for a consumed position of
the token. -/
structure NotesConsumed (token : Token) (p p' : LogParser) : Prop where
  lexer : p'.lexer = p.lexer
  input : p'.inputBuffer = p.inputBuffer ∨
    p'.inputBuffer = p.inputBuffer.setConsumedPos token.startPos ∨
    p'.inputBuffer = p.inputBuffer.setConsumedPos token.endPos

theorem NotesConsumed.frame (h : NotesConsumed token p p') (hwithin : p.Within)
    (hholds : p.Holds token) : p.Frame p' := by
  obtain ⟨hlexer, hinput | hinput | hinput⟩ := h <;>
    refine ⟨congrArg (·.storage.size) hinput, congrArg (·.storage.getActiveBuffer) hinput,
      congrArg (·.lastReadFirstHalf) hinput, congrArg (·.finishedReadingInput) hinput,
      congrArg (·.posLastReadChar) hinput, ?_, ?_⟩ <;> rw [hinput]
  · rw [hlexer]
    exact hwithin.scanner
  · exact hwithin.consumedPos
  · rw [hlexer]
    exact ⟨hwithin.scanner.pos, hwithin.scanner.startPos, hwithin.scanner.lastMatchPos,
      hwithin.scanner.matchPos, hwithin.scanner.firstDelimiterPos⟩
  · exact hholds.1
  · rw [hlexer]
    exact ⟨hwithin.scanner.pos, hwithin.scanner.startPos, hwithin.scanner.lastMatchPos,
      hwithin.scanner.matchPos, hwithin.scanner.firstDelimiterPos⟩
  · exact hholds.2

theorem addToEvent_notes {action : Option ParsingAction}
    (hadd : p.addToEvent token = .ok (p', action)) : NotesConsumed token p p' := by
  obtain ⟨tokenType, -, hadd⟩ := exists_of_bind_eq_ok hadd
  dsimp only at hadd
  split at hadd
  · cases hadd
    exact ⟨rfl, Or.inl rfl⟩
  · split at hadd
    · cases hadd
      exact ⟨rfl, Or.inr (Or.inr rfl)⟩
    · split at hadd
      · cases hadd
        exact ⟨rfl, Or.inr (Or.inl rfl)⟩
      · cases hadd
        exact ⟨rfl, Or.inl rfl⟩

/-- The first token of an event only goes to the output buffer. -/
theorem beginEvent_keeps {action : Option ParsingAction}
    (hbegin : p.beginEvent t token = .ok (p', action)) :
    p'.lexer = p.lexer ∧ p'.inputBuffer = p.inputBuffer := by
  obtain ⟨typeId, -, hbegin⟩ := exists_of_bind_eq_ok hbegin
  dsimp only at hbegin
  split at hbegin
  · cases hbegin
    exact ⟨rfl, rfl⟩
  · split at hbegin
    · obtain ⟨p₁, hp₁, hbegin⟩ := exists_of_bind_eq_ok hbegin
      rw [beginWithHeader_eq] at hp₁
      obtain ⟨timestamp, -, hp₁⟩ := exists_of_bind_eq_ok hp₁
      cases hp₁
      cases hbegin
      exact ⟨rfl, rfl⟩
    · cases hbegin
      exact ⟨rfl, rfl⟩

theorem beginEvent_frame (h : p.Within) {action : Option ParsingAction}
    (hbegin : p.beginEvent t token = .ok (p', action)) : p.Frame p' := by
  obtain ⟨hlexer, hinput⟩ := beginEvent_keeps hbegin
  refine ⟨by rw [hinput], by rw [hinput], by rw [hinput], by rw [hinput], by rw [hinput],
    ?_, ?_⟩
  · rw [hlexer, hinput]
    exact h.scanner
  · rw [hinput]
    exact h.consumedPos

theorem parseLoop_frame (h : p.Within) {result : Except ErrorCode ParsingAction}
    (hloop : p.parseLoop t fuel steps = .ok (p', result)) :
    p.Frame p' ∧ ∀ err, result = .error err → p'.OutOfBounds err := by
  induction steps generalizing p with
  | zero => cases hloop
  | succ steps ih =>
    obtain ⟨⟨p₁, r₁⟩, hsymbol, hloop⟩ := exists_of_bind_eq_ok hloop
    obtain ⟨hframe, htoken, herr⟩ := getNextSymbol_frame h hsymbol
    cases r₁ with
    | error err =>
      cases hloop
      refine ⟨hframe, fun err' herr' => ?_⟩
      cases herr'
      exact herr _ rfl
    | ok token =>
      obtain ⟨⟨p₂, r₂⟩, hadd, hloop⟩ := exists_of_bind_eq_ok hloop
      have hnotes := (addToEvent_notes hadd).frame hframe.within (htoken _ rfl)
      cases r₂ with
      | some action =>
        cases hloop
        exact ⟨hframe.trans hnotes, fun err herr => by cases herr⟩
      | none =>
        obtain ⟨hrest, hout⟩ := ih hnotes.within hloop
        exact ⟨(hframe.trans hnotes).trans hrest, hout⟩

theorem parseFirst_frame (h : p.Within) {result : Except ErrorCode (Option ParsingAction)}
    (hfirst : p.parseFirst t fuel = .ok (p', result)) :
    p.Frame p' ∧ ∀ err, result = .error err → p'.OutOfBounds err := by
  unfold parseFirst at hfirst
  split at hfirst
  · obtain ⟨⟨p₁, action⟩, hbegin, hfirst⟩ := exists_of_bind_eq_ok hfirst
    cases hfirst
    exact ⟨beginEvent_frame h hbegin, fun err herr => by cases herr⟩
  · obtain ⟨⟨p₁, r₁⟩, hsymbol, hfirst⟩ := exists_of_bind_eq_ok hfirst
    obtain ⟨hframe, htoken, herr⟩ := getNextSymbol_frame h hsymbol
    cases r₁ with
    | error err =>
      cases hfirst
      refine ⟨hframe, fun err' herr' => ?_⟩
      cases herr'
      exact herr _ rfl
    | ok token =>
      obtain ⟨typeId, -, hfirst⟩ := exists_of_bind_eq_ok hfirst
      have hholds := htoken _ rfl
      dsimp only at hfirst
      split at hfirst
      · cases hfirst
        have hnotes : NotesConsumed token p₁ (p₁.beginWithNewline token) :=
          ⟨rfl, Or.inr (Or.inl rfl)⟩
        exact ⟨hframe.trans (hnotes.frame hframe.within hholds), fun err herr => by cases herr⟩
      · obtain ⟨⟨p₂, action⟩, hbegin, hfirst⟩ := exists_of_bind_eq_ok hfirst
        cases hfirst
        exact ⟨hframe.trans (beginEvent_frame hframe.within hbegin), fun err herr => by cases herr⟩

/-- A parse ends an event, or the buffer is out of bounds. -/
theorem parse_frame (h : p.Within) {result : Except ErrorCode ParsingAction}
    (hparse : p.parse t fuel = .ok (p', result)) :
    p.Frame p' ∧ ∀ err, result = .error err → p'.OutOfBounds err := by
  unfold parse at hparse
  split at hparse
  · obtain ⟨⟨p₁, r₁⟩, hfirst, hparse⟩ := exists_of_bind_eq_ok hparse
    obtain ⟨hframe, herr⟩ := parseFirst_frame h hfirst
    rcases r₁ with err | (_ | action)
    · cases hparse
      refine ⟨hframe, fun err' herr' => ?_⟩
      cases herr'
      exact herr _ rfl
    · obtain ⟨hrest, hout⟩ := parseLoop_frame hframe.within hparse
      exact ⟨hframe.trans hrest, hout⟩
    · cases hparse
      exact ⟨hframe, fun err herr => by cases herr⟩
  · exact parseLoop_frame h hparse

end LogParser

end LogSurgeon
