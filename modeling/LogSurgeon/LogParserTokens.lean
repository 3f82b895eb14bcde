import LogSurgeon.LexerRefinement
import LogSurgeon.LexerTokens
import LogSurgeon.LogParser

/-!
# The log parser on tokens

What a parse does depends on the lexer only through the tokens that it returns.
`Parses` says which event a list of tokens makes and what is left of them for
the next event, and `Chain` says that the tokens lie one behind the other in
the text.  A call of `parse` reads such a chain and makes its event
(`LogParser.parse_spec`).
-/

namespace LogSurgeon

/-! ## Events -/

/-- What an output buffer shows of an event. -/
structure Event where
  hasHeader : Bool
  timestamp : Option (List UInt8)
  tokens : List Token

namespace Event

def ofBuffer (b : LogParserOutputBuffer) : Event where
  hasHeader := b.hasHeader
  timestamp := b.timestamp
  tokens := b.tokens

def add (event : Event) (token : Token) : Event :=
  { event with tokens := event.tokens ++ [token] }

def toString (event : Event) : List UInt8 := event.tokens.flatMap (·.toString)

end Event

namespace LogParserOutputBuffer

theorem start_le (b : LogParserOutputBuffer) : b.start ≤ 1 := by
  unfold start
  split
  · exact Nat.zero_le _
  · exact Nat.le_refl _

theorem start_congr {b b' : LogParserOutputBuffer} (h : b.hasHeader = b'.hasHeader) :
    b.start = b'.start := by
  unfold start
  rw [h]

/-- The slot behind the tokens of the event does not count. -/
theorem ofBuffer_setCurrToken (b : LogParserOutputBuffer) (token : Token) :
    Event.ofBuffer (b.setCurrToken token) = Event.ofBuffer b := by
  have hstart : (b.setCurrToken token).start = b.start := start_congr (by simp)
  unfold Event.ofBuffer
  congr 1
  unfold tokens
  rw [hstart, pos_setCurrToken]
  apply List.map_congr_left
  intro i hi
  have hlt : i < b.pos := by
    obtain ⟨hle, hlt⟩ := List.mem_range'_1.1 hi
    omega
  rw [getToken_setCurrToken, if_neg hlt.ne]

/-- A token that is added is the last one of the event. -/
theorem ofBuffer_advanceToNextToken {b : LogParserOutputBuffer} (h : 1 ≤ b.pos) (token : Token) :
    Event.ofBuffer (b.setCurrToken token).advanceToNextToken = (Event.ofBuffer b).add token := by
  have hstart : (b.setCurrToken token).advanceToNextToken.start = b.start :=
    start_congr (by simp)
  unfold Event.ofBuffer Event.add
  congr 1
  · simp
  · simp
  · rw [tokens_eq_drop, filled_advanceToNextToken, hstart, tokens_eq_drop]
    rw [List.drop_append_of_le_length]
    rw [length_filled]
    exact (b.start_le).trans h

end LogParserOutputBuffer

/-! ## Parsing tokens -/

/-- What a parse does with the tokens that it reads. -/
structure Parsed where
  event : Event
  /-- The token that is kept for the next event. -/
  startOfLog : Option Token
  result : Except ErrorCode ParsingAction

/-- The token starts the next event behind its newline. -/
def Event.FoundStartOfNext (event : Event) (token : Token) (tokenType : Nat) : Prop :=
  token.getFirstChar = 10 ∧
    if event.hasHeader then tokenType = SymbolId.tokenHeader.toNat
    else tokenType ≠ SymbolId.tokenNewline.toNat

/-- The tokens that are read behind the tokens of the event, and what comes of
them. -/
inductive Extends : Event → List Token → Parsed → Prop where
  | outOfData {event : Event} : Extends event [] ⟨event, none, .error .bufferOutOfBounds⟩
  | finish {event : Event} {token : Token}
      (htype : token.firstTypeId = .ok SymbolId.tokenEnd.toNat) :
      Extends event [token] ⟨event, none, .ok .compressAndFinish⟩
  /-- A newline token ends an event without a header. -/
  | newline {event : Event} {token : Token} (hheader : event.hasHeader = false)
      (htype : token.firstTypeId = .ok SymbolId.tokenNewline.toNat) :
      Extends event [token] ⟨event.add token, none, .ok .compress⟩
  /-- The newline in front of the token ends the event. -/
  | split {event : Event} {token : Token} {tokenType : Nat}
      (htype : token.firstTypeId = .ok tokenType) (hend : tokenType ≠ SymbolId.tokenEnd.toNat)
      (hfound : event.FoundStartOfNext token tokenType) :
      Extends event [token]
        ⟨event.add (LogParser.newlineOf token), some token.incrementStartPos, .ok .compress⟩
  | next {event : Event} {token : Token} {tokens : List Token} {parsed : Parsed} {tokenType : Nat}
      (htype : token.firstTypeId = .ok tokenType) (hend : tokenType ≠ SymbolId.tokenEnd.toNat)
      (hnewline : event.hasHeader = false → tokenType ≠ SymbolId.tokenNewline.toNat)
      (hfound : ¬ event.FoundStartOfNext token tokenType)
      (hrest : Extends (event.add token) tokens parsed) :
      Extends event (token :: tokens) parsed

/-- The tokens of an event stay, and so do its header and its timestamp. -/
theorem Extends.event {event : Event} {tokens : List Token} {parsed : Parsed}
    (h : Extends event tokens parsed) :
    parsed.event.hasHeader = event.hasHeader ∧ parsed.event.timestamp = event.timestamp ∧
      ∃ added, parsed.event.tokens = event.tokens ++ added := by
  induction h with
  | outOfData => exact ⟨rfl, rfl, [], (List.append_nil _).symm⟩
  | finish => exact ⟨rfl, rfl, [], (List.append_nil _).symm⟩
  | newline => exact ⟨rfl, rfl, _, rfl⟩
  | split => exact ⟨rfl, rfl, _, rfl⟩
  | @next event token _ _ _ _ _ _ _ _ ih =>
    obtain ⟨hheader, htimestamp, added, hadded⟩ := ih
    refine ⟨hheader, htimestamp, token :: added, hadded.trans ?_⟩
    show (event.tokens ++ [token]) ++ added = _
    rw [List.append_assoc]
    rfl

/-- The token that ends an event and is no part of the next one is a newline. -/
theorem Extends.firstTypeId_of_compress {event : Event} {token : Token} {parsed : Parsed}
    (h : Extends event [token] parsed) (hresult : parsed.result = .ok .compress)
    (hkept : parsed.startOfLog = none) :
    token.firstTypeId = .ok SymbolId.tokenNewline.toNat := by
  cases h with
  | finish => cases hresult
  | newline _ htype => exact htype
  | split => cases hkept
  | next _ _ _ _ hrest =>
    cases hrest
    cases hresult

/-- The timestamp of the event that starts with the token. -/
def LogParser.headerTimestamp (t : LexerTables) (token : Token) :
    Except Fault (Option (List UInt8)) :=
  match t.getCapturesFromRuleId SymbolId.tokenHeader.toNat with
  | some captures => LogParser.timestampOf t token captures
  | none => .ok none

/-- The event that starts with the token. -/
inductive Begins (t : LexerTables) (token : Token) : List Token → Parsed → Prop where
  | finish (htype : token.firstTypeId = .ok SymbolId.tokenEnd.toNat) :
      Begins t token [] ⟨⟨false, none, []⟩, none, .ok .compressAndFinish⟩
  | header {tokens : List Token} {parsed : Parsed} {timestamp : Option (List UInt8)}
      (htype : token.firstTypeId = .ok SymbolId.tokenHeader.toNat)
      (htimestamp : LogParser.headerTimestamp t token = .ok timestamp)
      (hrest : Extends ⟨true, timestamp, [token]⟩ tokens parsed) : Begins t token tokens parsed
  | other {tokens : List Token} {parsed : Parsed} {typeId : Nat}
      (htype : token.firstTypeId = .ok typeId) (hend : typeId ≠ SymbolId.tokenEnd.toNat)
      (hheader : typeId ≠ SymbolId.tokenHeader.toNat)
      (hrest : Extends ⟨false, none, [token]⟩ tokens parsed) : Begins t token tokens parsed

/-- A token that is not kept from the last event is a header behind a newline. -/
def Token.IsHeaderBehindNewline (token : Token) : Prop :=
  token.firstTypeId = .ok SymbolId.tokenHeader.toNat ∧ token.getFirstChar = 10

/-- A parse that starts with the token that is kept from the last event, and
reads the tokens. -/
inductive Parses (t : LexerTables) : Option Token → List Token → Parsed → Prop where
  | outOfData : Parses t none [] ⟨⟨false, none, []⟩, none, .error .bufferOutOfBounds⟩
  | kept {token : Token} {tokens : List Token} {parsed : Parsed}
      (hbegins : Begins t token tokens parsed) : Parses t (some token) tokens parsed
  /-- The newline in front of a header is an event. -/
  | newline {token : Token} (h : token.IsHeaderBehindNewline) :
      Parses t none [token]
        ⟨⟨false, none, [LogParser.newlineOf token]⟩, some token.incrementStartPos,
          .ok .compress⟩
  | read {token : Token} {tokens : List Token} {parsed : Parsed}
      (h : ¬ token.IsHeaderBehindNewline) (hbegins : Begins t token tokens parsed) :
      Parses t none (token :: tokens) parsed

/-- A parse ends an event or the input, or asks for more data. -/
def Parsed.Ends (parsed : Parsed) : Prop :=
  parsed.result = .ok .compress ∨ parsed.result = .ok .compressAndFinish ∨
    parsed.result = .error .bufferOutOfBounds

theorem Extends.ends {event : Event} {tokens : List Token} {parsed : Parsed}
    (h : Extends event tokens parsed) : parsed.Ends := by
  induction h with
  | outOfData => exact Or.inr (Or.inr rfl)
  | finish => exact Or.inr (Or.inl rfl)
  | newline => exact Or.inl rfl
  | split => exact Or.inl rfl
  | next _ _ _ _ _ ih => exact ih

theorem Begins.ends {t : LexerTables} {token : Token} {tokens : List Token} {parsed : Parsed}
    (h : Begins t token tokens parsed) : parsed.Ends := by
  cases h with
  | finish => exact Or.inr (Or.inl rfl)
  | header _ _ hrest => exact hrest.ends
  | other _ _ _ hrest => exact hrest.ends

theorem Parses.ends {t : LexerTables} {startOfLog : Option Token} {tokens : List Token}
    {parsed : Parsed} (h : Parses t startOfLog tokens parsed) : parsed.Ends := by
  cases h with
  | outOfData => exact Or.inr (Or.inr rfl)
  | kept hbegins => exact hbegins.ends
  | newline => exact Or.inl rfl
  | read _ hbegins => exact hbegins.ends

/-! ## Tokens behind one another -/

namespace Cursor

variable {t : LexerTables} {src : Source} {opening : Option Opening} {c c' : Cursor}

/-- The next token starts at the position. -/
inductive At (t : LexerTables) (src : Source) (c : Cursor) : Option Opening → Nat → Prop where
  | opened {o : Opening} (h : c.Opened t src o) : At t src c (some o) 0
  | rested (h : c.Rested t src) : At t src c none c.emitted

theorem At.le_size {q : Nat} (h : c.At t src opening q) : q ≤ src.size := by
  cases h with
  | opened => exact Nat.zero_le _
  | rested h => exact h.emitted_le

/-- A call that returns a token returns a lexeme, and the next one starts
behind it. -/
theorem At.scans (ht : t.WellFormed) {q : Nat} (h : c.At t src opening q) {span : Span}
    (hscans : Scans t src c c' (.ok span)) :
    Lexeme t src opening q span ∧ c'.At t src none span.endPos := by
  cases h with
  | opened h =>
    obtain ⟨hlexeme, hrested, hend⟩ := h.scans ht hscans
    rw [hend]
    exact ⟨hlexeme, .rested hrested⟩
  | rested h =>
    obtain ⟨hlexeme, hrested, hend⟩ := h.scans ht hscans
    rw [hend]
    exact ⟨hlexeme, .rested hrested⟩

/-- The loop ends without a token only if more of the text follows. -/
theorem Loops.error {err : ErrorCode} (h : Loops t src c c' (.error err)) :
    err = .bufferOutOfBounds ∧ ¬ src.finished := by
  generalize hresult : (Except.error err : Result) = result at h
  induction h with
  | stop hstep =>
    rw [← hresult] at hstep
    obtain ⟨herr, hfinished, -⟩ := step_error hstep
    exact ⟨herr, hfinished⟩
  | next _ _ ih => exact ih hresult

theorem Scans.error {err : ErrorCode} (h : Scans t src c c' (.error err)) :
    err = .bufferOutOfBounds ∧ ¬ src.finished := by
  unfold Scans at h
  split at h
  · exact h.error
  · split at h
    · cases h.2
    · exact h.error

/-- A match that is returned leaves nothing to be read again. -/
theorem Finishes.rests {prevByteBufPos : Nat} {span : Span}
    (h : Finishes src prevByteBufPos c c' span) (htext : span.typeIds ≠ cTokenUncaughtStringTypes)
    (hend : span.typeIds ≠ cTokenEndTypes) : c'.matched = none ∧ c'.firstDelimiterPos = none := by
  cases h with
  | beforeMatch => exact absurd rfl htext
  | «match» => exact ⟨rfl, rfl⟩
  | lastText => exact absurd rfl htext
  | input => exact absurd rfl hend
  | text => exact absurd rfl htext

theorem Loops.rests {span : Span} (h : Loops t src c c' (.ok span))
    (htext : span.typeIds ≠ cTokenUncaughtStringTypes) (hend : span.typeIds ≠ cTokenEndTypes) :
    c'.matched = none ∧ c'.firstDelimiterPos = none := by
  generalize hresult : (Except.ok span : Result) = result at h
  induction h with
  | stop hstep =>
    rw [← hresult] at hstep
    exact (step_ok hstep).2.2.rests htext hend
  | next _ _ ih => exact ih hresult

theorem Scans.rests {span : Span} (h : Scans t src c c' (.ok span))
    (htext : span.typeIds ≠ cTokenUncaughtStringTypes) (hend : span.typeIds ≠ cTokenEndTypes) :
    c'.matched = none ∧ c'.firstDelimiterPos = none := by
  unfold Scans at h
  split at h
  · exact h.rests htext hend
  · split at h
    · rw [h.1]
      exact ⟨rfl, rfl⟩
    · exact h.rests htext hend

/-- Behind a match, the input goes on where the next token starts. -/
theorem At.pos_eq {q : Nat} (h : c.At t src none q)
    (hrests : c.matched = none ∧ c.firstDelimiterPos = none) : c.pos = q := by
  cases h with
  | rested hrested =>
    obtain ⟨hpos, -⟩ := hrested.idle hrests.1
    rw [hrests.2] at hpos
    rw [emitted_of_none hrests.1]
    exact hpos

/-- A match behind the first position is not empty. -/
theorem MatchAt.lt (ht : t.WellFormed) {i j : Nat} {ids : List Nat}
    (h : MatchAt t src none i j ids) : i < j := by
  obtain ⟨⟨base, origin, p, hruns, hle, hrun, hids⟩, hne, -, -⟩ := h
  cases hruns with
  | root =>
    refine Nat.lt_of_le_of_ne hle ?_
    rintro rfl
    rw [Source.word_self] at hrun
    cases hrun
    exact hne (hids.symm.trans ht.root)
  | opening ho => cases ho

/-- A token either ends the input or goes beyond its start. -/
theorem Lexeme.lt_or (ht : t.WellFormed) {i : Nat} {span : Span}
    (h : Lexeme t src none i span) :
    i < span.endPos ∨ i = src.size ∧ span.endPos = src.size ∧ span.typeIds = cTokenEndTypes := by
  cases h with
  | text hlt => exact Or.inl hlt
  | «variable» hmatch => exact Or.inl (hmatch.lt ht)
  | input hend => exact Or.inr ⟨hend, hend, rfl⟩

theorem Lexeme.le_size {i : Nat} {span : Span} (h : Lexeme t src opening i span) :
    span.endPos ≤ src.size := by
  cases h with
  | text _ hle => exact hle
  | «variable» hmatch => exact hmatch.le_size
  | input hend => exact hend.le

theorem Lexeme.startPos {i : Nat} {span : Span} (h : Lexeme t src opening i span) :
    span.startPos = i := by
  cases h <;> rfl

/-- Every token has a type. -/
theorem Lexeme.typeIds_ne_nil {i : Nat} {span : Span} (h : Lexeme t src opening i span) :
    span.typeIds ≠ [] := by
  cases h with
  | text => exact List.cons_ne_nil _ _
  | «variable» hmatch => exact hmatch.ne_nil
  | input => exact List.cons_ne_nil _ _

theorem Lexeme.le {i : Nat} {span : Span} (h : Lexeme t src opening i span) :
    i ≤ span.endPos := by
  cases h with
  | text hlt => exact hlt.le
  | «variable» hmatch =>
    obtain ⟨base, origin, p, hruns, hle, -⟩ := hmatch.run
    cases hruns with
    | root => exact hle
    | opening _ hstart => exact hstart.le.trans (Nat.zero_le _)
  | input => exact Nat.le_refl _

end Cursor

/-- The token is a lexeme of the text. -/
def Token.IsLexeme (t : LexerTables) (src : Source) (opening : Option Opening) (i j : Nat)
    (token : Token) : Prop :=
  ∃ span : Span, token.Covers t src span ∧ Cursor.Lexeme t src opening i span ∧ span.endPos = j

/-- Tokens of the text that lie one behind the other, from position `i` to
position `j`.  The opening counts for the first one. -/
inductive Chain (t : LexerTables) (src : Source) :
    Option Opening → Nat → List Token → Option Opening → Nat → Prop where
  | nil {opening : Option Opening} {i : Nat} : Chain t src opening i [] opening i
  | cons {opening opening' : Option Opening} {i j k : Nat} {token : Token} {tokens : List Token}
      (hlexeme : token.IsLexeme t src opening i j)
      (hrest : Chain t src none j tokens opening' k) :
      Chain t src opening i (token :: tokens) opening' k

/-- What is left of a token of the text that starts with a newline and ends at
the position, without the newline. -/
def Token.IsKept (t : LexerTables) (src : Source) (q : Nat) (token : Token) : Prop :=
  ∃ (opening : Option Opening) (i : Nat) (whole : Token) (tokenType : Nat),
    whole.IsLexeme t src opening i q ∧ whole.firstTypeId = .ok tokenType ∧
      tokenType ≠ SymbolId.tokenEnd.toNat ∧ whole.getFirstChar = 10 ∧
      token = whole.incrementStartPos

/-- The calls of `scan` between the cursors return the tokens. -/
inductive Cursor.Reads (t : LexerTables) (src : Source) : Cursor → List Token → Cursor → Prop where
  | nil {c : Cursor} : Reads t src c [] c
  | cons {c c' c'' : Cursor} {span : Span} {token : Token} {tokens : List Token}
      (hscans : Scans t src c c' (.ok span)) (hcovers : token.Covers t src span)
      (hrest : Reads t src c' tokens c'') : Reads t src c (token :: tokens) c''

theorem Cursor.Reads.append {t : LexerTables} {src : Source} {c c' c'' : Cursor}
    {tokens tokens' : List Token} (h : Reads t src c tokens c') (h' : Reads t src c' tokens' c'') :
    Reads t src c (tokens ++ tokens') c'' := by
  induction h with
  | nil => exact h'
  | cons hscans hcovers _ ih => exact .cons hscans hcovers (ih h')

section Chain

variable {t : LexerTables} {src : Source} {opening opening' : Option Opening} {i j : Nat}
  {token left : Token} {tokens : List Token} {event : Event} {parsed : Parsed}

theorem Chain.le (h : Chain t src opening i tokens opening' j) : i ≤ j := by
  induction h with
  | nil => exact Nat.le_refl _
  | cons hlexeme _ ih =>
    obtain ⟨span, -, hlexeme, hend⟩ := hlexeme
    rw [← hend] at ih
    exact hlexeme.le.trans ih

theorem Extends.isKept (hextends : Extends event tokens parsed)
    (hchain : Chain t src opening i tokens opening' j) (hkept : parsed.startOfLog = some left) :
    left.IsKept t src j := by
  induction hextends generalizing opening i with
  | outOfData => cases hkept
  | finish => cases hkept
  | newline => cases hkept
  | @split event token tokenType htype hend hfound =>
    cases hchain with
    | cons hlexeme hrest =>
      cases hrest with
      | nil =>
        cases hkept
        exact ⟨opening, i, token, tokenType, hlexeme, htype, hend, hfound.1, rfl⟩
  | next _ _ _ _ _ ih =>
    cases hchain with
    | cons _ hrest => exact ih hrest hkept

theorem Begins.isKept (hbegins : Begins t token tokens parsed)
    (hchain : Chain t src opening i tokens opening' j) (hkept : parsed.startOfLog = some left) :
    left.IsKept t src j := by
  cases hbegins with
  | finish => cases hkept
  | header _ _ hrest => exact hrest.isKept hchain hkept
  | other _ _ _ hrest => exact hrest.isKept hchain hkept

/-- The token that is kept for the next event comes from the last token that is
read. -/
theorem Parses.isKept {startOfLog : Option Token} (hparses : Parses t startOfLog tokens parsed)
    (hchain : Chain t src opening i tokens opening' j) (hkept : parsed.startOfLog = some left) :
    left.IsKept t src j := by
  cases hparses with
  | outOfData => cases hkept
  | kept hbegins => exact hbegins.isKept hchain hkept
  | newline h =>
    cases hchain with
    | cons hlexeme hrest =>
      cases hrest with
      | nil =>
        cases hkept
        exact ⟨opening, i, _, _, hlexeme, h.1, by decide, h.2, rfl⟩
  | read _ hbegins =>
    cases hchain with
    | cons _ hrest => exact hbegins.isKept hrest hkept

end Chain

namespace LogParser

open Cursor

def scanner (p : LogParser) : Scanner := { lexer := p.lexer, input := p.inputBuffer }

/-- The parser stands between two tokens of the text. -/
structure StandsAt (t : LexerTables) (src : Source) (opening : Option Opening) (q : Nat)
    (p : LogParser) : Prop where
  resting : p.scanner.Resting t src
  position : (ofScanner p.scanner).At t src opening q

variable {t : LexerTables} {src : Source} {opening : Option Opening} {q fuel : Nat}
  {p : LogParser}

/-- The next symbol is a lexeme, or more data is asked for. -/
theorem StandsAt.getNextSymbol (ht : t.WellFormed) (h : p.StandsAt t src opening q)
    (hfuel : 2 * src.size + 1 < fuel) :
    ∃ s result, p.getNextSymbol t fuel =
        .ok ({ p with lexer := s.lexer, inputBuffer := s.input }, result) ∧
      s.Resting t src ∧
      ((∃ token j, result = .ok token ∧ token.IsLexeme t src opening q j ∧
          (ofScanner s).At t src none j ∧
          (token.firstTypeId = .ok SymbolId.tokenNewline.toNat → s.input.storage.pos = j) ∧
          Reads t src (ofScanner p.scanner) [token] (ofScanner s)) ∨
        result = .error .bufferOutOfBounds ∧ ¬ src.finished) := by
  obtain ⟨s, result, result', hscan, hresting, hscans, hdelivers⟩ :=
    Scanner.scan_refines ht h.resting hfuel
  have hsymbol : p.getNextSymbol t fuel =
      .ok ({ p with lexer := s.lexer, inputBuffer := s.input }, result) := by
    unfold LogParser.getNextSymbol
    have hscan : Scanner.scan t fuel { lexer := p.lexer, input := p.inputBuffer } =
      .ok (s, result) := hscan
    rw [hscan]
    rfl
  refine ⟨s, result, hsymbol, hresting, ?_⟩
  cases result' with
  | error err =>
    cases result with
    | error err' =>
      obtain ⟨herr, hfinished⟩ := hscans.error
      have hsame : err = err' := hdelivers
      rw [← hsame, herr]
      exact Or.inr ⟨rfl, hfinished⟩
    | ok token => exact hdelivers.elim
  | ok span =>
    cases result with
    | error err => exact hdelivers.elim
    | ok token =>
      obtain ⟨hlexeme, hat⟩ := h.position.scans ht hscans
      have hcovers : token.Covers t src span := hdelivers
      refine Or.inl ⟨token, span.endPos, rfl, ⟨span, hcovers, hlexeme, rfl⟩, hat, fun htype => ?_,
        .cons hscans hcovers .nil⟩
      have hother : ∀ id, SymbolId.tokenNewline.toNat ≠ id → span.typeIds ≠ [id] := by
        intro id hne htypes
        unfold Token.firstTypeId at htype
        rw [hcovers.typeIds, htypes] at htype
        exact hne (Except.ok.inj htype).symm
      exact hat.pos_eq (hscans.rests (hother _ (by decide)) (hother _ (by decide)))

/-- The token that is kept for the next event. -/
def startOfLog (p : LogParser) : Option Token :=
  if p.hasStartOfLog then some p.startOfLogMessage else none

/-- A part of a parse that reads tokens from the position on and makes what
`parsed` says. -/
structure Makes (t : LexerTables) (src : Source) (opening : Option Opening) (q : Nat)
    (c : Cursor) (tokens : List Token) (parsed : Parsed) (p' : LogParser) : Prop where
  event : Event.ofBuffer p'.outputBuffer = parsed.event
  startOfLog : p'.startOfLog = parsed.startOfLog
  chain : ∃ opening' q', Chain t src opening q tokens opening' q' ∧
    (∀ action, parsed.result = .ok action → p'.StandsAt t src opening' q') ∧
    (parsed.result = .ok .compress → parsed.startOfLog = none → p'.getInputPos = q')
  outOfData : ∀ err, parsed.result = .error err → ¬ src.finished
  reads : ∀ action, parsed.result = .ok action →
    Reads t src c tokens (ofScanner p'.scanner)

/-- The tokens that a parse may still read, which each go beyond their start. -/
def tokensLeft (src : Source) (opening : Option Opening) (q : Nat) : Nat :=
  src.size - q + opening.elim 0 fun _ => 1

theorem firstTypeId_of_covers {token : Token} {span : Span} (h : token.Covers t src span) {id : Nat}
    {ids : List Nat} (hids : span.typeIds = id :: ids) : token.firstTypeId = .ok id := by
  unfold Token.firstTypeId
  rw [h.typeIds, hids]
  rfl

/-- The first type of a token of the text, which ends the input only if no text
is left. -/
theorem exists_firstTypeId (ht : t.WellFormed) {token : Token} {j : Nat}
    (h : token.IsLexeme t src opening q j) :
    ∃ id, token.firstTypeId = .ok id ∧
      (id ≠ SymbolId.tokenEnd.toNat → tokensLeft src none j < tokensLeft src opening q) := by
  obtain ⟨span, hcovers, hlexeme, rfl⟩ := h
  obtain ⟨id, ids, hids⟩ := List.exists_cons_of_ne_nil hlexeme.typeIds_ne_nil
  refine ⟨id, firstTypeId_of_covers hcovers hids, fun hend => ?_⟩
  have hsize := hlexeme.le_size
  have hle := hlexeme.le
  unfold tokensLeft
  cases opening with
  | some o =>
    show src.size - span.endPos + 0 < src.size - q + 1
    omega
  | none =>
    show src.size - span.endPos + 0 < src.size - q + 0
    rcases hlexeme.lt_or ht with hlt | ⟨-, -, htypes⟩
    · omega
    · rw [htypes] at hids
      cases hids
      exact absurd rfl hend

/-- Where the input goes on does not depend on what is consumed. -/
theorem getInputPos_of_scanner {input : ParserInputBuffer}
    (hinput : p.inputBuffer = input ∨ ∃ k, p.inputBuffer = input.setConsumedPos k) :
    p.getInputPos = input.storage.pos := by
  unfold getInputPos
  rcases hinput with heq | ⟨k, heq⟩
  · rw [heq]
  · rw [heq]
    rfl

theorem ofScanner_of_scanner {s : Scanner} (hlexer : p.lexer = s.lexer)
    (hinput : p.inputBuffer = s.input ∨ ∃ k, p.inputBuffer = s.input.setConsumedPos k) :
    ofScanner p.scanner = ofScanner s := by
  have hpos : p.inputBuffer.storage.pos = s.input.storage.pos := getInputPos_of_scanner hinput
  unfold ofScanner scanner
  dsimp only
  rw [hlexer, hpos]

/-- Where a parser stands depends on its lexer and its input buffer only, whatever
part of the input is consumed. -/
theorem standsAt_of_scanner {s : Scanner} (hresting : s.Resting t src)
    (hat : (ofScanner s).At t src opening q) (hlexer : p.lexer = s.lexer)
    (hinput : p.inputBuffer = s.input ∨ ∃ k, p.inputBuffer = s.input.setConsumedPos k) :
    p.StandsAt t src opening q := by
  have hholds : p.inputBuffer.Holds src := by
    rcases hinput with heq | ⟨k, heq⟩
    · rw [heq]
      exact hresting.input
    · rw [heq]
      exact ⟨hresting.input.finished, hresting.input.bytes, hresting.input.size,
        hresting.input.posLastReadChar, hresting.input.lastReadFirstHalf, hresting.input.pos_le,
        hresting.input.consumed⟩
  have hcursor := ofScanner_of_scanner hlexer hinput
  refine ⟨⟨⟨hholds, ?_, ?_, ?_, ?_⟩, ?_⟩, ?_⟩
  · show t.dfa.HasRegisters p.lexer.regHandler
    rw [hlexer]
    exact hresting.registers
  · show ∀ i, p.lexer.state = some i → _
    rw [hlexer]
    exact hresting.state
  · show p.lexer.isMatch = true → p.lexer.typeIds.isSome ∧ p.lexer.matchPos ≤ src.size
    rw [hlexer]
    exact hresting.isMatch
  · show ∀ f, p.lexer.firstDelimiterPos = some f → _
    rw [hlexer]
    exact hresting.firstDelimiterPos
  · show p.lexer.askedForMoreData = true → p.lexer.state ≠ none
    rw [hlexer]
    exact hresting.resumes
  · rw [hcursor]
    exact hat

/-- What a token does to the event: it ends the event, it ends it with its
newline, or it goes to the event. -/
theorem addToEvent_cases (p : LogParser) {token : Token} {id : Nat}
    (htype : token.firstTypeId = .ok id) (hpos : 1 ≤ p.outputBuffer.pos) :
    ∃ p' action, p.addToEvent token = .ok (p', action) ∧ p'.lexer = p.lexer ∧
      (p'.inputBuffer = p.inputBuffer ∨ ∃ k, p'.inputBuffer = p.inputBuffer.setConsumedPos k) ∧
      1 ≤ p'.outputBuffer.pos ∧ p'.outputBuffer.getToken 0 = p.outputBuffer.getToken 0 ∧
      ((action = none ∧ id ≠ SymbolId.tokenEnd.toNat ∧
          ((Event.ofBuffer p.outputBuffer).hasHeader = false →
            id ≠ SymbolId.tokenNewline.toNat) ∧
          ¬ (Event.ofBuffer p.outputBuffer).FoundStartOfNext token id ∧
          Event.ofBuffer p'.outputBuffer = (Event.ofBuffer p.outputBuffer).add token ∧
          p'.hasStartOfLog = p.hasStartOfLog) ∨
        ∃ parsed, Extends (Event.ofBuffer p.outputBuffer) [token] parsed ∧
          ∃ last, action = some last ∧ parsed.result = .ok last ∧
            Event.ofBuffer p'.outputBuffer = parsed.event ∧
            (p.hasStartOfLog = false → p'.startOfLog = parsed.startOfLog)) := by
  obtain ⟨b, hb⟩ : ∃ b, p.outputBuffer.setCurrToken token = b := ⟨_, rfl⟩
  have hevent : Event.ofBuffer b = Event.ofBuffer p.outputBuffer := by
    rw [← hb]
    exact LogParserOutputBuffer.ofBuffer_setCurrToken _ _
  have hposb : b.pos = p.outputBuffer.pos := by
    rw [← hb]
    exact LogParserOutputBuffer.pos_setCurrToken _ _
  have hslot : b.getToken 0 = p.outputBuffer.getToken 0 := by
    rw [← hb, LogParserOutputBuffer.getToken_setCurrToken, if_neg (by omega)]
  have hadd : Event.ofBuffer b.advanceToNextToken = (Event.ofBuffer p.outputBuffer).add token := by
    rw [← hb]
    exact LogParserOutputBuffer.ofBuffer_advanceToNextToken hpos token
  have haddSlot : b.advanceToNextToken.getToken 0 = p.outputBuffer.getToken 0 := by
    rw [LogParserOutputBuffer.getToken_advanceToNextToken _ (Nat.zero_le _), hslot]
  have hheader : b.hasHeader = (Event.ofBuffer p.outputBuffer).hasHeader := by
    rw [← hevent]
    rfl
  unfold LogParser.addToEvent
  simp only [bind, Except.bind, htype, pure, Except.pure, hb]
  by_cases hend : id = SymbolId.tokenEnd.toNat
  · rw [if_pos hend]
    rw [hend] at htype
    refine ⟨_, _, rfl, rfl, Or.inl rfl, ?_, hslot, Or.inr ⟨_, .finish htype, _, rfl, rfl, hevent, ?_⟩⟩
    · exact hposb.symm ▸ hpos
    · intro hstart
      unfold LogParser.startOfLog
      simp only [hstart]
      rfl
  · rw [if_neg hend]
    by_cases hnewline : ¬ b.hasHeader = true ∧ id = SymbolId.tokenNewline.toNat
    · rw [if_pos hnewline]
      rw [hnewline.2] at htype
      rw [hheader, Bool.not_eq_true] at hnewline
      refine ⟨_, _, rfl, rfl, Or.inr ⟨_, rfl⟩, ?_, haddSlot,
        Or.inr ⟨_, .newline hnewline.1 htype, _, rfl, rfl, hadd, ?_⟩⟩
      · show 1 ≤ b.advanceToNextToken.pos
        rw [LogParserOutputBuffer.pos_advanceToNextToken]
        exact Nat.le_add_left 1 _
      · intro hstart
        unfold LogParser.startOfLog endWithNewline
        simp only [hstart]
        rfl
    · rw [if_neg hnewline]
      have hfound : LogParser.FoundStartOfNextMessage { p with outputBuffer := b } token id ↔
          (Event.ofBuffer p.outputBuffer).FoundStartOfNext token id := by
        unfold LogParser.FoundStartOfNextMessage Event.FoundStartOfNext
        rw [← hheader]
        cases b.hasHeader <;> simp [and_comm]
      by_cases hnext : (Event.ofBuffer p.outputBuffer).FoundStartOfNext token id
      · rw [if_pos (hfound.2 hnext)]
        refine ⟨_, _, rfl, rfl, Or.inr ⟨_, rfl⟩, ?_, ?_,
          Or.inr ⟨_, .split htype hend hnext, _, rfl, rfl, ?_, fun _ => rfl⟩⟩
        · show 1 ≤ (b.setCurrToken (newlineOf token)).advanceToNextToken.pos
          rw [LogParserOutputBuffer.pos_advanceToNextToken]
          exact Nat.le_add_left 1 _
        · show (b.setCurrToken (newlineOf token)).advanceToNextToken.getToken 0 = _
          rw [LogParserOutputBuffer.getToken_advanceToNextToken _ (Nat.zero_le _),
            LogParserOutputBuffer.getToken_setCurrToken, if_neg (by omega), hslot]
        · show Event.ofBuffer (b.setCurrToken (newlineOf token)).advanceToNextToken = _
          rw [LogParserOutputBuffer.ofBuffer_advanceToNextToken (hposb.symm ▸ hpos), hevent]
      · rw [if_neg fun hyes => hnext (hfound.1 hyes)]
        refine ⟨_, _, rfl, rfl, Or.inl rfl, ?_, haddSlot,
          Or.inl ⟨rfl, hend, fun hno heq => hnewline ⟨?_, heq⟩, hnext, hadd, rfl⟩⟩
        · show 1 ≤ b.advanceToNextToken.pos
          rw [LogParserOutputBuffer.pos_advanceToNextToken]
          exact Nat.le_add_left 1 _
        · rw [hheader, hno]
          exact Bool.false_ne_true

/-- The loop makes the rest of the event. -/
theorem StandsAt.parseLoop (ht : t.WellFormed) (h : p.StandsAt t src opening q)
    (hfuel : 2 * src.size + 1 < fuel) {steps : Nat} (hsteps : tokensLeft src opening q < steps)
    (hpos : 1 ≤ p.outputBuffer.pos) (hstart : p.hasStartOfLog = false) :
    ∃ p' tokens parsed, p.parseLoop t fuel steps = .ok (p', parsed.result) ∧
      Extends (Event.ofBuffer p.outputBuffer) tokens parsed ∧
      Makes t src opening q (ofScanner p.scanner) tokens parsed p' ∧ 1 ≤ p'.outputBuffer.pos ∧
      p'.outputBuffer.getToken 0 = p.outputBuffer.getToken 0 := by
  induction steps generalizing p opening q with
  | zero => exact absurd hsteps (Nat.not_lt_zero _)
  | succ steps ih =>
    obtain ⟨s, result, hsymbol, hresting, hresult⟩ := h.getNextSymbol ht hfuel
    unfold LogParser.parseLoop
    simp only [bind, Except.bind, hsymbol]
    rcases hresult with ⟨token, j, rfl, hlexeme, hat, hpos₀, hreads⟩ | ⟨rfl, hfinished⟩
    · obtain ⟨id, htype, hprogress⟩ := exists_firstTypeId ht hlexeme
      obtain ⟨p', action, hadd, hlexer, hinput, hpos', hslot, hcases⟩ := addToEvent_cases
        { p with lexer := s.lexer, inputBuffer := s.input } htype hpos
      have hstands : p'.StandsAt t src none j := standsAt_of_scanner hresting hat hlexer hinput
      have hcursor := ofScanner_of_scanner (s := s) hlexer hinput
      simp only [hadd]
      rcases hcases with ⟨rfl, hend, hnewline, hfound, hevent, hkept⟩ |
        ⟨parsed, hextends, last, rfl, hlast, hevent, hkept⟩
      · have hleft := hprogress hend
        obtain ⟨p'', tokens, parsed, hparse, hextends, hmakes, hpos'', hslot'⟩ :=
          ih hstands (by omega) hpos' (hkept.trans hstart)
        obtain ⟨opening', q', hchain, hends⟩ := hmakes.chain
        rw [hevent] at hextends
        refine ⟨p'', token :: tokens, parsed, hparse,
          .next htype hend hnewline hfound hextends,
          ⟨hmakes.event, hmakes.startOfLog, ⟨opening', q', .cons hlexeme hchain, hends⟩,
            hmakes.outOfData, fun action haction => ?_⟩, hpos'', hslot'.trans hslot⟩
        have hrest := hmakes.reads action haction
        rw [hcursor] at hrest
        exact hreads.append hrest
      · refine ⟨p', [token], parsed, ?_, hextends,
          ⟨hevent, hkept hstart, ⟨none, j, .cons hlexeme .nil, fun _ _ => hstands,
            fun hcompress hnone => ?_⟩, ?_, fun _ _ => hcursor ▸ hreads⟩, hpos', hslot⟩
        · rw [hlast]
          rfl
        · rw [getInputPos_of_scanner hinput]
          exact hpos₀ (hextends.firstTypeId_of_compress hcompress hnone)
        · intro err herr
          rw [hlast] at herr
          cases herr
    · refine ⟨_, [], ⟨_, none, .error .bufferOutOfBounds⟩, rfl, .outOfData, ⟨rfl, ?_, ?_, ?_, ?_⟩,
        hpos, rfl⟩
      · unfold LogParser.startOfLog
        simp only [hstart]
        rfl
      · refine ⟨_, _, .nil, fun action haction => ?_, fun haction => ?_⟩
        · cases haction
        · cases haction
      · exact fun _ _ => hfinished
      · intro action haction
        cases haction

/-- A header is read for its timestamp. -/
theorem beginWithHeader_eq (p : LogParser) (token : Token) :
    p.beginWithHeader t token = (headerTimestamp t token).map fun timestamp =>
      { p with
        outputBuffer :=
          { hasHeader := true, timestamp := timestamp
            storage := ((p.outputBuffer.setToken 0 token).setPos 1).storage } } := by
  unfold LogParser.beginWithHeader headerTimestamp
  cases t.getCapturesFromRuleId SymbolId.tokenHeader.toNat with
  | none => rfl
  | some captures =>
    simp only [bind, Except.bind, pure, Except.pure]
    cases timestampOf t token captures <;> rfl

/-- What the first token of the event does. -/
theorem beginEvent_cases (p : LogParser) {token : Token} {id : Nat}
    (htype : token.firstTypeId = .ok id) :
    (id = SymbolId.tokenEnd.toNat ∧
        ∃ p', p.beginEvent t token = .ok (p', some .compressAndFinish) ∧
          p'.lexer = p.lexer ∧ p'.inputBuffer = p.inputBuffer ∧
          p'.startOfLog = p.startOfLog ∧
          p'.outputBuffer.pos = 1 ∧ p'.outputBuffer.hasHeader = p.outputBuffer.hasHeader ∧
          p'.outputBuffer.timestamp = p.outputBuffer.timestamp) ∨
      (id = SymbolId.tokenHeader.toNat ∧ ∃ fault, headerTimestamp t token = .error fault ∧
        p.beginEvent t token = .error fault) ∨
      (id ≠ SymbolId.tokenEnd.toNat ∧ ∃ p' event,
        p.beginEvent t token = .ok (p', none) ∧ p'.lexer = p.lexer ∧
        p'.inputBuffer = p.inputBuffer ∧ p'.hasStartOfLog = false ∧ 1 ≤ p'.outputBuffer.pos ∧
        Event.ofBuffer p'.outputBuffer = event ∧ event.tokens = [token] ∧
        (event.hasHeader = true → p'.outputBuffer.getToken 0 = token) ∧
        (event.hasHeader = false →
          p'.outputBuffer.getToken 0 = p.outputBuffer.getToken 0) ∧
        ∀ tokens parsed, Extends event tokens parsed → Begins t token tokens parsed) := by
  unfold LogParser.beginEvent
  simp only [bind, Except.bind, htype, pure, Except.pure]
  by_cases hend : id = SymbolId.tokenEnd.toNat
  · rw [if_pos hend]
    exact Or.inl ⟨hend, _, rfl, rfl, rfl, rfl, rfl, rfl, rfl⟩
  · rw [if_neg hend]
    refine Or.inr ?_
    by_cases hheader : id = SymbolId.tokenHeader.toNat
    · rw [if_pos hheader]
      rw [beginWithHeader_eq]
      cases hread : headerTimestamp t token with
      | error fault => exact Or.inl ⟨hheader, fault, rfl, rfl⟩
      | ok timestamp =>
        refine Or.inr ⟨hend, _, ⟨true, timestamp, [token]⟩, rfl, rfl, rfl, rfl, Nat.le_refl 1,
          ?_, rfl, fun _ => ?_, (fun hno => by cases hno), fun tokens parsed hextends => ?_⟩
        · unfold Event.ofBuffer
          congr 1
          show [((p.outputBuffer.setToken 0 token).getToken 0)] = [token]
          rw [LogParserOutputBuffer.getToken_setToken, if_pos rfl]
        · show (p.outputBuffer.setToken 0 token).getToken 0 = token
          rw [LogParserOutputBuffer.getToken_setToken, if_pos rfl]
        · rw [hheader] at htype
          exact .header htype hread hextends
    · rw [if_neg hheader]
      refine Or.inr ⟨hend, _, ⟨false, none, [token]⟩, rfl, rfl, rfl, rfl, Nat.le_add_left 1 _,
        ?_, rfl, (fun hyes => by cases hyes), fun _ => ?_, fun tokens parsed hextends => ?_⟩
      · unfold Event.ofBuffer
        congr 1
        have hset := LogParserOutputBuffer.getToken_setToken
          { p.outputBuffer with hasHeader := false, timestamp := none } 1 1 token
        rw [if_pos rfl] at hset
        exact congrArg (fun token => [token]) hset
      · have hset := LogParserOutputBuffer.getToken_setToken
          { p.outputBuffer with hasHeader := false, timestamp := none } 1 0 token
        rw [if_neg Nat.zero_ne_one] at hset
        exact hset
      · exact .other htype hend hheader hextends

/-- What a parse that does not end the input leaves in the output buffer:
nothing, or the first token of the event in the slot of the header, where it
lies if the event has one. -/
def LeavesSlots (p p' : LogParser) (parsed : Parsed) : Prop :=
  parsed.result ≠ .ok .compressAndFinish →
    p'.outputBuffer.pos = 0 ∧ parsed.event.tokens = [] ∨
      1 ≤ p'.outputBuffer.pos ∧ ∃ token tokens, parsed.event.tokens = token :: tokens ∧
        p'.outputBuffer.getToken 0 =
          if parsed.event.hasHeader then token else p.outputBuffer.getToken 0

/-- The output buffer before an event. -/
structure Fresh (p : LogParser) : Prop where
  pos : p.outputBuffer.pos = 0
  hasHeader : p.outputBuffer.hasHeader = false
  timestamp : p.outputBuffer.timestamp = none

/-- The event that starts with the token, and the rest of the parse. -/
def beginAndLoop (t : LexerTables) (fuel : Nat) (p : LogParser) (token : Token) :
    Except Fault (LogParser × Except ErrorCode ParsingAction) := do
  match ← p.beginEvent t token with
  | (p, some action) => return (p, .ok action)
  | (p, none) => p.parseLoop t fuel fuel

/-- The first token makes an event with those that are read, unless it is a
header whose timestamp cannot be read. -/
theorem StandsAt.beginAndLoop (ht : t.WellFormed) (h : p.StandsAt t src opening q)
    (hfuel : 2 * src.size + 1 < fuel) (hfresh : p.Fresh) {token : Token} {id : Nat}
    (htype : token.firstTypeId = .ok id)
    (hend : id = SymbolId.tokenEnd.toNat → p.startOfLog = none) :
    (∃ p' tokens parsed, p.beginAndLoop t fuel token = .ok (p', parsed.result) ∧
        Begins t token tokens parsed ∧ Makes t src opening q (ofScanner p.scanner) tokens parsed p' ∧
        LeavesSlots p p' parsed) ∨
      ∃ fault, id = SymbolId.tokenHeader.toNat ∧ headerTimestamp t token = .error fault ∧
        p.beginAndLoop t fuel token = .error fault := by
  have hstands : ∀ p' : LogParser, p'.lexer = p.lexer → p'.inputBuffer = p.inputBuffer →
      p'.StandsAt t src opening q := fun p' hlexer hinput =>
    standsAt_of_scanner h.resting h.position hlexer (Or.inl hinput)
  have hcursor : ∀ p' : LogParser, p'.lexer = p.lexer → p'.inputBuffer = p.inputBuffer →
      ofScanner p'.scanner = ofScanner p.scanner := fun p' hlexer hinput =>
    ofScanner_of_scanner hlexer (Or.inl hinput)
  unfold LogParser.beginAndLoop
  rcases p.beginEvent_cases (t := t) htype with
    ⟨hid, p', hbegin, hlexer, hinput, hkept, hpos, hheader, htimestamp⟩ |
    ⟨hid, fault, hread, hbegin⟩ |
    ⟨-, p', event, hbegin, hlexer, hinput, hkept, hpos, hevent, htokens, hslot, hslot', hbegins⟩
  · rw [hbegin]
    rw [hid] at htype
    refine Or.inl ⟨p', [], ⟨⟨false, none, []⟩, none, .ok .compressAndFinish⟩, rfl, .finish htype,
      ⟨?_, hkept.trans (hend hid), ?_, (fun err herr => by cases herr), fun _ _ => ?_⟩,
      fun hne => absurd rfl hne⟩
    · unfold Event.ofBuffer
      rw [hheader, htimestamp, hfresh.hasHeader, hfresh.timestamp]
      congr 1
      unfold LogParserOutputBuffer.tokens LogParserOutputBuffer.start
      rw [hheader, hfresh.hasHeader, hpos]
      rfl
    · exact ⟨opening, q, .nil, fun _ _ => hstands p' hlexer hinput, fun haction => by cases haction⟩
    · rw [hcursor p' hlexer hinput]
      exact .nil
  · rw [hbegin]
    exact Or.inr ⟨fault, hid, hread, rfl⟩
  · rw [hbegin]
    have hsteps : tokensLeft src opening q < fuel := by
      unfold tokensLeft
      cases opening with
      | none =>
        show src.size - q + 0 < fuel
        omega
      | some o =>
        show src.size - q + 1 < fuel
        omega
    obtain ⟨p'', tokens, parsed, hloop, hextends, hmakes, hpos', hzero⟩ :=
      (hstands p' hlexer hinput).parseLoop ht hfuel hsteps hpos hkept
    rw [hevent] at hextends
    rw [hcursor p' hlexer hinput] at hmakes
    refine Or.inl ⟨p'', tokens, parsed, hloop, hbegins tokens parsed hextends, hmakes, ?_⟩
    obtain ⟨hheader, -, added, hadded⟩ := hextends.event
    rw [htokens] at hadded
    refine fun _ => Or.inr ⟨hpos', token, added, hadded, hzero.trans ?_⟩
    rw [hheader]
    split
    · rename_i hyes
      exact hslot hyes
    · rename_i hno
      exact hslot' (Bool.eq_false_iff.2 hno)

theorem parse_of_kept (hfresh : p.Fresh) (hstart : p.hasStartOfLog = true) :
    p.parse t fuel = p.beginAndLoop t fuel p.startOfLogMessage := by
  unfold LogParser.parse parseFirst LogParser.beginAndLoop
  rw [if_pos hfresh.pos, if_pos hstart]
  cases p.beginEvent t p.startOfLogMessage with
  | error fault => rfl
  | ok begun =>
    obtain ⟨p', action⟩ := begun
    cases action <;> rfl

theorem parse_of_error (hfresh : p.Fresh) (hstart : p.hasStartOfLog = false) {p' : LogParser}
    {err : ErrorCode} (hsymbol : p.getNextSymbol t fuel = .ok (p', .error err)) :
    p.parse t fuel = .ok (p', .error err) := by
  have hno : ¬ p.hasStartOfLog = true := by
    rw [hstart]
    exact Bool.false_ne_true
  unfold LogParser.parse parseFirst
  rw [if_pos hfresh.pos, if_neg hno]
  simp only [bind, Except.bind, hsymbol]
  rfl

theorem parse_of_token (hfresh : p.Fresh) (hstart : p.hasStartOfLog = false) {p' : LogParser}
    {token : Token} {id : Nat} (hsymbol : p.getNextSymbol t fuel = .ok (p', .ok token))
    (hfresh' : p'.Fresh) (htype : token.firstTypeId = .ok id) :
    p.parse t fuel =
      if id = SymbolId.tokenHeader.toNat ∧ token.getFirstChar = 10 then
        .ok (p'.beginWithNewline token, .ok .compress)
      else p'.beginAndLoop t fuel token := by
  have hno : ¬ p.hasStartOfLog = true := by
    rw [hstart]
    exact Bool.false_ne_true
  unfold LogParser.parse parseFirst LogParser.beginAndLoop
  rw [if_pos hfresh.pos, if_neg hno]
  simp only [bind, Except.bind, hsymbol, htype, hfresh'.hasHeader, Bool.false_eq_true,
    not_false_eq_true, true_and, pure, Except.pure]
  by_cases hnewline : id = SymbolId.tokenHeader.toNat ∧ token.getFirstChar = 10
  · rw [if_pos hnewline, if_pos hnewline]
  · rw [if_neg hnewline, if_neg hnewline]
    cases p'.beginEvent t token with
    | error fault => rfl
    | ok begun =>
      obtain ⟨p'', action⟩ := begun
      cases action <;> rfl

/-- Without a token that is kept, the first of the tokens is the next symbol. -/
def ReadsFirst (t : LexerTables) (fuel : Nat) (p : LogParser) (tokens : List Token) : Prop :=
  p.startOfLog = none → ∃ p' result, p.getNextSymbol t fuel = .ok (p', result) ∧
    ∀ token, result = .ok token ↔ tokens.head? = some token

theorem readsFirst_of_token {tokens : List Token} {p' : LogParser} {token : Token}
    (h : p.getNextSymbol t fuel = .ok (p', .ok token)) :
    ReadsFirst t fuel p (token :: tokens) := by
  refine fun _ => ⟨p', _, h, fun token' => ?_⟩
  rw [List.head?_cons, Except.ok.injEq, Option.some.injEq]

/-- A parse makes an event of the tokens that it reads, unless the first one is
a header whose timestamp cannot be read. -/
theorem StandsAt.parse (ht : t.WellFormed) (h : p.StandsAt t src opening q)
    (hfuel : 2 * src.size + 1 < fuel) (hfresh : p.Fresh)
    (hkept : ∀ token, p.startOfLog = some token →
      ∃ id, token.firstTypeId = .ok id ∧ id ≠ SymbolId.tokenEnd.toNat) :
    (∃ p' tokens parsed, p.parse t fuel = .ok (p', parsed.result) ∧
        Parses t p.startOfLog tokens parsed ∧ Makes t src opening q (ofScanner p.scanner) tokens parsed p' ∧
        LeavesSlots p p' parsed ∧ ReadsFirst t fuel p tokens) ∨
      ∃ token fault, token.firstTypeId = .ok SymbolId.tokenHeader.toNat ∧
        headerTimestamp t token = .error fault ∧ p.parse t fuel = .error fault ∧
        (p.startOfLog = some token ∨
          p.startOfLog = none ∧ ∃ p' j, p.getNextSymbol t fuel = .ok (p', .ok token) ∧
            token.IsLexeme t src opening q j) := by
  cases hstart : p.hasStartOfLog with
  | true =>
    have hlog : p.startOfLog = some p.startOfLogMessage := if_pos hstart
    obtain ⟨id, htype, hend⟩ := hkept _ hlog
    rw [parse_of_kept hfresh hstart, hlog]
    rcases h.beginAndLoop ht hfuel hfresh htype fun heq => absurd heq hend with
      ⟨p', tokens, parsed, hparse, hbegins, hmakes, hslots⟩ | ⟨fault, hid, hread, hparse⟩
    · refine Or.inl ⟨p', tokens, parsed, hparse, .kept hbegins, hmakes, hslots, fun hnone => ?_⟩
      rw [hlog] at hnone
      cases hnone
    · rw [hid] at htype
      exact Or.inr ⟨_, fault, htype, hread, hparse, Or.inl rfl⟩
  | false =>
    have hlog : p.startOfLog = none := if_neg (by rw [hstart]; exact Bool.false_ne_true)
    obtain ⟨s, result, hsymbol, hresting, hresult⟩ := h.getNextSymbol ht hfuel
    rw [hlog]
    rcases hresult with ⟨token, j, rfl, hlexeme, hat, -, hread⟩ | ⟨rfl, hfinished⟩
    · obtain ⟨id, htype, -⟩ := exists_firstTypeId ht hlexeme
      have hfresh' : ({ p with lexer := s.lexer, inputBuffer := s.input } : LogParser).Fresh :=
        ⟨hfresh.pos, hfresh.hasHeader, hfresh.timestamp⟩
      rw [parse_of_token hfresh hstart hsymbol hfresh' htype]
      by_cases hnewline : id = SymbolId.tokenHeader.toNat ∧ token.getFirstChar = 10
      · rw [if_pos hnewline]
        rw [hnewline.1] at htype
        refine Or.inl ⟨_, [token], _, rfl, .newline ⟨htype, hnewline.2⟩,
          ⟨?_, rfl, ?_, (fun err herr => by cases herr), fun _ _ => ?_⟩,
          fun _ => Or.inr ⟨?_, _, [], rfl, ?_⟩,
          readsFirst_of_token hsymbol⟩
        · unfold Event.ofBuffer LogParserOutputBuffer.tokens LogParserOutputBuffer.start
          have hheader : (({ p with lexer := s.lexer, inputBuffer := s.input } :
              LogParser).beginWithNewline token).outputBuffer.hasHeader = false :=
            hfresh.hasHeader
          have hpos : (({ p with lexer := s.lexer, inputBuffer := s.input } :
              LogParser).beginWithNewline token).outputBuffer.pos = 2 := rfl
          rw [hheader, hpos]
          congr 1
          · exact hfresh.timestamp
          · have hset := LogParserOutputBuffer.getToken_setToken p.outputBuffer 1 1
              (newlineOf token)
            rw [if_pos rfl] at hset
            exact congrArg (fun token => [token]) hset
        · exact ⟨none, j, .cons hlexeme .nil, fun _ _ =>
            standsAt_of_scanner hresting hat rfl (Or.inr ⟨_, rfl⟩), fun _ hnone => by cases hnone⟩
        · have hcursor : ofScanner (({ p with lexer := s.lexer, inputBuffer := s.input } :
              LogParser).beginWithNewline token).scanner = ofScanner s :=
            ofScanner_of_scanner rfl (Or.inr ⟨_, rfl⟩)
          rw [hcursor]
          exact hread
        · exact Nat.le_add_left 1 _
        · have hset := LogParserOutputBuffer.getToken_setToken p.outputBuffer 1 0 (newlineOf token)
          rw [if_neg Nat.zero_ne_one] at hset
          exact hset
      · rw [if_neg hnewline]
        have hstands : ({ p with lexer := s.lexer, inputBuffer := s.input } :
            LogParser).StandsAt t src none j := standsAt_of_scanner hresting hat rfl (Or.inl rfl)
        rcases hstands.beginAndLoop ht hfuel hfresh' htype fun _ => hlog with
          ⟨p', tokens, parsed, hparse, hbegins, hmakes, hslots⟩ | ⟨fault, hid, hread, hparse⟩
        · obtain ⟨opening', q', hchain, hends⟩ := hmakes.chain
          refine Or.inl ⟨p', token :: tokens, parsed, hparse, .read ?_ hbegins,
            ⟨hmakes.event, hmakes.startOfLog, ⟨opening', q', .cons hlexeme hchain, hends⟩,
              hmakes.outOfData, fun action haction => ?_⟩, hslots, readsFirst_of_token hsymbol⟩
          · rintro ⟨hheader, hchar⟩
            rw [htype] at hheader
            exact hnewline ⟨Except.ok.inj hheader, hchar⟩
          · have hrest := hmakes.reads action haction
            rw [ofScanner_of_scanner (s := s) rfl (Or.inl rfl)] at hrest
            exact hread.append hrest
        · rw [hid] at htype
          exact Or.inr ⟨token, fault, htype, hread, hparse, Or.inr ⟨rfl, _, j, hsymbol, hlexeme⟩⟩
    · have hparse : p.parse t fuel =
          .ok ({ p with lexer := s.lexer, inputBuffer := s.input },
            .error .bufferOutOfBounds) := parse_of_error hfresh hstart hsymbol
      refine Or.inl ⟨_, [], ⟨⟨false, none, []⟩, none, .error .bufferOutOfBounds⟩, hparse,
        .outOfData, ⟨?_, hlog, ⟨_, _, .nil, (fun action haction => by cases haction),
          fun haction => by cases haction⟩, (fun _ _ => hfinished),
          fun action haction => by cases haction⟩, fun _ => Or.inl ⟨hfresh.pos, rfl⟩,
        fun _ => ⟨_, _, hsymbol, fun token => by simp⟩⟩
      have hpos : p.outputBuffer.pos = 0 := hfresh.pos
      have hheader : p.outputBuffer.hasHeader = false := hfresh.hasHeader
      unfold Event.ofBuffer LogParserOutputBuffer.tokens LogParserOutputBuffer.start
      dsimp only
      rw [hheader, hpos, hfresh.timestamp]
      rfl

end LogParser

end LogSurgeon
