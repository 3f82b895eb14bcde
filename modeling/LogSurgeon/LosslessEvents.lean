import LogSurgeon.LineEvents

/-!
# The events make up the text

The events of a text that is all there make up the text again, and a header is the
first token of its event.  There are two exceptions at the start of the text, a
header without text in front of a newline and a header of an empty text whose
timestamp cannot be read.  And a match that the DFA takes for a header though it does not
start with a newline may come within an event (`keepsBytes_iff`).

* `Phase` is where the parser stands between two tokens.  `HeadersFit` says that the
  headers of a list of tokens start their events, and `Parses.followsPhase` that this
  is what a parse makes of them.
* `Awaits.makesUp` is the result for a run of calls.
-/

namespace LogSurgeon

/-! ## Phases -/

/-- Where the parser stands between two tokens. -/
inductive Phase where
  | between
  /-- Within an event without a header. -/
  | inLine
  | inHeader
deriving DecidableEq, Repr

namespace Span

def HasHeaderType (span : Span) : Prop := span.typeIds.head? = some SymbolId.tokenHeader.toNat

instance (span : Span) : Decidable span.HasNewlineType := inferInstanceAs (Decidable (_ = _))

instance (span : Span) : Decidable span.HasHeaderType := inferInstanceAs (Decidable (_ = _))

end Span

namespace Phase

/-- The phase of an event that starts with the span. -/
def start (span : Span) : Phase := if span.HasHeaderType then .inHeader else .inLine

/-- The phase behind a token.  Without a header, a newline ends the event, and the rest of
the token starts the next one. -/
def next (bytes : Nat → UInt8) (span : Span) : Phase → Phase
  | .between => start span
  | .inLine =>
    if span.HasNewlineType then .between
    else if bytes span.startPos = 10 then start span
    else .inLine
  | .inHeader => .inHeader

/-- The headers of the tokens start events. -/
def HeadersFit (bytes : Nat → UInt8) : Phase → List Span → Prop
  | _, [] => True
  | phase, span :: spans =>
    (phase ≠ .between → span.HasHeaderType → bytes span.startPos = 10) ∧
      HeadersFit bytes (phase.next bytes span) spans

/-- The phase behind the tokens. -/
def run (bytes : Nat → UInt8) (phase : Phase) (spans : List Span) : Phase :=
  spans.foldl (fun phase span => phase.next bytes span) phase

variable {bytes : Nat → UInt8} {phase : Phase}

/-- Tokens of other types fit. -/
theorem headersFit_of_types {spans : List Span} (h : ∀ span ∈ spans, ¬ span.HasHeaderType) :
    HeadersFit bytes phase spans := by
  induction spans generalizing phase with
  | nil => trivial
  | cons span spans ih =>
    obtain ⟨hspan, hspans⟩ := List.forall_mem_cons.1 h
    exact ⟨fun _ hheader => absurd hheader hspan, ih hspans⟩

end Phase

/-- The words of the headers start with a newline, or at the start of a file. -/
def LexerTables.HeadersStart (t : LexerTables) : Prop :=
  ∀ w p, t.dfa.run t.dfa.getRoot w = some p → SymbolId.tokenHeader.toNat ∈ t.dfa.typeIds p →
    w.head? = some 10 ∨ w.head? = some cCharStartOfFile

/-! ## The headers of an event -/

/-- Behind its first token, the event has no header. -/
def Event.HeaderFirst (event : Event) : Prop :=
  ∀ token ∈ event.tokens.tail, token.firstTypeId ≠ .ok SymbolId.tokenHeader.toNat

/-- The phase behind an event, where the token is kept for the next one. -/
def Phase.ofKept (startOfLog : Option Token) : Phase :=
  startOfLog.elim .between fun token => .start token.span

/-- The phase within an event. -/
def Phase.ofEvent (event : Event) : Phase := if event.hasHeader then .inHeader else .inLine

namespace Token

variable {token : Token} {id : Nat}

theorem hasHeaderType_iff (h : token.firstTypeId = .ok id) :
    token.span.HasHeaderType ↔ token.firstTypeId = .ok SymbolId.tokenHeader.toNat := by
  unfold Span.HasHeaderType
  rw [head?_of_firstTypeId h, h, Option.some.injEq, Except.ok.injEq]

theorem hasNewlineType_iff (h : token.firstTypeId = .ok id) :
    token.span.HasNewlineType ↔ id = SymbolId.tokenNewline.toNat := by
  unfold Span.HasNewlineType
  rw [head?_of_firstTypeId h, Option.some.injEq]

end Token

section Headers

variable {t : LexerTables} {src : Source} {opening opening' : Option Opening} {q q' : Nat}
  {token : Token} {tokens : List Token} {event : Event} {parsed : Parsed}

theorem Event.headerFirst_add (h : event.tokens ≠ []) :
    (event.add token).HeaderFirst ↔
      event.HeaderFirst ∧ token.firstTypeId ≠ .ok SymbolId.tokenHeader.toNat := by
  unfold HeaderFirst add
  rw [List.tail_append_of_ne_nil h, List.forall_mem_append, List.forall_mem_singleton]

theorem Event.headerFirst_single (hasHeader : Bool) (timestamp : Option (List UInt8))
    (token : Token) : (⟨hasHeader, timestamp, [token]⟩ : Event).HeaderFirst :=
  fun _ hmem => absurd hmem List.not_mem_nil

theorem Phase.ofEvent_ne_between : Phase.ofEvent event ≠ .between := by
  unfold ofEvent
  split <;> decide

/-- The token starts the next event, so that is where the parser stands behind it. -/
theorem Phase.next_of_foundStartOfNext {id : Nat} (htype : token.firstTypeId = .ok id)
    (h : event.FoundStartOfNext token id) (hbuffer : token.buffer = src.bytes) :
    (Phase.ofEvent event).next src.bytes token.span = .start token.span := by
  obtain ⟨hbyte, hfound⟩ := h
  have hbyte : src.bytes token.span.startPos = 10 := by
    rw [← hbuffer]
    exact hbyte
  unfold ofEvent
  split at hfound
  · rename_i hheader
    rw [hfound] at htype
    rw [if_pos hheader]
    show Phase.inHeader = start token.span
    unfold start
    rw [if_pos ((token.hasHeaderType_iff htype).2 htype)]
  · rename_i hheader
    rw [if_neg hheader]
    show (if token.span.HasNewlineType then _ else _) = _
    rw [if_neg fun hnewline => hfound ((token.hasNewlineType_iff htype).1 hnewline), if_pos hbyte]

/-- The token goes to the event, so the parser stays within it. -/
theorem Phase.next_of_not_foundStartOfNext {id : Nat} (htype : token.firstTypeId = .ok id)
    (hnewline : event.hasHeader = false → id ≠ SymbolId.tokenNewline.toNat)
    (h : ¬ event.FoundStartOfNext token id) (hbuffer : token.buffer = src.bytes) :
    (Phase.ofEvent event).next src.bytes token.span = Phase.ofEvent event := by
  unfold ofEvent
  split
  · rfl
  · rename_i hheader
    have hno := hnewline (Bool.eq_false_iff.2 hheader)
    show (if token.span.HasNewlineType then _ else _) = _
    rw [if_neg fun hyes => hno ((token.hasNewlineType_iff htype).1 hyes), if_neg]
    intro hbyte
    refine h ⟨?_, ?_⟩
    · rw [← hbuffer] at hbyte
      exact hbyte
    · rw [if_neg hheader]
      exact hno

/-- A header that goes to the event does not start with a newline. -/
theorem Token.not_header_iff {id : Nat} (htype : token.firstTypeId = .ok id)
    (h : ¬ event.FoundStartOfNext token id) (hbuffer : token.buffer = src.bytes) :
    token.firstTypeId ≠ .ok SymbolId.tokenHeader.toNat ↔
      (Phase.ofEvent event ≠ .between → token.span.HasHeaderType →
        src.bytes token.span.startPos = 10) := by
  rw [← hbuffer]
  constructor
  · intro hno _ hheader
    exact absurd ((token.hasHeaderType_iff htype).1 hheader) hno
  · intro hbyte hheader
    have hstart := hbyte Phase.ofEvent_ne_between ((token.hasHeaderType_iff htype).2 hheader)
    rw [htype] at hheader
    refine h ⟨hstart, ?_⟩
    rw [Except.ok.inj hheader]
    split
    · rfl
    · decide

/-- Behind its first token, an event has no header if the headers of the tokens start
events, and the phase goes on behind it. -/
structure Parsed.FollowsPhase (bytes : Nat → UInt8) (phase : Phase) (tokens : List Token)
    (parsed : Parsed) : Prop where
  headerFirst : parsed.event.HeaderFirst ↔ phase.HeadersFit bytes (tokens.map Token.span)
  run : parsed.result = .ok .compress →
    phase.run bytes (tokens.map Token.span) = .ofKept parsed.startOfLog

theorem Extends.phase (h : Extends event tokens parsed) (hne : event.tokens ≠ [])
    (hchain : Chain t src opening q tokens opening' q') :
    (parsed.event.HeaderFirst ↔ event.HeaderFirst ∧
        (Phase.ofEvent event).HeadersFit src.bytes (tokens.map Token.span)) ∧
      (parsed.result = .ok .compress →
        (Phase.ofEvent event).run src.bytes (tokens.map Token.span) =
          .ofKept parsed.startOfLog) := by
  induction h generalizing opening q with
  | outOfData => exact ⟨(and_iff_left trivial).symm, fun hresult => by cases hresult⟩
  | @finish event token htype =>
    refine ⟨(and_iff_left ?_).symm, fun hresult => by cases hresult⟩
    refine Phase.headersFit_of_types fun span hmem => ?_
    rw [List.mem_singleton.1 hmem, token.hasHeaderType_iff htype, htype]
    decide
  | @newline event token hheader htype =>
    have hno : token.firstTypeId ≠ .ok SymbolId.tokenHeader.toNat := by
      rw [htype]
      decide
    refine ⟨?_, fun _ => ?_⟩
    · rw [Event.headerFirst_add hne, and_iff_left hno]
      refine (and_iff_left (Phase.headersFit_of_types fun span hmem => ?_)).symm
      rw [List.mem_singleton.1 hmem, token.hasHeaderType_iff htype]
      exact hno
    · show (Phase.ofEvent event).next src.bytes token.span = .between
      unfold Phase.ofEvent
      rw [hheader, if_neg Bool.false_ne_true]
      exact if_pos ((token.hasNewlineType_iff htype).2 rfl)
  | @split event token id htype hend hfound =>
    cases hchain with
    | cons hlexeme =>
      have hbyte : src.bytes token.span.startPos = 10 := by
        rw [← hlexeme.buffer]
        exact hfound.1
      refine ⟨?_, fun _ => ?_⟩
      · rw [Event.headerFirst_add hne]
        refine and_congr_right fun _ => iff_of_true ?_ ⟨fun _ _ => hbyte, trivial⟩
        exact fun hheader => absurd (Except.ok.inj hheader) (by decide)
      · exact Phase.next_of_foundStartOfNext htype hfound hlexeme.buffer
  | @next event token tokens parsed id htype hend hnewline hfound _ ih =>
    cases hchain with
    | cons hlexeme hrest =>
      obtain ⟨hfirst, hrun⟩ := ih (List.concat_ne_nil _ _) hrest
      have hnext := Phase.next_of_not_foundStartOfNext htype hnewline hfound hlexeme.buffer
      have hsame : Phase.ofEvent (event.add token) = Phase.ofEvent event := rfl
      rw [hsame] at hfirst hrun
      refine ⟨?_, fun hresult => ?_⟩
      · rw [hfirst, Event.headerFirst_add hne, and_assoc,
          Token.not_header_iff htype hfound hlexeme.buffer]
        show _ ↔ _ ∧ _ ∧ Phase.HeadersFit _ ((Phase.ofEvent event).next _ token.span) _
        rw [hnext]
      · show Phase.run _ ((Phase.ofEvent event).next _ token.span) _ = _
        rw [hnext]
        exact hrun hresult

theorem Begins.followsPhase (h : Begins t token tokens parsed)
    (hchain : Chain t src opening q tokens opening' q') :
    parsed.FollowsPhase src.bytes (.start token.span) tokens := by
  have hextends : ∀ hasHeader timestamp, Extends ⟨hasHeader, timestamp, [token]⟩ tokens parsed →
      Phase.start token.span = Phase.ofEvent ⟨hasHeader, timestamp, [token]⟩ →
      parsed.FollowsPhase src.bytes (.start token.span) tokens := by
    intro hasHeader timestamp hrest hstart
    obtain ⟨hfirst, hrun⟩ := hrest.phase (List.cons_ne_nil _ _) hchain
    rw [hstart]
    exact ⟨hfirst.trans (and_iff_right (Event.headerFirst_single _ _ _)), hrun⟩
  cases h with
  | finish =>
    exact ⟨iff_of_true (fun _ hmem => absurd hmem List.not_mem_nil) trivial,
      fun hresult => by cases hresult⟩
  | header htype _ hrest =>
    exact hextends true _ hrest (if_pos ((token.hasHeaderType_iff htype).2 htype))
  | other htype _ hno hrest =>
    refine hextends false _ hrest (if_neg fun hyes => ?_)
    have hheader := (token.hasHeaderType_iff htype).1 hyes
    rw [htype] at hheader
    exact hno (Except.ok.inj hheader)

/-- The event of a parse, and the phase behind it. -/
theorem Parses.followsPhase {startOfLog : Option Token} (h : Parses t startOfLog tokens parsed)
    (hchain : Chain t src opening q tokens opening' q') :
    parsed.FollowsPhase src.bytes (.ofKept startOfLog) tokens := by
  cases h with
  | outOfData =>
    exact ⟨iff_of_true (fun _ hmem => absurd hmem List.not_mem_nil) trivial,
      fun hresult => by cases hresult⟩
  | kept hbegins => exact hbegins.followsPhase hchain
  | newline =>
    exact ⟨iff_of_true (Event.headerFirst_single _ _ _)
      ⟨fun hbetween => absurd rfl hbetween, trivial⟩, fun _ => rfl⟩
  | read _ hbegins =>
    cases hchain with
    | cons _ hrest =>
      obtain ⟨hfirst, hrun⟩ := hbegins.followsPhase hrest
      exact ⟨hfirst.trans (and_iff_right fun hbetween => absurd rfl hbetween).symm, hrun⟩

end Headers

/-! ## The tokens of the lexer -/

namespace Cursor

variable {t : LexerTables} {src : Source} {phase : Phase} {c c' : Cursor} {tokens : List Token}

/-- The calls of `scan` return headers only where events start. -/
def ReturnsHeaders (t : LexerTables) (src : Source) (phase : Phase) (c : Cursor) : Prop :=
  ∀ spans, ReturnsSpans t src c spans → phase.HeadersFit src.bytes spans

theorem returnsHeaders_cons {span : Span} (hscans : Scans t src c c' (.ok span)) :
    ReturnsHeaders t src phase c ↔
      (phase ≠ .between → span.HasHeaderType → src.bytes span.startPos = 10) ∧
        ReturnsHeaders t src (phase.next src.bytes span) c' := by
  constructor
  · intro h
    exact ⟨(h [span] (.cons hscans (.nil c'))).1, fun spans hspans =>
      (h (span :: spans) (.cons hscans hspans)).2⟩
  · rintro ⟨hspan, hrest⟩ spans hspans
    cases hspans with
    | nil => trivial
    | cons hscans' hspans =>
      obtain ⟨rfl, heq⟩ := hscans.unique hscans'
      cases heq
      exact ⟨hspan, hrest _ hspans⟩

theorem Reads.returnsHeaders_iff (h : Reads t src c tokens c') :
    ReturnsHeaders t src phase c ↔ phase.HeadersFit src.bytes (tokens.map Token.span) ∧
      ReturnsHeaders t src (phase.run src.bytes (tokens.map Token.span)) c' := by
  induction h generalizing phase with
  | nil => exact (and_iff_right trivial).symm
  | cons hscans hcovers _ ih =>
    rw [returnsHeaders_cons hscans, ih, ← and_assoc, List.map_cons, hcovers.span_eq]
    rfl

/-- Behind the text, no header is returned. -/
theorem At.returnsHeaders (ht : t.WellFormed) (hat : c.At t src none src.size) :
    ReturnsHeaders t src phase c := by
  intro spans hspans
  refine Phase.headersFit_of_types fun span hmem hheader => ?_
  have hhead : span.typeIds.head? = some SymbolId.tokenHeader.toNat := hheader
  rw [hspans.typeIds_of_end ht hat span hmem] at hhead
  exact absurd hhead (by decide)

/-- A header behind the first token starts with a newline if those of the DFA do. -/
theorem Lexeme.newline_of_header (ht : t.WellFormed) (hheaders : t.HeadersStart)
    (hno : cCharStartOfFile ∉ src.word 0 src.size) {i : Nat} {span : Span}
    (h : Lexeme t src none i span) (hheader : span.HasHeaderType) :
    src.bytes span.startPos = 10 := by
  have hmem : SymbolId.tokenHeader.toNat ∈ span.typeIds := List.mem_of_head? hheader
  cases h with
  | text =>
    have hmem : SymbolId.tokenHeader.toNat ∈ cTokenUncaughtStringTypes := hmem
    exact absurd hmem (by decide)
  | @«variable» j line typeIds hmatch =>
    have hlt := hmatch.lt ht
    have hsize := hmatch.le_size
    obtain ⟨base, origin, p, hruns, -, hrun, hids⟩ := hmatch.run
    cases hruns with
    | root =>
      rw [← hids] at hmem
      have hhead := hheaders _ p hrun hmem
      rw [src.word_cons hlt] at hhead
      rcases hhead with hnewline | hstart
      · exact Option.some.inj hnewline
      · refine absurd (Source.mem_word.2 ⟨i, Nat.zero_le i, ?_, Option.some.inj hstart⟩) hno
        omega
    | opening ho => cases ho
  | input =>
    have hmem : SymbolId.tokenHeader.toNat ∈ cTokenEndTypes := hmem
    exact absurd hmem (by decide)

/-- The tokens behind the first one have headers only where events start. -/
theorem At.returnsHeaders_of_headersStart (ht : t.WellFormed) (hheaders : t.HeadersStart)
    (hno : cCharStartOfFile ∉ src.word 0 src.size) {q : Nat} (hat : c.At t src none q) :
    ReturnsHeaders t src phase c := by
  intro spans hspans
  induction hspans generalizing phase q with
  | nil => trivial
  | cons hscans _ ih =>
    obtain ⟨hlexeme, hnext⟩ := hat.scans ht hscans
    exact ⟨fun _ => hlexeme.newline_of_header ht hheaders hno, ih hnext⟩

/-- A header that is the first token may start with any character. -/
theorem At.returnsHeaders_between (ht : t.WellFormed) {opening : Option Opening} {q : Nat}
    (hat : c.At t src opening q)
    (hrest : ∀ c' span phase, Lexeme t src opening q span → c'.At t src none span.endPos →
      ReturnsHeaders t src phase c') : ReturnsHeaders t src .between c := by
  intro spans hspans
  cases hspans with
  | nil => trivial
  | cons hscans hspans =>
    obtain ⟨hlexeme, hnext⟩ := hat.scans ht hscans
    exact ⟨fun hbetween => absurd rfl hbetween, hrest _ _ _ hlexeme hnext _ hspans⟩

end Cursor

/-! ## Runs -/

section Finish

variable {t : LexerTables} {startOfLog : Option Token} {token : Token} {tokens : List Token}
  {event : Event} {parsed : Parsed}

theorem Extends.startOfLog_of_finish (h : Extends event tokens parsed)
    (hresult : parsed.result = .ok .compressAndFinish) : parsed.startOfLog = none := by
  induction h with
  | outOfData => rfl
  | finish => rfl
  | newline => rfl
  | split => cases hresult
  | next _ _ _ _ _ ih => exact ih hresult

/-- No token is kept at the end of the input. -/
theorem Parses.startOfLog_of_finish (h : Parses t startOfLog tokens parsed)
    (hresult : parsed.result = .ok .compressAndFinish) : parsed.startOfLog = none := by
  have hbegins : ∀ {token tokens}, Begins t token tokens parsed → parsed.startOfLog = none := by
    intro token tokens hbegins
    cases hbegins with
    | finish => rfl
    | header _ _ hrest => exact hrest.startOfLog_of_finish hresult
    | other _ _ _ hrest => exact hrest.startOfLog_of_finish hresult
  cases h with
  | outOfData => rfl
  | kept h => exact hbegins h
  | newline => cases hresult
  | read _ h => exact hbegins h

end Finish

namespace BufferParser

open Cursor

variable {t : LexerTables} {buf : UserBuffer} {opening opening' : Option Opening}
  {q q' offset fuel count : Nat} {p : BufferParser} {call : Call} {parsed : Parsed}

/-- Behind its first token, no event of the calls has a header. -/
def HeadersFirst (calls : List Call) : Prop :=
  ∀ call ∈ calls, (Event.ofBuffer call.event).HeaderFirst

/-- The texts of the events are the one that is kept and the rest of the text, and the
headers are where the tokens of the lexer have them. -/
structure MakesUp (t : LexerTables) (buf : UserBuffer) (q offset : Nat) (p : BufferParser)
    (calls : List Call) : Prop where
  text : calls.flatMap (·.event.toString) =
    keptText p.logParser.startOfLog ++ (Source.ofBuffer buf true).word q buf.size
  headers : HeadersFirst calls ↔
    ReturnsHeaders t (.ofBuffer buf true) (.ofKept p.logParser.startOfLog) (p.cursor buf offset)

/-- The cursor goes through the tokens of a call. -/
theorem Call.Makes.returnsHeaders_iff
    (hmakes : call.Makes t fuel buf true opening q offset p parsed opening' q') :
    ∃ phase, (parsed.result = .ok .compress → phase = .ofKept parsed.startOfLog) ∧
      (ReturnsHeaders t (.ofBuffer buf true) (.ofKept p.logParser.startOfLog)
          (p.cursor buf offset) ↔
        (Event.ofBuffer call.event).HeaderFirst ∧
          ReturnsHeaders t (.ofBuffer buf true) phase (call.parser.cursor buf call.offset)) := by
  obtain ⟨tokens, hparses, hchain, -, hread⟩ := hmakes.parses
  obtain ⟨action, haction⟩ := hmakes.exists_action
  have hreads : Reads t (.ofBuffer buf true) (p.cursor buf offset) tokens
      (call.parser.cursor buf call.offset) := hread action haction
  obtain ⟨hfirst, hrun⟩ := hparses.followsPhase hchain
  refine ⟨_, hrun, ?_⟩
  rw [hreads.returnsHeaders_iff, hmakes.shows.event, hfirst]

/-- Behind the first token, the opening does not count. -/
theorem Call.Makes.opening_eq_none
    (hmakes : call.Makes t fuel buf true opening q offset p parsed opening' q')
    (hopening : opening ≠ none → p.logParser.startOfLog = none) : opening' = none := by
  obtain ⟨tokens, hparses, hchain, -⟩ := hmakes.parses
  obtain ⟨action, haction⟩ := hmakes.exists_action
  cases tokens with
  | cons => exact hchain.opening_eq_none (List.cons_ne_nil _ _)
  | nil =>
    cases hchain
    by_contra hne
    rw [hopening hne] at hparses
    cases hparses
    cases haction

/-- The events of the calls make up the text, unless it starts with a header without text
in front of a newline. -/
theorem Awaits.makesUp (ht : t.WellFormed)
    (hend : ∀ state, SymbolId.tokenEnd.toNat ∉ t.dfa.typeIds state)
    (hcaptures : t.HasCaptureRegisters) (hsize : buf.size < 2 ^ 31)
    (hfuel : 2 * buf.size + 1 < fuel) (hreset : (Lexer.startOfFileState t).isSome)
    {calls : List Call} (h : p.Awaits t buf true opening q offset)
    (hfirst : opening ≠ none → p.logParser.startOfLog = none ∧
      ∀ token, p.FirstToken t fuel buf true offset token → ¬ token.IsEmptyHeader)
    (hcount : LogParser.tokensLeft (.ofBuffer buf true) opening q < count)
    (hcalls : p.parseEvents t fuel buf true count offset = .ok calls) :
    p.MakesUp t buf q offset calls := by
  induction count generalizing p opening q offset calls with
  | zero => exact absurd hcount (Nat.not_lt_zero _)
  | succ count ih =>
    obtain ⟨call, parsed, opening', q', hcall, hmakes⟩ :=
      h.parseNextEvent ht hcaptures hsize hfuel hreset
    have htext := h.makesText ht hend hfirst hmakes
    have hopening := hmakes.opening_eq_none fun hne => (hfirst hne).1
    obtain ⟨phase, hphase, hheaders⟩ := hmakes.returnsHeaders_iff
    obtain ⟨tokens, hparses, hchain, -, hread⟩ := hmakes.parses
    have hevent : call.event.toString = keptText p.logParser.startOfLog ++
        (Source.ofBuffer buf true).word q (eventStart parsed.startOfLog q') := by
      rw [← htext.text, ← hmakes.shows.event]
      rfl
    rcases hmakes.calls hcall hcalls with ⟨hresult, later, hlater, rfl⟩ | ⟨hresult, rfl⟩
    · obtain ⟨hawaits, hkept, -⟩ := hmakes.next hresult
      have hleft := hparses.tokensLeft_lt ht hchain hresult
      rw [hopening] at hawaits hleft
      have hrest := ih hawaits (fun hne => absurd rfl hne) (by omega) hlater
      have hq' : q' ≤ buf.size := hawaits.stands.position.le_size
      rw [hphase hresult, ← hkept] at hheaders
      refine ⟨?_, ?_⟩
      · rw [List.flatMap_cons, hrest.text, hevent, hkept, htext.keeps.keptText,
          Source.word_append _ htext.keeps.eventStart_le hq', List.append_assoc,
          Source.word_append _ htext.le (htext.keeps.eventStart_le.trans hq')]
      · rw [hheaders, ← hrest.headers]
        exact List.forall_mem_cons
    · have hfinish : parsed.result = .ok .compressAndFinish := by
        rcases hparses.ends with hcompress | hfinish | herr
        · exact absurd hcompress hresult
        · exact hfinish
        · exact absurd rfl (hmakes.outOfData _ herr)
      have hq' : q' = buf.size := htext.finish hfinish
      have hnone := hparses.startOfLog_of_finish hfinish
      refine ⟨?_, ?_⟩
      · rw [List.flatMap_singleton, hevent, hnone, ← hq']
        rfl
      · have hreads : Reads t (.ofBuffer buf true) (p.cursor buf offset) tokens
            (call.parser.cursor buf call.offset) := hread _ hfinish
        have hat' := hreads.at ht h.stands.position hchain
        rw [hopening, hq'] at hat'
        rw [hheaders, and_iff_left (hat'.returnsHeaders ht)]
        exact List.forall_mem_singleton

/-- The calls on the whole text go to its end, their events make up the text again, and
without the character of the start of a file the headers come first. -/
def KeepsBytes (t : LexerTables) (fuel : Nat) (buf : UserBuffer) (count : Nat)
    (p : BufferParser) : Prop :=
  ∃ calls, p.parseEvents t fuel buf true count 0 = .ok calls ∧ Completes calls ∧
    calls.flatMap (·.event.toString) = (Source.ofBuffer buf true).word 0 buf.size ∧
    (cCharStartOfFile ∉ (Source.ofBuffer buf true).word 0 buf.size → HeadersFirst calls)

/-- The text does not start with a header without text in front of a newline, and the
timestamp of a header of the empty text can be read. -/
def StartsWell (t : LexerTables) (fuel : Nat) (buf : UserBuffer) (p : BufferParser) : Prop :=
  ∀ token, p.FirstToken t fuel buf true 0 token → ¬ token.IsEmptyHeader ∧
    (buf.size = 0 → token.firstTypeId = .ok SymbolId.tokenHeader.toNat →
      ∃ timestamp, LogParser.headerTimestamp t token = .ok timestamp)

/-- A header without text in front of a newline is counted three times. -/
theorem Awaits.not_text_of_emptyHeader (ht : t.WellFormed)
    (hend : ∀ state, SymbolId.tokenEnd.toNat ∉ t.dfa.typeIds state)
    (hcaptures : t.HasCaptureRegisters) (hsize : buf.size < 2 ^ 31)
    (hfuel : 2 * buf.size + 1 < fuel) (hreset : (Lexer.startOfFileState t).isSome)
    {calls : List Call} (h : p.Awaits t buf true opening 0 offset)
    (hnone : p.logParser.startOfLog = none) {token : Token}
    (hfirst : p.FirstToken t fuel buf true offset token) (hempty : token.IsEmptyHeader)
    (hcount : LogParser.tokensLeft (.ofBuffer buf true) opening 0 < count)
    (hcalls : p.parseEvents t fuel buf true count offset = .ok calls) :
    calls.flatMap (·.event.toString) ≠ (Source.ofBuffer buf true).word 0 buf.size := by
  obtain ⟨call, parsed, opening', q', hcall, hmakes⟩ :=
    h.parseNextEvent ht hcaptures hsize hfuel hreset
  have hsplits := hmakes.splitsEmptyHeader hnone hfirst hempty
  have hopening := hmakes.opening_eq_none fun _ => hnone
  obtain ⟨hawaits, hkept, -⟩ := hmakes.next hsplits.result
  obtain ⟨tokens, hparses, hchain, -⟩ := hmakes.parses
  have hleft := hparses.tokensLeft_lt ht hchain hsplits.result
  rw [hopening, hsplits.eq_zero] at hawaits hleft
  cases count with
  | zero => exact absurd hcount (Nat.not_lt_zero _)
  | succ count =>
    obtain ⟨-, later, hlater, rfl⟩ :=
      (hmakes.calls hcall hcalls).resolve_right fun hstop => hstop.1 hsplits.result
    have hrest := hawaits.makesUp ht hend hcaptures hsize hfuel hreset (fun hne => absurd rfl hne)
      (by omega) hlater
    intro htext
    have hlength := congrArg List.length htext
    have hlength' : (keptText (some token.incrementStartPos)).length = 2 * buf.size - 1 :=
      hsplits.lengthKept
    rw [List.flatMap_cons, hrest.text, hkept, hsplits.kept, List.length_append, List.length_append,
      Source.length_word, hsplits.length, hlength'] at hlength
    omega

/-- The events of a text make it up again, and the headers of the lexer's tokens start
them, unless the start of the text does not allow it. -/
theorem Awaits.keepsBytes_iff_returnsHeaders (ht : t.WellFormed)
    (hend : ∀ state, SymbolId.tokenEnd.toNat ∉ t.dfa.typeIds state)
    (hcaptures : t.HasCaptureRegisters) (hsize : buf.size < 2 ^ 31) (hpos : 0 < buf.size)
    (hfuel : 2 * buf.size + 1 < fuel) (hreset : (Lexer.startOfFileState t).isSome)
    (h : p.Awaits t buf true opening 0 0) (hnone : p.logParser.startOfLog = none)
    (hcount : LogParser.tokensLeft (.ofBuffer buf true) opening 0 < count) :
    p.KeepsBytes t fuel buf count ↔ p.StartsWell t fuel buf ∧
      (cCharStartOfFile ∉ (Source.ofBuffer buf true).word 0 buf.size →
        ReturnsHeaders t (.ofBuffer buf true) .between (p.cursor buf 0)) := by
  obtain ⟨calls, -, hcalls, -⟩ := h.parseEvents ht hcaptures hsize hfuel hreset hcount
  have hcompletes := h.completes ht hcaptures hsize hfuel hreset hcount hcalls
  have hunique : p.KeepsBytes t fuel buf count ↔
      calls.flatMap (·.event.toString) = (Source.ofBuffer buf true).word 0 buf.size ∧
        (cCharStartOfFile ∉ (Source.ofBuffer buf true).word 0 buf.size → HeadersFirst calls) := by
    constructor
    · rintro ⟨calls', hcalls', -, hkeeps⟩
      rw [hcalls] at hcalls'
      cases hcalls'
      exact hkeeps
    · exact fun hkeeps => ⟨calls, hcalls, hcompletes, hkeeps⟩
  rw [hunique]
  by_cases hempty : ∃ token, p.FirstToken t fuel buf true 0 token ∧ token.IsEmptyHeader
  · obtain ⟨token, hfirst, hheader⟩ := hempty
    refine iff_of_false (fun hkeeps => ?_) fun hwell => (hwell.1 token hfirst).1 hheader
    exact h.not_text_of_emptyHeader ht hend hcaptures hsize hfuel hreset hnone hfirst hheader
      hcount hcalls hkeeps.1
  · have hno : ∀ token, p.FirstToken t fuel buf true 0 token → ¬ token.IsEmptyHeader :=
      fun token hfirst hheader => hempty ⟨token, hfirst, hheader⟩
    have hmakes := h.makesUp ht hend hcaptures hsize hfuel hreset (fun _ => ⟨hnone, hno⟩) hcount
      hcalls
    have htext : calls.flatMap (·.event.toString) =
        (Source.ofBuffer buf true).word 0 buf.size := by
      rw [hmakes.text, hnone]
      rfl
    have hheaders := hmakes.headers
    rw [hnone] at hheaders
    have hwell : p.StartsWell t fuel buf :=
      fun token hfirst => ⟨hno token hfirst, fun hzero => absurd hzero hpos.ne'⟩
    rw [and_iff_right htext, and_iff_right hwell, hheaders]
    rfl

/-! ### A text without bytes -/

theorem FirstToken.unique {token token' : Token} (h : p.FirstToken t fuel buf true offset token)
    (h' : p.FirstToken t fuel buf true offset token') : token = token' := by
  rcases h with hkept | ⟨hnone, p₁, hsymbol⟩
  · rcases h' with hkept' | ⟨hnone', -⟩
    · exact Option.some.inj (hkept.symm.trans hkept')
    · rw [hkept] at hnone'
      cases hnone'
  · rcases h' with hkept' | ⟨-, p₂, hsymbol'⟩
    · rw [hnone] at hkept'
      cases hkept'
    · rw [hsymbol] at hsymbol'
      cases hsymbol'
      rfl

/-- The newline in front of a header is an event of one byte, though there is none. -/
theorem Call.IsFirst.length_of_newline {o : Opening} {token : Token} {tokens : List Token}
    (h : Call.IsFirst t fuel buf o p call token tokens parsed q') (hempty : buf.size = 0)
    (hheader : token.IsHeaderBehindNewline) : call.event.toString.length = 1 := by
  have hevent : call.event.toString = parsed.event.toString := by
    rw [← h.event]
    rfl
  obtain ⟨opening', hchain⟩ := h.chain
  rw [hevent]
  cases h.parses with
  | read hno => exact absurd hheader hno
  | newline =>
    cases hchain with
    | @cons _ _ _ j _ _ _ hlexeme =>
      have hle : j ≤ buf.size := hlexeme.le_size
      obtain rfl : j = 0 := by omega
      rw [Event.toString_single]
      exact hlexeme.length_newlineOf_of_empty

/-- The timestamp of the header of an event has been read. -/
theorem Call.IsFirst.exists_timestamp {o : Opening} {token : Token} {tokens : List Token}
    (h : Call.IsFirst t fuel buf o p call token tokens parsed q')
    (hno : ¬ token.IsHeaderBehindNewline)
    (htype : token.firstTypeId = .ok SymbolId.tokenHeader.toNat) :
    ∃ timestamp, LogParser.headerTimestamp t token = .ok timestamp := by
  cases h.parses with
  | newline hheader => exact absurd hheader hno
  | read _ hbegins =>
    cases hbegins with
    | finish htype' =>
      rw [htype] at htype'
      exact absurd (Except.ok.inj htype') (by decide)
    | header _ htimestamp => exact ⟨_, htimestamp⟩
    | other htype' _ hother =>
      rw [htype] at htype'
      exact absurd (Except.ok.inj htype').symm hother

theorem keepsBytes_iff_of_empty (ht : t.WellFormed)
    (hend : ∀ state, SymbolId.tokenEnd.toNat ∉ t.dfa.typeIds state) {o : Opening}
    (hstands : (p.logParser.feed buf 0 true).StandsAt t (.ofBuffer buf true) (some o) 0)
    (hnone : p.logParser.startOfLog = none) (hempty : buf.size = 0)
    (hfuel : 2 * buf.size + 1 < fuel) (hcount : 0 < count) :
    p.KeepsBytes t fuel buf count ↔ p.StartsWell t fuel buf ∧
      (cCharStartOfFile ∉ (Source.ofBuffer buf true).word 0 buf.size →
        ReturnsHeaders t (.ofBuffer buf true) .between (p.cursor buf 0)) := by
  have hreturns : ReturnsHeaders t (.ofBuffer buf true) .between (p.cursor buf 0) :=
    hstands.position.returnsHeaders_between ht fun c' span phase hlexeme hnext => by
      have hend : span.endPos = (Source.ofBuffer buf true).size := by
        have hle : span.endPos ≤ buf.size := hlexeme.le_size
        have hzero : (Source.ofBuffer buf true).size = 0 := hempty
        omega
      rw [hend] at hnext
      exact hnext.returnsHeaders ht
  have hword : (Source.ofBuffer buf true).word 0 buf.size = [] := by
    rw [hempty, Source.word_self]
  rw [and_iff_left fun _ => hreturns]
  obtain ⟨count, rfl⟩ := Nat.exists_eq_succ_of_ne_zero hcount.ne'
  rcases firstCall_cases ht hstands hnone hfuel with
    ⟨call, token, tokens, parsed, q', h⟩ | ⟨token, fault, hfirst, -, htype, hread, hcall⟩
  · by_cases hheader : token.IsHeaderBehindNewline
    · have hlength := h.length_of_newline hempty hheader
      refine iff_of_false ?_ fun hwell => ?_
      · rintro ⟨calls, hcalls, -, htext, -⟩
        obtain ⟨call', hcall', hcalls⟩ := exists_of_parseEvents hcalls
        rw [h.returns] at hcall'
        cases hcall'
        have hnil : call.event.toString = [] := by
          rw [hword] at htext
          rcases hcalls with ⟨-, later, -, rfl⟩ | ⟨-, rfl⟩
          · exact (List.append_eq_nil_iff.1 htext).1
          · rwa [List.flatMap_singleton] at htext
        rw [hnil] at hlength
        cases hlength
      · obtain ⟨opening', hchain⟩ := h.chain
        refine (hwell token h.first).1 ⟨hheader, ?_⟩
        cases hchain with
        | @cons _ _ _ j _ _ _ hlexeme =>
          have hle : j ≤ buf.size := hlexeme.le_size
          obtain rfl : j = 0 := by omega
          rw [hlexeme.toString_eq, Source.word_self]
    · obtain ⟨hcalls, hcompletes, htext⟩ :=
        h.parseEvents_of_empty ht hend (fun hempty => hheader hempty.1) hempty hcount
      obtain ⟨c', hreads⟩ := h.reads
      obtain ⟨opening', hchain⟩ := h.chain
      refine iff_of_true ⟨[call], hcalls, hcompletes, ?_, fun _ => ?_⟩ fun token' hfirst => ?_
      · rw [List.flatMap_singleton, htext, hword]
      · refine List.forall_mem_singleton.2 ?_
        rw [h.event]
        exact (h.parses.followsPhase hchain).headerFirst.2 (hreads.returnsHeaders_iff.1 hreturns).1
      · obtain rfl := h.first.unique hfirst
        exact ⟨fun hempty => hheader hempty.1, fun _ htype => h.exists_timestamp hheader htype⟩
  · refine iff_of_false ?_ fun hwell => ?_
    · rintro ⟨calls, hcalls, -⟩
      obtain ⟨call, hcall', -⟩ := exists_of_parseEvents hcalls
      rw [hcall] at hcall'
      cases hcall'
    · obtain ⟨timestamp, htimestamp⟩ := (hwell token hfirst).2 hempty htype
      rw [hread] at htimestamp
      cases htimestamp

/-! ### Texts of a schema -/

/-- The calls of a new parser on a text. -/
theorem exists_keepsBytes_iff {schema : SchemaAST}
    {regMapOrder : List (Nat × Nat) → List (Nat × Nat)} {steps : Nat}
    (horder : ∀ regMap, (regMapOrder regMap).Perm regMap)
    (hgenerate : schema.generate regMapOrder steps = .ok t) (hnames : schema.NamesIdentifiers)
    (hrules : schema.schemaVars ≠ []) (hsize : buf.size < 2 ^ 31)
    (hfuel : 2 * buf.size + 1 < fuel) (hcount : buf.size + 1 < count) :
    ∃ p o, (BufferParser.new t).reset t = .ok p ∧
      (p.logParser.feed buf 0 true).StandsAt t (.ofBuffer buf true) (some o) 0 ∧
      (p.KeepsBytes t fuel buf count ↔ p.StartsWell t fuel buf ∧
        (cCharStartOfFile ∉ (Source.ofBuffer buf true).word 0 buf.size →
          ReturnsHeaders t (.ofBuffer buf true) .between (p.cursor buf 0))) := by
  have ht := LexerTables.ofSchema_generate horder hgenerate
  have hcaptures := LexerTables.hasCaptureRegisters_generate horder hgenerate
  have hend := ht.tokenEnd_not_mem hnames
  have hstart : (Lexer.startOfFileState t).isSome := by
    unfold Lexer.startOfFileState
    rw [Option.isSome_map]
    exact ht.startOfFile.2 hrules
  have ht := ht.toWellFormed
  obtain ⟨p, hreset⟩ := exists_reset hstart (.new t)
  obtain ⟨state, hstate, hstands, hnone⟩ :=
    @standsAt_reset t buf true 0 ht p hreset hsize (Nat.zero_le _)
  refine ⟨p, _, hreset, hstands, ?_⟩
  rcases Nat.eq_zero_or_pos buf.size with hempty | hpos
  · exact keepsBytes_iff_of_empty ht hend hstands hnone hempty hfuel (Nat.zero_lt_of_lt hcount)
  · obtain ⟨state', -, hawaits, -⟩ :=
      @awaits_reset t buf true 0 ht p hreset hsize hpos (Nat.zero_le _)
    exact hawaits.keepsBytes_iff_returnsHeaders ht hend hcaptures hsize hpos hfuel hstart hnone
      hcount

/-- The events of a text make it up again, and the headers come first in them, if the
text does not start with a header without text in front of a newline, the timestamp of
a header of the empty text can be read, and the lexer returns headers only where events
start. -/
theorem keepsBytes_iff {schema : SchemaAST}
    {regMapOrder : List (Nat × Nat) → List (Nat × Nat)} {steps : Nat}
    (horder : ∀ regMap, (regMapOrder regMap).Perm regMap)
    (hgenerate : schema.generate regMapOrder steps = .ok t) (hnames : schema.NamesIdentifiers)
    (hrules : schema.schemaVars ≠ []) (hsize : buf.size < 2 ^ 31)
    (hfuel : 2 * buf.size + 1 < fuel) (hcount : buf.size + 1 < count) :
    ∃ p, (BufferParser.new t).reset t = .ok p ∧
      (p.KeepsBytes t fuel buf count ↔ p.StartsWell t fuel buf ∧
        (cCharStartOfFile ∉ (Source.ofBuffer buf true).word 0 buf.size →
          ∀ n tokens, (p.logParser.feed buf 0 true).scanner.scanPieces t fuel n [] =
            .ok ([], tokens) → Phase.between.HeadersFit buf.bytes (tokens.map Token.span))) := by
  have ht := (LexerTables.ofSchema_generate horder hgenerate).toWellFormed
  obtain ⟨p, o, hreset, hstands, hkeeps⟩ :=
    exists_keepsBytes_iff horder hgenerate hnames hrules hsize hfuel hcount
  obtain ⟨hopened⟩ := hstands.position
  refine ⟨p, hreset, ?_⟩
  rw [← forall_returnsSpans_iff ht rfl hfuel hstands.resting hopened]
  exact hkeeps

/-- If the headers of the DFA start with a newline, only the start of the text counts. -/
theorem keepsBytes_iff_startsWell {schema : SchemaAST}
    {regMapOrder : List (Nat × Nat) → List (Nat × Nat)} {steps : Nat}
    (horder : ∀ regMap, (regMapOrder regMap).Perm regMap)
    (hgenerate : schema.generate regMapOrder steps = .ok t) (hnames : schema.NamesIdentifiers)
    (hrules : schema.schemaVars ≠ []) (hheaders : t.HeadersStart) (hsize : buf.size < 2 ^ 31)
    (hfuel : 2 * buf.size + 1 < fuel) (hcount : buf.size + 1 < count) :
    ∃ p, (BufferParser.new t).reset t = .ok p ∧
      (p.KeepsBytes t fuel buf count ↔ p.StartsWell t fuel buf) := by
  have ht := (LexerTables.ofSchema_generate horder hgenerate).toWellFormed
  obtain ⟨p, o, hreset, hstands, hkeeps⟩ :=
    exists_keepsBytes_iff horder hgenerate hnames hrules hsize hfuel hcount
  refine ⟨p, hreset, hkeeps.trans (and_iff_left fun hno => ?_)⟩
  exact hstands.position.returnsHeaders_between ht fun c' span phase _ hnext =>
    hnext.returnsHeaders_of_headersStart ht hheaders hno

/-! ### A header that may have no text -/

/-- The header `b*`. -/
def emptyHeaderSchema : SchemaAST :=
  ⟨[⟨"header", .mkMultiplication (.mkLiteral 98) 0 0⟩], [[10, 32]]⟩

theorem namesIdentifiers_emptyHeaderSchema : emptyHeaderSchema.NamesIdentifiers := by
  intro var hvar
  obtain rfl := List.mem_singleton.1 hvar
  decide

/-- The text newline, `a`. -/
def newlineLetter : UserBuffer where
  bytes i := if i = 0 then 10 else 97
  size := 2

/-- The lines `a` and `b`. -/
theorem keepsBytes_iff_lettersOnLines : ∃ t, emptyHeaderSchema.generate id 40 = .ok t ∧
    ∃ p, (BufferParser.new t).reset t = .ok p ∧
      (p.KeepsBytes t 20 lettersOnLines 8 ↔ p.StartsWell t 20 lettersOnLines ∧
        (cCharStartOfFile ∉ (Source.ofBuffer lettersOnLines true).word 0 lettersOnLines.size →
          ∀ n tokens, (p.logParser.feed lettersOnLines 0 true).scanner.scanPieces t 20 n [] =
            .ok ([], tokens) →
            Phase.between.HeadersFit lettersOnLines.bytes (tokens.map Token.span))) := by
  have hcheck : checkEvents emptyHeaderSchema 40 20 lettersOnLines true 8
      (fun calls => (calls.flatMap (·.event.toString)).length = 4) = true := by decide +kernel
  obtain ⟨t, -, -, hgenerate, -⟩ := exists_of_checkEvents hcheck
  exact ⟨t, hgenerate, keepsBytes_iff (fun _ => .refl _) hgenerate
    namesIdentifiers_emptyHeaderSchema (List.cons_ne_nil _ _)
    (by decide : lettersOnLines.size < 2 ^ 31) (by decide : 2 * lettersOnLines.size + 1 < 20)
    (by decide : lettersOnLines.size + 1 < 8)⟩

/-- The events of two bytes have six bytes. -/
theorem not_keepsBytes_newlineLetter : ∃ t p calls, emptyHeaderSchema.generate id 40 = .ok t ∧
    (BufferParser.new t).reset t = .ok p ∧
    p.parseEvents t 20 newlineLetter true 8 0 = .ok calls ∧
    (calls.flatMap (·.event.toString)).length = 6 ∧ ¬ p.KeepsBytes t 20 newlineLetter 8 := by
  have hcheck : checkEvents emptyHeaderSchema 40 20 newlineLetter true 8
      (fun calls => (calls.flatMap (·.event.toString)).length = 6) = true := by decide +kernel
  obtain ⟨t, p, calls, hgenerate, hreset, hcalls, hcheck⟩ := exists_of_checkEvents hcheck
  have hlength := of_decide_eq_true hcheck
  refine ⟨t, p, calls, hgenerate, hreset, hcalls, hlength, ?_⟩
  rintro ⟨calls', hcalls', -, htext, -⟩
  rw [hcalls] at hcalls'
  cases hcalls'
  rw [htext, Source.length_word] at hlength
  exact absurd hlength (by decide)

end BufferParser

end LogSurgeon
