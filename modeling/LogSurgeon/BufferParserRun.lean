import LogSurgeon.BufferParser
import LogSurgeon.HeaderTimestamps

/-!
# Runs of the buffer parser

The calls of `parseEvents` on one buffer parse the tokens of its text, one
event after the other.  `Runs` is such a run on the tokens, and
`Awaits.parseEvents` says that the calls show the events of one.
-/

namespace LogSurgeon

/-! ## Runs on tokens -/

/-- Parses one after the other, up to the first one that does not just end an
event. -/
inductive Runs (t : LexerTables) (src : Source) :
    Option Opening → Nat → Option Token → List Parsed → Prop where
  | stop {opening opening' : Option Opening} {q q' : Nat} {startOfLog : Option Token}
      {tokens : List Token} {parsed : Parsed} (hparses : Parses t startOfLog tokens parsed)
      (hchain : Chain t src opening q tokens opening' q')
      (hstop : parsed.result ≠ .ok .compress)
      (hfinished : ∀ err, parsed.result = .error err → ¬ src.finished) :
      Runs t src opening q startOfLog [parsed]
  | next {opening opening' : Option Opening} {q q' : Nat} {startOfLog : Option Token}
      {tokens : List Token} {parsed : Parsed} {rest : List Parsed}
      (hparses : Parses t startOfLog tokens parsed)
      (hchain : Chain t src opening q tokens opening' q')
      (hresult : parsed.result = .ok .compress)
      (hrest : Runs t src opening' q' parsed.startOfLog rest) :
      Runs t src opening q startOfLog (parsed :: rest)

/-- Every token of a parse that ends an event within the text goes beyond its
start. -/
theorem Extends.tokensLeft_lt {t : LexerTables} {src : Source} (ht : t.WellFormed)
    {event : Event} {tokens : List Token} {parsed : Parsed} (h : Extends event tokens parsed)
    {opening opening' : Option Opening} {q q' : Nat}
    (hchain : Chain t src opening q tokens opening' q') (hresult : parsed.result = .ok .compress) :
    LogParser.tokensLeft src opening' q' < LogParser.tokensLeft src opening q := by
  induction h generalizing opening q with
  | outOfData => cases hresult
  | finish => cases hresult
  | newline _ htype =>
    cases hchain with
    | cons hlexeme hrest =>
      cases hrest
      obtain ⟨id, htype', hprogress⟩ := LogParser.exists_firstTypeId ht hlexeme
      rw [htype] at htype'
      cases htype'
      exact hprogress (by decide)
  | split htype hend _ =>
    cases hchain with
    | cons hlexeme hrest =>
      cases hrest
      obtain ⟨id, htype', hprogress⟩ := LogParser.exists_firstTypeId ht hlexeme
      rw [htype] at htype'
      cases htype'
      exact hprogress hend
  | next htype hend _ _ _ ih =>
    cases hchain with
    | cons hlexeme hrest =>
      obtain ⟨id, htype', hprogress⟩ := LogParser.exists_firstTypeId ht hlexeme
      rw [htype] at htype'
      cases htype'
      exact (ih hrest hresult).trans (hprogress hend)

theorem Begins.tokensLeft_lt {t : LexerTables} {src : Source} (ht : t.WellFormed) {token : Token}
    {tokens : List Token} {parsed : Parsed} (h : Begins t token tokens parsed)
    {opening opening' : Option Opening} {q q' : Nat}
    (hchain : Chain t src opening q tokens opening' q') (hresult : parsed.result = .ok .compress) :
    LogParser.tokensLeft src opening' q' < LogParser.tokensLeft src opening q := by
  cases h with
  | finish => cases hresult
  | header _ _ hrest => exact hrest.tokensLeft_lt ht hchain hresult
  | other _ _ _ hrest => exact hrest.tokensLeft_lt ht hchain hresult

theorem Parses.tokensLeft_lt {t : LexerTables} {src : Source} (ht : t.WellFormed)
    {startOfLog : Option Token} {tokens : List Token} {parsed : Parsed}
    (h : Parses t startOfLog tokens parsed) {opening opening' : Option Opening} {q q' : Nat}
    (hchain : Chain t src opening q tokens opening' q') (hresult : parsed.result = .ok .compress) :
    LogParser.tokensLeft src opening' q' < LogParser.tokensLeft src opening q := by
  cases h with
  | outOfData => cases hresult
  | kept hbegins => exact hbegins.tokensLeft_lt ht hchain hresult
  | newline h =>
    cases hchain with
    | cons hlexeme hrest =>
      cases hrest
      obtain ⟨id, htype', hprogress⟩ := LogParser.exists_firstTypeId ht hlexeme
      rw [h.1] at htype'
      cases htype'
      exact hprogress (by decide)
  | @read token tokens parsed _ hbegins =>
    cases hchain with
    | cons hlexeme hrest =>
      obtain ⟨id, htype, hprogress⟩ := LogParser.exists_firstTypeId ht hlexeme
      by_cases hend : id = SymbolId.tokenEnd.toNat
      · rw [hend] at htype
        cases hbegins with
        | finish => cases hresult
        | header htype' =>
          rw [htype] at htype'
          exact absurd (Except.ok.inj htype') (by decide)
        | other htype' hend' =>
          rw [htype] at htype'
          exact absurd (Except.ok.inj htype').symm hend'
      · exact (hbegins.tokensLeft_lt ht hrest hresult).trans (hprogress hend)

/-! ## Calls -/

/-- The text of the buffer. -/
def Source.ofBuffer (buf : UserBuffer) (finished : Bool) : Source where
  bytes := buf.bytes
  size := buf.size
  finished := finished

namespace LogParser

open Cursor

/-- The parser at the start of a call. -/
def feed (p : LogParser) (buf : UserBuffer) (offset : Nat) (finished : Bool) : LogParser :=
  p.resetLogEventView.setInputBuffer buf.bytes (toUInt32 buf.size) (toUInt32 offset) finished

variable {t : LexerTables} {buf : UserBuffer} {finished : Bool} {opening : Option Opening}
  {q offset : Nat} {p : LogParser}

theorem fresh_feed (p : LogParser) (buf : UserBuffer) (offset : Nat) (finished : Bool) :
    (p.feed buf offset finished).Fresh := ⟨rfl, rfl, rfl⟩

@[simp] theorem startOfLog_feed : (p.feed buf offset finished).startOfLog = p.startOfLog := rfl

theorem holds_feed (hsize : buf.size < 2 ^ 31) (hoffset : offset ≤ buf.size) :
    (p.feed buf offset finished).inputBuffer.Holds (.ofBuffer buf finished) := by
  have hbuf : toUInt32 buf.size = buf.size := toUInt32_of_lt (by omega)
  have hpos : toUInt32 offset = offset := toUInt32_of_lt (by omega)
  refine ⟨rfl, rfl, ?_, hbuf, rfl, ?_, fun h => by cases h⟩
  · show toUInt32 (toUInt32 buf.size * 2) = 2 * buf.size
    rw [hbuf, toUInt32_of_lt (by omega)]
    omega
  · show toUInt32 offset ≤ buf.size
    rw [hpos]
    exact hoffset

theorem pos_feed (hsize : buf.size < 2 ^ 31) (hoffset : offset ≤ buf.size) :
    (p.feed buf offset finished).inputBuffer.storage.pos = offset :=
  toUInt32_of_lt (by omega)

theorem ofScanner_feed (hsize : buf.size < 2 ^ 31) (hoffset : p.getInputPos ≤ buf.size) :
    ofScanner (p.feed buf p.getInputPos finished).scanner = ofScanner p.scanner := by
  have hpos : (p.feed buf p.getInputPos finished).inputBuffer.storage.pos = p.getInputPos :=
    pos_feed hsize hoffset
  unfold ofScanner LogParser.scanner
  dsimp only
  rw [hpos]
  rfl

/-- The buffer may be given again at the position that the parser left. -/
theorem StandsAt.feed (h : p.StandsAt t (.ofBuffer buf finished) opening q)
    (hsize : buf.size < 2 ^ 31) :
    (p.feed buf p.getInputPos finished).StandsAt t (.ofBuffer buf finished) opening q := by
  have hoffset : p.getInputPos ≤ buf.size := h.resting.input.pos_le
  refine ⟨⟨⟨holds_feed hsize hoffset, h.resting.registers, h.resting.state, h.resting.isMatch,
    h.resting.firstDelimiterPos⟩, h.resting.resumes⟩, ?_⟩
  rw [ofScanner_feed hsize hoffset]
  exact h.position

/-- The parser that is fed again has the positions and the registers of the one
before, and goes on in the storage. -/
theorem InStorage.feed {limit : Nat} (h : p.InStorage t limit) (hsize : buf.size < 2 ^ 31)
    (hlimit : 2 * buf.size = limit + 1) (hoffset : offset ≤ buf.size) :
    (p.feed buf offset finished).InStorage t limit := by
  have hstorage : (p.feed buf offset finished).inputBuffer.storage.size = limit + 1 :=
    (holds_feed hsize hoffset).size.trans hlimit
  have hwithin := h.within
  refine ⟨⟨?_, ?_, ?_, ?_, fun f hf => ?_⟩, hstorage, h.registers, h.start⟩ <;>
    show _ < (p.feed buf offset finished).inputBuffer.storage.size <;> rw [hstorage]
  · show (p.feed buf offset finished).inputBuffer.storage.pos < limit + 1
    rw [pos_feed hsize hoffset]
    omega
  · rw [← h.size]
    exact hwithin.startPos
  · rw [← h.size]
    exact hwithin.lastMatchPos
  · rw [← h.size]
    exact hwithin.matchPos
  · rw [← h.size]
    exact hwithin.firstDelimiterPos f hf

theorem exists_reset (hstart : (Lexer.startOfFileState t).isSome) (p : LogParser) :
    ∃ lexer, p.reset t = .ok { p with lexer := lexer, inputBuffer := p.inputBuffer.reset } := by
  obtain ⟨state, hstate⟩ := Option.isSome_iff_exists.1 hstart
  unfold LogParser.reset Lexer.prependStartOfFileChar
  rw [hstate]
  exact ⟨_, rfl⟩

/-- Behind a reset, the parser stands at the start, whatever the offset is. -/
theorem standsAt_reset {p' : LogParser} (ht : t.WellFormed)
    (hregisters : t.dfa.HasRegisters p.lexer.regHandler) (hreset : p.reset t = .ok p')
    (hsize : buf.size < 2 ^ 31) (hoffset : offset ≤ buf.size) :
    ∃ state, Lexer.startOfFileState t = some state ∧
      (p'.feed buf offset finished).StandsAt t (.ofBuffer buf finished)
        (some ⟨state, offset⟩) 0 ∧
      p'.startOfLog = p.startOfLog := by
  unfold LogParser.reset Lexer.prependStartOfFileChar at hreset
  cases hstate : Lexer.startOfFileState t with
  | none =>
    rw [hstate] at hreset
    cases hreset
  | some state =>
    rw [hstate] at hreset
    cases hreset
    have hlt : state < t.dfa.states.length := by
      unfold Lexer.startOfFileState at hstate
      obtain ⟨transition, htransition, rfl⟩ := Option.map_eq_some_iff.1 hstate
      exact ht.dfa.dest _ _ _ htransition
    refine ⟨state, rfl, ⟨⟨⟨holds_feed hsize hoffset, hregisters, ?_, (by intro h; cases h),
      (by intro f hf; cases hf)⟩, fun _ => Option.some_ne_none _⟩, ?_⟩, rfl⟩
    · intro i hi
      cases hi
      exact hlt
    · exact .opened ⟨rfl, rfl, rfl, toUInt32_of_lt (by omega), rfl, rfl, rfl, hoffset⟩

/-- Behind a reset, a parser stays in the storage if its registers do. -/
theorem inStorage_reset {limit : Nat} {p' : LogParser} (hregisters : p.scanner.KeepsWithin t limit)
    (hmessage : p.startOfLogMessage.regHandler.Within limit) (hreset : p.reset t = .ok p')
    (hsize : buf.size < 2 ^ 31) (hlimit : 2 * buf.size = limit + 1) (hoffset : offset ≤ buf.size) :
    (p'.feed buf offset finished).InStorage t limit := by
  obtain ⟨lexer, hlexer, hreset⟩ := exists_of_bind_eq_ok hreset
  obtain ⟨state, -, hlexer⟩ := exists_of_bind_eq_ok hlexer
  cases hreset
  cases hlexer
  have hstorage : (p.feed buf offset finished).inputBuffer.storage.size = limit + 1 :=
    (holds_feed hsize hoffset).size.trans hlimit
  have hpos : (p.feed buf offset finished).inputBuffer.storage.pos = offset :=
    pos_feed hsize hoffset
  refine ⟨⟨?_, ?_, ?_, ?_, fun f hf => by cases hf⟩, hstorage, hregisters, hmessage⟩
  · show (p.feed buf offset finished).inputBuffer.storage.pos <
      (p.feed buf offset finished).inputBuffer.storage.size
    rw [hpos, hstorage]
    omega
  all_goals
    show 0 < (p.feed buf offset finished).inputBuffer.storage.size
    rw [hstorage]
    exact Nat.succ_pos limit

end LogParser

namespace BufferParser

variable {t : LexerTables} {buf : UserBuffer} {finished : Bool} {opening : Option Opening}
  {q offset fuel count : Nat} {p : BufferParser}

/-- The parser is ready for a call with the offset. -/
structure Awaits (t : LexerTables) (buf : UserBuffer) (finished : Bool)
    (opening : Option Opening) (q offset : Nat) (p : BufferParser) : Prop where
  stands : (p.logParser.feed buf offset finished).StandsAt t (.ofBuffer buf finished) opening q
  inStorage : (p.logParser.feed buf offset finished).InStorage t (2 * buf.size - 1)
  kept : ∀ token, p.logParser.startOfLog = some token →
    token.IsKept t (.ofBuffer buf finished) q
  notDone : p.done = false

/-- The call shows the event. -/
structure Call.Shows (call : Call) (parsed : Parsed) : Prop where
  event : Event.ofBuffer call.event = parsed.event
  errorCode : call.errorCode =
    match parsed.result with
    | .ok _ => .success
    | .error err => err

/-- The call of the parser shows the event that the next tokens make, and it is
ready for the next call if there is one. -/
structure Call.Makes (t : LexerTables) (fuel : Nat) (buf : UserBuffer) (finished : Bool)
    (opening : Option Opening) (q offset : Nat) (p : BufferParser) (call : Call)
    (parsed : Parsed) (opening' : Option Opening) (q' : Nat) : Prop where
  parses : ∃ tokens, Parses t p.logParser.startOfLog tokens parsed ∧
    Chain t (.ofBuffer buf finished) opening q tokens opening' q' ∧
    (p.logParser.feed buf offset finished).ReadsFirst t fuel tokens ∧
    ∀ action, parsed.result = .ok action →
      Cursor.Reads t (.ofBuffer buf finished)
        (Cursor.ofScanner (p.logParser.feed buf offset finished).scanner) tokens
        (Cursor.ofScanner (call.parser.logParser.feed buf call.offset finished).scanner)
  shows : call.Shows parsed
  slots : LogParser.LeavesSlots (p.logParser.feed buf offset finished) call.parser.logParser parsed
  outOfData : ∀ err, parsed.result = .error err → ¬ finished
  /-- Behind an error, the offset is read from the slot of the header. -/
  offset : ∀ err, parsed.result = .error err → call.offset =
    if call.event.pos ≠ 0 then (call.event.getToken 0).startPos else offset
  next : parsed.result = .ok .compress →
    call.parser.Awaits t buf finished opening' q' call.offset ∧
      call.parser.logParser.startOfLog = parsed.startOfLog ∧
      (parsed.startOfLog = none → call.offset = q')
  stop : parsed.result ≠ .ok .compress → ¬ (call.errorCode = .success ∧ ¬ call.parser.done)

theorem parseNextEvent_eq (p : BufferParser) : p.parseNextEvent t fuel buf offset finished =
    ((p.logParser.feed buf offset finished).parse t fuel >>= fun parsed =>
      match parsed with
      | (logParser, .error err) => do
        let offset :=
          if logParser.outputBuffer.pos ≠ 0 then (logParser.outputBuffer.getToken 0).startPos
          else offset
        let p ← reset t { logParser := logParser, done := p.done }
        return { parser := p, errorCode := err, offset := offset }
      | (logParser, .ok action) =>
        return {
          parser :=
            { logParser := logParser, done := p.done || action == .compressAndFinish }
          errorCode := .success
          offset := logParser.getInputPos }) := rfl

/-- What one call does. -/
theorem Awaits.parseNextEvent (ht : t.WellFormed) (hcaptures : t.HasCaptureRegisters)
    (h : p.Awaits t buf finished opening q offset) (hsize : buf.size < 2 ^ 31)
    (hfuel : 2 * buf.size + 1 < fuel) (hreset : (Lexer.startOfFileState t).isSome) :
    ∃ call parsed opening' q', p.parseNextEvent t fuel buf offset finished = .ok call ∧
      call.Makes t fuel buf finished opening q offset p parsed opening' q' := by
  obtain ⟨p', tokens, parsed, hparse, hparses, hmakes, hslots, hreads, hinside⟩ :=
    h.stands.parse_inStorage ht hcaptures h.inStorage hfuel (LogParser.fresh_feed _ _ _ _) h.kept
  obtain ⟨opening', q', hchain, hends, hpos⟩ := hmakes.chain
  have hread : ∀ action, parsed.result = .ok action →
      Cursor.Reads t (.ofBuffer buf finished)
        (Cursor.ofScanner (p.logParser.feed buf offset finished).scanner) tokens
        (Cursor.ofScanner (p'.feed buf p'.getInputPos finished).scanner) := by
    intro action haction
    rw [LogParser.ofScanner_feed hsize (hends action haction).resting.input.pos_le]
    exact hmakes.reads action haction
  rw [parseNextEvent_eq, hparse]
  rcases hparses.ends with hresult | hresult | hresult
  · have hstands := hends _ hresult
    have hlimit : 2 * buf.size = 2 * buf.size - 1 + 1 := by
      have hold := h.inStorage.size
      have hholds := h.stands.resting.input.size
      exact hholds.symm.trans hold
    rw [hresult]
    refine ⟨_, parsed, opening', q', rfl, ⟨tokens, hparses, hchain, hreads, hread⟩,
      ⟨hmakes.event, ?_⟩, hslots, hmakes.outOfData, fun err herr => ?_,
      fun _ => ⟨⟨hstands.feed hsize, ?_, ?_, ?_⟩, hmakes.startOfLog, hpos hresult⟩,
      fun hne => absurd hresult hne⟩
    · rw [hresult]
    · rw [hresult] at herr
      cases herr
    · exact hinside.feed hsize hlimit hstands.resting.input.pos_le
    · intro token htoken
      exact hparses.isKept hchain (hmakes.startOfLog.symm.trans htoken)
    · show (p.done || ParsingAction.compress == .compressAndFinish) = false
      rw [h.notDone]
      rfl
  · rw [hresult]
    refine ⟨_, parsed, opening', q', rfl, ⟨tokens, hparses, hchain, hreads, hread⟩,
      ⟨hmakes.event, ?_⟩, hslots, hmakes.outOfData, fun err herr => ?_, fun hcompress => ?_,
      fun _ hmore => hmore.2 ?_⟩
    · rw [hresult]
    · rw [hresult] at herr
      cases herr
    · rw [hresult] at hcompress
      cases hcompress
    · show (p.done || ParsingAction.compressAndFinish == .compressAndFinish) = true
      rw [h.notDone]
      rfl
  · obtain ⟨lexer, hlexer⟩ := p'.exists_reset hreset
    rw [hresult]
    have hbuffer : reset t { logParser := p', done := p.done } =
        .ok { logParser := { p' with lexer := lexer, inputBuffer := p'.inputBuffer.reset } } := by
      unfold BufferParser.reset
      rw [hlexer]
      rfl
    simp only [bind, Except.bind, hbuffer, pure, Except.pure]
    refine ⟨_, parsed, opening', q', rfl, ⟨tokens, hparses, hchain, hreads,
      fun action haction => by rw [hresult] at haction; cases haction⟩,
      ⟨hmakes.event, ?_⟩, hslots, hmakes.outOfData, fun _ _ => rfl, fun hcompress => ?_,
      fun _ hmore => ?_⟩
    · rw [hresult]
    · rw [hresult] at hcompress
      cases hcompress
    · cases hmore.1

/-- Behind a call that ends an event, there is another one. -/
theorem Call.Makes.goesOn {call : Call} {parsed : Parsed} {opening' : Option Opening} {q' : Nat}
    (hmakes : call.Makes t fuel buf finished opening q offset p parsed opening' q')
    (hresult : parsed.result = .ok .compress) :
    call.errorCode = .success ∧ ¬ call.parser.done = true := by
  refine ⟨?_, ?_⟩
  · rw [hmakes.shows.errorCode, hresult]
  · rw [(hmakes.next hresult).1.notDone]
    exact Bool.false_ne_true

theorem exists_of_parseEvents {calls : List Call}
    (h : p.parseEvents t fuel buf finished (count + 1) offset = .ok calls) :
    ∃ call, p.parseNextEvent t fuel buf offset finished = .ok call ∧
      ((call.errorCode = .success ∧ ¬ call.parser.done = true) ∧
          (∃ later, call.parser.parseEvents t fuel buf finished count call.offset = .ok later ∧
            calls = call :: later) ∨
        ¬ (call.errorCode = .success ∧ ¬ call.parser.done = true) ∧ calls = [call]) := by
  unfold parseEvents at h
  obtain ⟨call, hcall, h⟩ := exists_of_bind_eq_ok h
  refine ⟨call, hcall, ?_⟩
  split at h
  · rename_i hmore
    obtain ⟨later, hlater, h⟩ := exists_of_bind_eq_ok h
    cases h
    exact Or.inl ⟨hmore, later, hlater, rfl⟩
  · rename_i hstop
    cases h
    exact Or.inr ⟨hstop, rfl⟩

/-- The calls go on exactly behind a call that ends an event. -/
theorem Call.Makes.calls {call : Call} {parsed : Parsed} {opening' : Option Opening} {q' : Nat}
    (hmakes : call.Makes t fuel buf finished opening q offset p parsed opening' q')
    (hcall : p.parseNextEvent t fuel buf offset finished = .ok call) {calls : List Call}
    (hcalls : p.parseEvents t fuel buf finished (count + 1) offset = .ok calls) :
    (parsed.result = .ok .compress ∧ ∃ later,
        call.parser.parseEvents t fuel buf finished count call.offset = .ok later ∧
          calls = call :: later) ∨
      parsed.result ≠ .ok .compress ∧ calls = [call] := by
  obtain ⟨call', hcall', hcalls⟩ := exists_of_parseEvents hcalls
  rw [hcall] at hcall'
  cases hcall'
  rcases hcalls with ⟨hmore, hlater⟩ | ⟨hstop, hnil⟩
  · refine Or.inl ⟨?_, hlater⟩
    by_contra hresult
    exact hmakes.stop hresult hmore
  · exact Or.inr ⟨fun hresult => hstop (hmakes.goesOn hresult), hnil⟩

/-- The calls show the events of a run on the tokens of the text. -/
theorem Awaits.parseEvents (ht : t.WellFormed) (hcaptures : t.HasCaptureRegisters)
    (h : p.Awaits t buf finished opening q offset) (hsize : buf.size < 2 ^ 31)
    (hfuel : 2 * buf.size + 1 < fuel) (hreset : (Lexer.startOfFileState t).isSome)
    (hcount : LogParser.tokensLeft (.ofBuffer buf finished) opening q < count) :
    ∃ calls parseds, parseEvents t fuel buf finished count p offset = .ok calls ∧
      Runs t (.ofBuffer buf finished) opening q p.logParser.startOfLog parseds ∧
      List.Forall₂ Call.Shows calls parseds := by
  induction count generalizing p opening q offset with
  | zero => exact absurd hcount (Nat.not_lt_zero _)
  | succ count ih =>
    obtain ⟨call, parsed, opening', q', hcall, hmakes⟩ :=
      h.parseNextEvent ht hcaptures hsize hfuel hreset
    obtain ⟨tokens, hparses, hchain, -⟩ := hmakes.parses
    unfold BufferParser.parseEvents
    simp only [bind, Except.bind, hcall, pure, Except.pure]
    by_cases hresult : parsed.result = .ok .compress
    · obtain ⟨hawaits, hkept, -⟩ := hmakes.next hresult
      have hleft := hparses.tokensLeft_lt ht hchain hresult
      obtain ⟨calls, parseds, hcalls, hruns, hall⟩ := ih hawaits (by omega)
      rw [if_pos (hmakes.goesOn hresult), hcalls]
      rw [hkept] at hruns
      exact ⟨call :: calls, parsed :: parseds, rfl, .next hparses hchain hresult hruns,
        .cons hmakes.shows hall⟩
    · rw [if_neg (hmakes.stop hresult)]
      exact ⟨[call], [parsed], rfl, .stop hparses hchain hresult hmakes.outOfData,
        .cons hmakes.shows .nil⟩

/-- The calls succeed, and the last one ends the input. -/
def Completes (calls : List Call) : Prop :=
  (∀ call ∈ calls, call.errorCode = .success) ∧
    ∃ last, calls.getLast? = some last ∧ last.parser.done = true

/-- The calls on a text that is all there go on to its end. -/
theorem Awaits.completes (ht : t.WellFormed) (hcaptures : t.HasCaptureRegisters)
    (h : p.Awaits t buf true opening q offset) (hsize : buf.size < 2 ^ 31)
    (hfuel : 2 * buf.size + 1 < fuel) (hreset : (Lexer.startOfFileState t).isSome)
    (hcount : LogParser.tokensLeft (.ofBuffer buf true) opening q < count) {calls : List Call}
    (hcalls : p.parseEvents t fuel buf true count offset = .ok calls) : Completes calls := by
  induction count generalizing p opening q offset calls with
  | zero => exact absurd hcount (Nat.not_lt_zero _)
  | succ count ih =>
    obtain ⟨call, parsed, opening', q', hcall, hmakes⟩ :=
      h.parseNextEvent ht hcaptures hsize hfuel hreset
    have hcode : call.errorCode = .success := by
      rw [hmakes.shows.errorCode]
      cases hresult : parsed.result with
      | ok action => rfl
      | error err => exact absurd rfl (hmakes.outOfData err hresult)
    rcases hmakes.calls hcall hcalls with ⟨hresult, later, hlater, rfl⟩ | ⟨hresult, rfl⟩
    · obtain ⟨hawaits, -⟩ := hmakes.next hresult
      obtain ⟨tokens, hparses, hchain, -⟩ := hmakes.parses
      have hleft := hparses.tokensLeft_lt ht hchain hresult
      obtain ⟨hall, last, hlast, hdone⟩ := ih hawaits (by omega) hlater
      refine ⟨List.forall_mem_cons.2 ⟨hcode, hall⟩, last, ?_, hdone⟩
      rw [List.getLast?_cons, hlast]
      rfl
    · refine ⟨List.forall_mem_singleton.2 hcode, call, rfl, ?_⟩
      by_contra hno
      exact hmakes.stop hresult ⟨hcode, hno⟩

/-- A new parser behind a reset stands at the start, whatever the offset is. -/
theorem standsAt_reset (ht : t.WellFormed) {p₀ : BufferParser}
    (hreset : (BufferParser.new t).reset t = .ok p₀) (hsize : buf.size < 2 ^ 31)
    (hoffset : offset ≤ buf.size) :
    ∃ state, Lexer.startOfFileState t = some state ∧
      (p₀.logParser.feed buf offset finished).StandsAt t (.ofBuffer buf finished)
        (some ⟨state, offset⟩) 0 ∧
      p₀.logParser.startOfLog = none := by
  obtain ⟨logParser, hlogParser, hreset⟩ := exists_of_bind_eq_ok hreset
  cases hreset
  have hregisters : (LogParser.new t).scanner.KeepsWithin t 0 :=
    ⟨rfl, ht.registers.unused.within (Int.natCast_nonneg _)⟩
  exact LogParser.standsAt_reset ht hregisters.hasRegisters hlogParser hsize hoffset

/-- A new parser behind a reset is ready for a call with any offset. -/
theorem awaits_reset (ht : t.WellFormed) {p₀ : BufferParser}
    (hreset : (BufferParser.new t).reset t = .ok p₀) (hsize : buf.size < 2 ^ 31)
    (hpos : 0 < buf.size) (hoffset : offset ≤ buf.size) :
    ∃ state, Lexer.startOfFileState t = some state ∧
      p₀.Awaits t buf finished (some ⟨state, offset⟩) 0 offset ∧
      p₀.logParser.startOfLog = none := by
  obtain ⟨state, hstate, hstands, hnone⟩ := standsAt_reset ht hreset hsize hoffset
  obtain ⟨logParser, hlogParser, hreset⟩ := exists_of_bind_eq_ok hreset
  cases hreset
  have hregisters : (LogParser.new t).scanner.KeepsWithin t (2 * buf.size - 1) :=
    ⟨rfl, ht.registers.unused.within (Int.natCast_nonneg _)⟩
  have hinside : (logParser.feed buf offset finished).InStorage t (2 * buf.size - 1) :=
    LogParser.inStorage_reset hregisters (RegisterHandler.within_new _) hlogParser hsize (by omega)
      hoffset
  refine ⟨state, hstate, ⟨hstands, hinside, fun token htoken => ?_, rfl⟩, hnone⟩
  rw [hnone] at htoken
  cases htoken

end BufferParser

end LogSurgeon
