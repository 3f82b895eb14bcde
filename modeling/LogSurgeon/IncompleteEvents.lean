import LogSurgeon.EventTexts
import LogSurgeon.StartingOffset

/-!
# Incomplete events

Where the data ends within an event, `parseNextEvent` leaves the start of the
token in the slot of the header as the offset.  This is the start of the event
if its first token is a header.  Otherwise the slot holds the header of an
earlier event, or no token at all (`leavesAtStart_iff`).

* `SlotStays` says that the slot survives the reset before the next event.
* `Between` is the parser between two events.  It keeps the length of the texts
  of the events so far, which is `surplus` more than the text that they cover.
-/

namespace LogSurgeon

/-! ## The slot of the header -/

namespace LogParserOutputBuffer

/-- The slot of the header holds the same token behind a reset. -/
def SlotStays (b : LogParserOutputBuffer) : Prop := b.reset.getToken 0 = b.getToken 0

variable {b : LogParserOutputBuffer}

theorem slotStays_of_static (h : b.storage.activeStorage = none) : b.SlotStays := by
  show b.storage.staticStorage 0 = b.storage.activeStorage.getD b.storage.staticStorage 0
  rw [h]
  rfl

theorem activeStorage_setToken (h : b.storage.activeStorage = none) (i : Nat) (value : Token) :
    (b.setToken i value).storage.activeStorage = none := by
  show (b.storage.write _).activeStorage = none
  unfold Buffer.write
  rw [h]

theorem SlotStays.setToken (h : b.SlotStays) {i : Nat} (hi : 0 ≠ i) (value : Token) :
    (b.setToken i value).SlotStays := by
  cases hactive : b.storage.activeStorage with
  | none => exact slotStays_of_static (activeStorage_setToken hactive i value)
  | some storage =>
    have hstatic : (b.setToken i value).reset.getToken 0 = b.reset.getToken 0 := by
      show (b.storage.write _).staticStorage 0 = b.storage.staticStorage 0
      unfold Buffer.write
      rw [hactive]
    unfold SlotStays
    rw [hstatic, getToken_setToken, if_neg hi]
    exact h

theorem SlotStays.setCurrToken (h : b.SlotStays) (hpos : 1 ≤ b.pos) (value : Token) :
    (b.setCurrToken value).SlotStays := h.setToken (Nat.ne_of_lt hpos) value

theorem SlotStays.advanceToNextToken (h : b.SlotStays) : b.advanceToNextToken.SlotStays := by
  have hstatic : b.advanceToNextToken.reset.getToken 0 = b.reset.getToken 0 := by
    unfold LogParserOutputBuffer.advanceToNextToken
    dsimp only
    split <;> rfl
  unfold SlotStays
  rw [hstatic, getToken_advanceToNextToken b (Nat.zero_le _)]
  exact h

end LogParserOutputBuffer

namespace LogParser

open LogParserOutputBuffer

variable {t : LexerTables} {fuel steps : Nat} {p p' : LogParser} {token : Token}

theorem outputBuffer_getNextSymbol {result : ScanResult}
    (h : p.getNextSymbol t fuel = .ok (p', result)) : p'.outputBuffer = p.outputBuffer := by
  obtain ⟨scanned, -, h⟩ := exists_of_bind_eq_ok h
  cases h
  rfl

/-- The output buffer behind the first token of an event. -/
structure KeepsSlot (p : LogParser) : Prop where
  pos : 1 ≤ p.outputBuffer.pos
  slot : p.outputBuffer.SlotStays

theorem KeepsSlot.addToEvent (h : p.KeepsSlot) {action : Option ParsingAction}
    (hadd : p.addToEvent token = .ok (p', action)) : p'.KeepsSlot := by
  have hset := h.slot.setCurrToken h.pos token
  have hpos : 1 ≤ (p.outputBuffer.setCurrToken token).pos := by
    rw [pos_setCurrToken]
    exact h.pos
  have hnext : ∀ b : LogParserOutputBuffer, 1 ≤ b.advanceToNextToken.pos := by
    intro b
    rw [pos_advanceToNextToken]
    exact Nat.le_add_left 1 _
  obtain ⟨tokenType, -, hadd⟩ := exists_of_bind_eq_ok hadd
  dsimp only at hadd
  split at hadd
  · cases hadd
    exact ⟨hpos, hset⟩
  · split at hadd
    · cases hadd
      exact ⟨hnext _, hset.advanceToNextToken⟩
    · split at hadd
      · cases hadd
        exact ⟨hnext _, (hset.setCurrToken hpos _).advanceToNextToken⟩
      · cases hadd
        exact ⟨hnext _, hset.advanceToNextToken⟩

theorem KeepsSlot.parseLoop (h : p.KeepsSlot) {result : Except ErrorCode ParsingAction}
    (hloop : p.parseLoop t fuel steps = .ok (p', result)) : p'.KeepsSlot := by
  induction steps generalizing p with
  | zero => cases hloop
  | succ steps ih =>
    obtain ⟨⟨p₁, r₁⟩, hsymbol, hloop⟩ := exists_of_bind_eq_ok hloop
    have hsame := outputBuffer_getNextSymbol hsymbol
    have hkeeps : p₁.KeepsSlot := by
      constructor
      · rw [hsame]
        exact h.pos
      · rw [hsame]
        exact h.slot
    cases r₁ with
    | error err =>
      cases hloop
      exact hkeeps
    | ok token =>
      obtain ⟨⟨p₂, r₂⟩, hadd, hloop⟩ := exists_of_bind_eq_ok hloop
      have hadded := hkeeps.addToEvent hadd
      cases r₂ with
      | some action =>
        cases hloop
        exact hadded
      | none => exact ih hadded hloop

/-- The first token of an event goes to the static storage. -/
theorem keepsSlot_beginEvent (hstatic : p.outputBuffer.storage.activeStorage = none)
    {action : Option ParsingAction} (hbegin : p.beginEvent t token = .ok (p', action)) :
    p'.KeepsSlot := by
  obtain ⟨typeId, -, hbegin⟩ := exists_of_bind_eq_ok hbegin
  dsimp only at hbegin
  split at hbegin
  · cases hbegin
    exact ⟨Nat.le_refl 1, slotStays_of_static (activeStorage_setToken hstatic 0 token)⟩
  · split at hbegin
    · obtain ⟨p₁, hp₁, hbegin⟩ := exists_of_bind_eq_ok hbegin
      rw [beginWithHeader_eq] at hp₁
      obtain ⟨timestamp, -, hp₁⟩ := exists_of_bind_eq_ok hp₁
      cases hp₁
      cases hbegin
      exact ⟨Nat.le_refl 1, slotStays_of_static (activeStorage_setToken hstatic 0 token)⟩
    · cases hbegin
      refine ⟨Nat.le_add_left 1 _, slotStays_of_static ?_⟩
      exact @activeStorage_setToken { p.outputBuffer with hasHeader := false, timestamp := none }
        hstatic 1 token

/-- A parse that starts with an output buffer behind a reset. -/
theorem slotStays_parse (hpos : p.outputBuffer.pos = 0)
    (hstatic : p.outputBuffer.storage.activeStorage = none)
    {result : Except ErrorCode ParsingAction} (hparse : p.parse t fuel = .ok (p', result)) :
    p'.outputBuffer.SlotStays := by
  unfold parse at hparse
  rw [if_pos hpos] at hparse
  obtain ⟨⟨p₁, r₁⟩, hfirst, hparse⟩ := exists_of_bind_eq_ok hparse
  have hslot : p₁.outputBuffer.SlotStays ∧ (r₁ = .ok none → p₁.KeepsSlot) := by
    have hbegins : ∀ {q : LogParser} {token : Token} {action : Option ParsingAction},
        q.outputBuffer.storage.activeStorage = none → q.beginEvent t token = .ok (p₁, action) →
        p₁.outputBuffer.SlotStays ∧ (r₁ = .ok none → p₁.KeepsSlot) := fun hq hbegin =>
      have hkeeps := keepsSlot_beginEvent hq hbegin
      ⟨hkeeps.slot, fun _ => hkeeps⟩
    unfold parseFirst at hfirst
    split at hfirst
    · obtain ⟨⟨p₂, action⟩, hbegin, hfirst⟩ := exists_of_bind_eq_ok hfirst
      cases hfirst
      exact hbegins hstatic hbegin
    · obtain ⟨⟨p₂, r₂⟩, hsymbol, hfirst⟩ := exists_of_bind_eq_ok hfirst
      have hstatic' : p₂.outputBuffer.storage.activeStorage = none := by
        rw [outputBuffer_getNextSymbol hsymbol]
        exact hstatic
      cases r₂ with
      | error err =>
        cases hfirst
        exact ⟨slotStays_of_static hstatic', fun h => by cases h⟩
      | ok token =>
        obtain ⟨typeId, -, hfirst⟩ := exists_of_bind_eq_ok hfirst
        dsimp only at hfirst
        split at hfirst
        · cases hfirst
          exact ⟨slotStays_of_static (activeStorage_setToken hstatic' 1 _), fun h => by cases h⟩
        · obtain ⟨⟨p₃, action⟩, hbegin, hfirst⟩ := exists_of_bind_eq_ok hfirst
          cases hfirst
          exact hbegins hstatic' hbegin
  rcases r₁ with err | (_ | action)
  · cases hparse
    exact hslot.1
  · exact ((hslot.2 rfl).parseLoop hparse).slot
  · cases hparse
    exact hslot.1

end LogParser

/-! ## A text that is at its end -/

/-- A cursor that is opened at the end asks for more data. -/
theorem Cursor.Opened.not_scans_ok {t : LexerTables} {src : Source} {o : Opening} {c c' : Cursor}
    (h : c.Opened t src o) (hend : o.offset = src.size) (hfinished : ¬ src.finished) {span : Span} :
    ¬ Scans t src c c' (.ok span) := by
  intro hscans
  rw [scans_of_asked h.asked] at hscans
  have hstep : ({ c with askedForMoreData := false } : Cursor).step t src =
      ({ c with askedForMoreData := true }, some (.error .bufferOutOfBounds)) :=
    if_pos ⟨h.pos.trans hend, hfinished⟩
  cases hscans with
  | stop hstep' =>
    rw [hstep] at hstep'
    cases hstep'
  | next hstep' =>
    rw [hstep] at hstep'
    cases hstep'

theorem LogParser.StandsAt.getNextSymbol_of_end {t : LexerTables} {src : Source} {o : Opening}
    {fuel : Nat} {p p' : LogParser} {token : Token} (ht : t.WellFormed)
    (h : p.StandsAt t src (some o) 0) (hend : o.offset = src.size) (hfinished : ¬ src.finished)
    (hfuel : 2 * src.size + 1 < fuel) : p.getNextSymbol t fuel ≠ .ok (p', .ok token) := by
  intro hsymbol
  obtain ⟨s, result, result', hscan, -, hscans, hdelivers⟩ :=
    Scanner.scan_refines ht h.resting hfuel
  unfold LogParser.getNextSymbol at hsymbol
  obtain ⟨scanned, hscan', hsymbol⟩ := exists_of_bind_eq_ok hsymbol
  have hscan : Scanner.scan t fuel { lexer := p.lexer, input := p.inputBuffer } =
    .ok (s, result) := hscan
  rw [hscan] at hscan'
  cases hscan'
  cases hsymbol
  cases h.position with
  | opened hopened =>
    cases result' with
    | ok span => exact hopened.not_scans_ok hend hfinished hscans
    | error err => exact hdelivers

/-! ## The first token of an event -/

section First

variable {t : LexerTables} {src : Source} {opening opening' : Option Opening} {q q' : Nat}
  {token : Token} {tokens : List Token} {parsed : Parsed} {startOfLog : Option Token}

/-- The event has tokens, unless the input ends.  The first one is the token if it
has a header or the data ends within it, and then it has a header if the token is
one. -/
structure Parsed.StartsWith (parsed : Parsed) (token : Token) : Prop where
  ne_nil : parsed.result ≠ .ok .compressAndFinish → parsed.event.tokens ≠ []
  head : parsed.event.hasHeader = true ∨ (∃ err, parsed.result = .error err) →
    ∃ rest, parsed.event.tokens = token :: rest
  hasHeader_iff : ∀ err, parsed.result = .error err → (parsed.event.hasHeader = true ↔
    token.firstTypeId = .ok SymbolId.tokenHeader.toNat)

/-- An event without a header that does not end for want of data. -/
theorem Parsed.startsWith_of_ok {parsed : Parsed} {action : ParsingAction}
    (hheader : parsed.event.hasHeader = false) (hresult : parsed.result = .ok action)
    (hne : action ≠ .compressAndFinish → parsed.event.tokens ≠ []) : parsed.StartsWith token := by
  have hno : ∀ err, parsed.result ≠ .error err := by
    intro err herr
    rw [hresult] at herr
    cases herr
  refine ⟨fun haction => hne fun heq => haction ?_, ?_, fun err herr => absurd herr (hno err)⟩
  · rw [hresult, heq]
  · rintro (hyes | ⟨err, herr⟩)
    · rw [hheader] at hyes
      cases hyes
    · exact absurd herr (hno err)

theorem Begins.startsWith (h : Begins t token tokens parsed) : parsed.StartsWith token := by
  have hcons : ∀ {added : List Token}, parsed.event.tokens = token :: added →
      parsed.event.tokens ≠ [] := by
    intro added hadded
    rw [hadded]
    exact List.cons_ne_nil _ _
  cases h with
  | finish => exact Parsed.startsWith_of_ok rfl rfl fun hne => absurd rfl hne
  | header htype _ hrest =>
    obtain ⟨hheader, -, added, hadded⟩ := hrest.event
    exact ⟨fun _ => hcons hadded, fun _ => ⟨added, hadded⟩, fun _ _ => iff_of_true hheader htype⟩
  | other htype _ hno hrest =>
    obtain ⟨hheader, -, added, hadded⟩ := hrest.event
    refine ⟨fun _ => hcons hadded, fun _ => ⟨added, hadded⟩, fun _ _ => ?_⟩
    rw [hheader, htype]
    exact iff_of_false Bool.false_ne_true fun heq => hno (Except.ok.inj heq)

/-- The first token stands where the event starts. -/
theorem Parses.startsWith (h : Parses t startOfLog tokens parsed)
    (hchain : Chain t src opening q tokens opening' q')
    (hfirst : startOfLog.or tokens.head? = some token) :
    token.startPos = eventStart startOfLog q ∧ parsed.StartsWith token := by
  cases h with
  | outOfData => cases hfirst
  | kept hbegins =>
    cases hfirst
    exact ⟨rfl, hbegins.startsWith⟩
  | newline =>
    cases hfirst
    cases hchain with
    | cons hlexeme =>
      exact ⟨hlexeme.startPos, Parsed.startsWith_of_ok rfl rfl fun _ => List.cons_ne_nil _ _⟩
  | read _ hbegins =>
    cases hfirst
    cases hchain with
    | cons hlexeme => exact ⟨hlexeme.startPos, hbegins.startsWith⟩

theorem Parses.of_no_first (h : Parses t startOfLog tokens parsed)
    (hfirst : startOfLog.or tokens.head? = none) :
    startOfLog = none ∧ parsed.event.tokens = [] ∧ parsed.result ≠ .ok .compress := by
  cases h with
  | outOfData => exact ⟨rfl, rfl, by intro h; cases h⟩
  | kept => cases hfirst
  | newline => cases hfirst
  | read => cases hfirst

theorem Extends.ne_nil {event : Event} (h : Extends event tokens parsed)
    (hresult : parsed.result = .ok .compress) : tokens ≠ [] := by
  rintro rfl
  cases h
  cases hresult

theorem Parses.ne_nil (h : Parses t startOfLog tokens parsed)
    (hresult : parsed.result = .ok .compress) : tokens ≠ [] := by
  cases h with
  | outOfData => cases hresult
  | kept hbegins =>
    cases hbegins with
    | finish => cases hresult
    | header _ _ hrest => exact hrest.ne_nil hresult
    | other _ _ _ hrest => exact hrest.ne_nil hresult
  | newline => exact List.cons_ne_nil _ _
  | read => exact List.cons_ne_nil _ _

theorem Chain.opening_eq_none (h : Chain t src opening q tokens opening' q') (hne : tokens ≠ []) :
    opening' = none := by
  induction h with
  | nil => exact absurd rfl hne
  | @cons _ _ _ _ _ _ tokens _ hrest ih =>
    cases tokens with
    | nil =>
      cases hrest
      rfl
    | cons => exact ih (List.cons_ne_nil _ _)

end First

/-! ## Calls -/

namespace BufferParser

variable {t : LexerTables} {buf : UserBuffer} {finished : Bool} {opening opening' : Option Opening}
  {q q' offset fuel count surplus total : Nat} {p : BufferParser} {call : Call} {parsed : Parsed}

/-- The token with which the next event starts: the one that is kept, or the
next one of the lexer. -/
def FirstToken (t : LexerTables) (fuel : Nat) (buf : UserBuffer) (finished : Bool) (offset : Nat)
    (p : BufferParser) (token : Token) : Prop :=
  p.logParser.startOfLog = some token ∨
    p.logParser.startOfLog = none ∧
      ∃ p', (p.logParser.feed buf offset finished).getNextSymbol t fuel = .ok (p', .ok token)

/-- The token in the slot of the header at the start of an event. -/
def headerSlot (p : BufferParser) : Token := p.logParser.outputBuffer.reset.getToken 0

theorem firstToken_iff {tokens : List Token}
    (hreads : (p.logParser.feed buf offset finished).ReadsFirst t fuel tokens) {token : Token} :
    p.FirstToken t fuel buf finished offset token ↔
      p.logParser.startOfLog.or tokens.head? = some token := by
  unfold FirstToken
  cases hstart : p.logParser.startOfLog with
  | some kept => simp
  | none =>
    obtain ⟨p', result, hsymbol, hresult⟩ := hreads hstart
    simp only [reduceCtorEq, false_or, true_and, Option.none_or]
    rw [← hresult token]
    constructor
    · rintro ⟨p'', hsymbol'⟩
      rw [hsymbol] at hsymbol'
      cases hsymbol'
      rfl
    · rintro rfl
      exact ⟨p', hsymbol⟩

theorem slotStays_parseNextEvent
    (hcall : p.parseNextEvent t fuel buf offset finished = .ok call) : call.event.SlotStays := by
  rw [parseNextEvent_eq] at hcall
  obtain ⟨⟨p', result⟩, hparse, hcall⟩ := exists_of_bind_eq_ok hcall
  have hslot := LogParser.slotStays_parse rfl rfl hparse
  cases result with
  | ok action =>
    cases hcall
    exact hslot
  | error err =>
    obtain ⟨p'', hreset, hcall⟩ := exists_of_bind_eq_ok hcall
    obtain ⟨logParser, hlogParser, hreset⟩ := exists_of_bind_eq_ok hreset
    obtain ⟨lexer, -, hlogParser⟩ := exists_of_bind_eq_ok hlogParser
    cases hlogParser
    cases hreset
    cases hcall
    exact hslot

/-- The parser between two events, whose texts so far have the length `total`. -/
structure Between (t : LexerTables) (buf : UserBuffer) (surplus total q offset : Nat)
    (p : BufferParser) : Prop where
  awaits : p.Awaits t buf false none q offset
  covers : total + (keptText p.logParser.startOfLog).length = q + surplus
  start : eventStart p.logParser.startOfLog q ≤ total
  slot : p.headerSlot.startPos < total
  offset : p.logParser.startOfLog = none → offset = q

/-- What the slot of the header holds behind a parse. -/
theorem Call.Makes.slot
    (hmakes : call.Makes t fuel buf finished opening q offset p parsed opening' q')
    (hresult : parsed.result ≠ .ok .compressAndFinish) {token : Token}
    (hfirst : ∀ token', p.FirstToken t fuel buf finished offset token' ↔ token' = token) :
    call.event.pos ≠ 0 ∧ parsed.StartsWith token ∧
      (call.event.getToken 0).startPos =
        if parsed.event.hasHeader = true then eventStart p.logParser.startOfLog q
        else p.headerSlot.startPos := by
  obtain ⟨tokens, hparses, hchain, hreads, -⟩ := hmakes.parses
  have htoken := (firstToken_iff hreads).1 ((hfirst token).2 rfl)
  obtain ⟨hstart, hstarts⟩ := hparses.startsWith hchain htoken
  rcases hmakes.slots hresult with ⟨-, hempty⟩ | ⟨hpos, token', rest, htokens, hslot⟩
  · exact absurd hempty (hstarts.ne_nil hresult)
  · have hslot : call.event.getToken 0 =
      if parsed.event.hasHeader = true then token' else p.headerSlot := hslot
    refine ⟨Nat.ne_of_gt hpos, hstarts, ?_⟩
    rw [hslot]
    by_cases hheader : parsed.event.hasHeader = true
    · obtain ⟨rest', hrest⟩ := hstarts.head (Or.inl hheader)
      rw [hrest] at htokens
      rw [if_pos hheader, if_pos hheader, ← (List.cons.inj htokens).1, hstart]
    · rw [if_neg hheader, if_neg hheader]

/-- A call either has no first token to read, and leaves nothing, or it has one. -/
theorem Call.Makes.firstToken_cases
    (hmakes : call.Makes t fuel buf finished opening q offset p parsed opening' q') :
    ((∀ token, ¬ p.FirstToken t fuel buf finished offset token) ∧
        p.logParser.startOfLog = none ∧ parsed.event.tokens = [] ∧
        parsed.result ≠ .ok .compress) ∨
      ∃ token, ∀ token', p.FirstToken t fuel buf finished offset token' ↔ token' = token := by
  obtain ⟨tokens, hparses, -, hreads, -⟩ := hmakes.parses
  cases hfirst : p.logParser.startOfLog.or tokens.head? with
  | none =>
    refine Or.inl ⟨fun token htoken => ?_, hparses.of_no_first hfirst⟩
    rw [firstToken_iff hreads, hfirst] at htoken
    cases htoken
  | some token =>
    refine Or.inr ⟨token, fun token' => ?_⟩
    rw [firstToken_iff hreads, hfirst, Option.some.injEq]
    exact eq_comm

/-- The offset behind an error is the start of the first token, if that is a
header, or what the slot of the header holds. -/
theorem Call.Makes.offset_of_error
    (hmakes : call.Makes t fuel buf finished opening q offset p parsed opening' q')
    {err : ErrorCode} (herr : parsed.result = .error err) :
    (p.logParser.startOfLog = none ∧ call.offset = offset ∧
        ∀ token, ¬ p.FirstToken t fuel buf finished offset token) ∨
      ∃ token, (∀ token', p.FirstToken t fuel buf finished offset token' ↔ token' = token) ∧
        (token.firstTypeId = .ok SymbolId.tokenHeader.toNat ∧
            call.offset = eventStart p.logParser.startOfLog q ∨
          token.firstTypeId ≠ .ok SymbolId.tokenHeader.toNat ∧
            call.offset = p.headerSlot.startPos) := by
  have hresult : parsed.result ≠ .ok .compressAndFinish := by
    rw [herr]
    exact fun heq => by cases heq
  have hoffset := hmakes.offset err herr
  rcases hmakes.firstToken_cases with ⟨hno, hnone, hempty, -⟩ | ⟨token, hfirst⟩
  · refine Or.inl ⟨hnone, ?_, hno⟩
    rcases hmakes.slots hresult with ⟨hpos, -⟩ | ⟨-, token, rest, htokens, -⟩
    · have hpos : call.event.pos = 0 := hpos
      rw [hoffset, if_neg (not_not.2 hpos)]
    · rw [hempty] at htokens
      cases htokens
  · obtain ⟨hpos, hstarts, hslot⟩ := hmakes.slot hresult hfirst
    refine Or.inr ⟨token, hfirst, ?_⟩
    rw [if_pos hpos, hslot] at hoffset
    by_cases hheader : parsed.event.hasHeader = true
    · rw [if_pos hheader] at hoffset
      exact Or.inl ⟨(hstarts.hasHeader_iff err herr).1 hheader, hoffset⟩
    · rw [if_neg hheader] at hoffset
      exact Or.inr ⟨fun htype => hheader ((hstarts.hasHeader_iff err herr).2 htype), hoffset⟩

/-- Behind an event, the slot of the header holds its header or that of an earlier
one. -/
theorem Call.Makes.headerSlot_le
    (hmakes : call.Makes t fuel buf finished opening q offset p parsed opening' q')
    (hcall : p.parseNextEvent t fuel buf offset finished = .ok call)
    (hresult : parsed.result = .ok .compress) :
    call.parser.headerSlot.startPos ≤
      max p.headerSlot.startPos (eventStart p.logParser.startOfLog q) := by
  have hne : parsed.result ≠ .ok .compressAndFinish := by
    rw [hresult]
    exact fun heq => by cases heq
  have hstays : call.parser.headerSlot = call.event.getToken 0 := slotStays_parseNextEvent hcall
  rw [hstays]
  rcases hmakes.firstToken_cases with ⟨-, -, -, hno⟩ | ⟨token, hfirst⟩
  · exact absurd hresult hno
  · obtain ⟨-, -, hslot⟩ := hmakes.slot hne hfirst
    rw [hslot]
    split
    · exact Nat.le_max_right _ _
    · exact Nat.le_max_left _ _

/-- Where the data ends within an event, the offset is its start if its first
token is a header. -/
theorem Between.offset_eq_iff (h : p.Between t buf surplus total q offset)
    (hmakes : call.Makes t fuel buf false none q offset p parsed opening' q') {err : ErrorCode}
    (herr : parsed.result = .error err) :
    call.offset = total ↔ eventStart p.logParser.startOfLog q = total ∧
      ∀ token, p.FirstToken t fuel buf false offset token →
        token.firstTypeId = .ok SymbolId.tokenHeader.toNat := by
  rcases hmakes.offset_of_error herr with
    ⟨hnone, hoffset, hno⟩ | ⟨token, hfirst, ⟨htype, hoffset⟩ | ⟨htype, hoffset⟩⟩
  · have hstart : eventStart p.logParser.startOfLog q = q := by
      rw [hnone]
      rfl
    rw [hoffset, h.offset hnone, hstart]
    refine (and_iff_left ?_).symm
    intro token htoken
    exact absurd htoken (h.offset hnone ▸ hno token)
  · rw [hoffset]
    refine (and_iff_left fun token' htoken => ?_).symm
    rw [(hfirst token').1 htoken]
    exact htype
  · rw [hoffset]
    refine iff_of_false h.slot.ne fun hall => ?_
    exact htype (hall.2 token ((hfirst token).2 rfl))

/-- A call that ends an event takes its text from the text. -/
theorem Call.Makes.between
    (hmakes : call.Makes t fuel buf false opening q offset p parsed opening' q')
    (hcall : p.parseNextEvent t fuel buf offset false = .ok call)
    (hresult : parsed.result = .ok .compress)
    (htext : MakesText (.ofBuffer buf false) parsed (keptText p.logParser.startOfLog) q q')
    (hcovers : total + (keptText p.logParser.startOfLog).length = q + surplus)
    (hstart : eventStart p.logParser.startOfLog q ≤ total) (hslot : p.headerSlot.startPos ≤ total) :
    call.parser.Between t buf surplus (total + call.event.toString.length) q' call.offset ∧
      eventStart call.parser.logParser.startOfLog q' + surplus =
        total + call.event.toString.length := by
  obtain ⟨tokens, hparses, hchain, -⟩ := hmakes.parses
  obtain ⟨hawaits, hkept, hoffset⟩ := hmakes.next hresult
  rw [hchain.opening_eq_none (hparses.ne_nil hresult)] at hawaits
  have hlt := htext.lt hresult
  have hle := htext.keeps.eventStart_le
  have hlength : call.event.toString.length = (keptText p.logParser.startOfLog).length +
      (eventStart parsed.startOfLog q' - q) := by
    have hevent : call.event.toString = parsed.event.toString := by
      rw [← hmakes.shows.event]
      rfl
    rw [hevent, htext.text, List.length_append, Source.length_word]
  have hlength' : (keptText parsed.startOfLog).length = q' - eventStart parsed.startOfLog q' := by
    rw [htext.keeps.keptText, Source.length_word]
  have hslot' := hmakes.headerSlot_le hcall hresult
  rw [← hkept] at hlt hle hlength hlength'
  exact ⟨⟨hawaits, by omega, by omega, by omega, fun hnone => hoffset (hkept.symm.trans hnone)⟩,
    by omega⟩

/-- The event of a call has the text of the token that is kept and that of the tokens.
Only the first token of the text can be a header without text in front of a newline. -/
theorem Awaits.makesText (ht : t.WellFormed)
    (hend : ∀ state, SymbolId.tokenEnd.toNat ∉ t.dfa.typeIds state)
    (h : p.Awaits t buf finished opening q offset)
    (hfirst : opening ≠ none → p.logParser.startOfLog = none ∧
      ∀ token, p.FirstToken t fuel buf finished offset token → ¬ token.IsEmptyHeader)
    (hmakes : call.Makes t fuel buf finished opening q offset p parsed opening' q') :
    MakesText (.ofBuffer buf finished) parsed (keptText p.logParser.startOfLog) q q' := by
  obtain ⟨tokens, hparses, hchain, hreads, -⟩ := hmakes.parses
  refine hparses.makesText ht hend hchain (fun hne => ?_) (fun token htoken htype => ?_)
    fun hnone token htoken hempty => ?_
  · by_contra hopening
    exact hne (hfirst hopening).1
  · obtain ⟨id, hid, hne⟩ := LogParser.exists_type_of_isKept (h.kept token htoken)
    rw [htype] at hid
    exact hne (Except.ok.inj hid).symm
  · by_cases hopening : opening = none
    · rw [hopening] at hchain
      cases hchain with
      | nil => cases htoken
      | cons hlexeme =>
        cases htoken
        have hlt := hlexeme.lt_of_type ht hempty.1.1 (by decide)
        have hlength : token.toString.length = 0 := by rw [hempty.2, List.length_nil]
        rw [hlexeme.toString_eq, Source.length_word] at hlength
        omega
    · refine (hfirst hopening).2 token ?_ hempty
      rw [firstToken_iff hreads, hnone, Option.none_or]
      exact htoken

/-- Between two events, a call keeps the surplus. -/
theorem Between.next (ht : t.WellFormed)
    (hend : ∀ state, SymbolId.tokenEnd.toNat ∉ t.dfa.typeIds state)
    (h : p.Between t buf surplus total q offset)
    (hcall : p.parseNextEvent t fuel buf offset false = .ok call)
    (hmakes : call.Makes t fuel buf false none q offset p parsed opening' q')
    (hresult : parsed.result = .ok .compress) :
    call.parser.Between t buf surplus (total + call.event.toString.length) q' call.offset ∧
      eventStart call.parser.logParser.startOfLog q' + surplus =
        total + call.event.toString.length := by
  have htext := h.awaits.makesText ht hend (fun hne => absurd rfl hne) hmakes
  exact hmakes.between hcall hresult htext h.covers h.start h.slot.le

/-- The first event, unless it is the newline in front of a header without
text. -/
theorem Call.Makes.between_first (ht : t.WellFormed)
    (hend : ∀ state, SymbolId.tokenEnd.toNat ∉ t.dfa.typeIds state)
    (h : p.Awaits t buf false opening 0 0)
    (hnone : p.logParser.startOfLog = none) (hslot : p.headerSlot.startPos = 0)
    (hcall : p.parseNextEvent t fuel buf 0 false = .ok call)
    (hmakes : call.Makes t fuel buf false opening 0 0 p parsed opening' q')
    (hresult : parsed.result = .ok .compress)
    (hempty : ¬ ∃ token, p.FirstToken t fuel buf false 0 token ∧ token.IsEmptyHeader) :
    call.parser.Between t buf 0 call.event.toString.length q' call.offset ∧
      eventStart call.parser.logParser.startOfLog q' = call.event.toString.length := by
  have htext := h.makesText ht hend
    (fun _ => ⟨hnone, fun token htoken hheader => hempty ⟨token, htoken, hheader⟩⟩) hmakes
  have hbetween : call.parser.Between t buf 0 (0 + call.event.toString.length) q' call.offset ∧
      eventStart call.parser.logParser.startOfLog q' + 0 = 0 + call.event.toString.length :=
    hmakes.between hcall hresult htext (by rw [hnone]; rfl) (by rw [hnone]; rfl) hslot.le
  rwa [Nat.zero_add, Nat.add_zero] at hbetween

/-- What is left of a header without text in front of a newline is kept as a token that
wraps, so its text is the rest of the input buffer. -/
structure Call.SplitsEmptyHeader (buf : UserBuffer) (token : Token) (call : Call)
    (parsed : Parsed) (q' : Nat) : Prop where
  result : parsed.result = .ok .compress
  eq_zero : q' = 0
  kept : parsed.startOfLog = some token.incrementStartPos
  startPos : token.incrementStartPos.startPos = 1
  lengthKept : token.incrementStartPos.toString.length = 2 * buf.size - 1
  length : call.event.toString.length = 1

/-- The newline in front of a header without text is an event. -/
theorem Call.Makes.splitsEmptyHeader (hnone : p.logParser.startOfLog = none)
    (hmakes : call.Makes t fuel buf finished opening 0 offset p parsed opening' q') {token : Token}
    (hfirst : p.FirstToken t fuel buf finished offset token) (hempty : token.IsEmptyHeader) :
    call.SplitsEmptyHeader buf token parsed q' := by
  obtain ⟨tokens, hparses, hchain, hreads, -⟩ := hmakes.parses
  have hevent : call.event.toString = parsed.event.toString := by
    rw [← hmakes.shows.event]
    rfl
  rw [firstToken_iff hreads, hnone, Option.none_or] at hfirst
  rw [hnone] at hparses
  cases hparses with
  | outOfData => cases hfirst
  | read hno =>
    cases hfirst
    exact absurd hempty.1 hno
  | newline =>
    cases hfirst
    cases hchain with
    | cons hlexeme hrest =>
      cases hrest
      have hzero : q' = 0 := by
        have hlength := congrArg List.length hempty.2
        rw [hlexeme.toString_eq, Source.length_word] at hlength
        exact hlength
      rw [hzero] at hlexeme
      refine ⟨rfl, hzero, rfl, hlexeme.getNextPos_of_empty,
        hlexeme.length_incrementStartPos_of_empty, ?_⟩
      rw [hevent, Event.toString_single]
      exact hlexeme.length_newlineOf_of_empty

/-- Behind the newline in front of a header without text, the text is counted twice
more. -/
theorem Call.Makes.between_empty (hpos : 0 < buf.size)
    (hnone : p.logParser.startOfLog = none) (hslot : p.headerSlot.startPos = 0)
    (hcall : p.parseNextEvent t fuel buf 0 false = .ok call)
    (hmakes : call.Makes t fuel buf false opening 0 0 p parsed opening' q') {token : Token}
    (hfirst : p.FirstToken t fuel buf false 0 token) (hempty : token.IsEmptyHeader) :
    call.parser.Between t buf (2 * buf.size) call.event.toString.length 0 call.offset ∧
      eventStart call.parser.logParser.startOfLog 0 = call.event.toString.length := by
  have hsplits := hmakes.splitsEmptyHeader hnone hfirst hempty
  obtain ⟨tokens, hparses, hchain, -⟩ := hmakes.parses
  obtain ⟨hawaits, hkept, -⟩ := hmakes.next hsplits.result
  have hslot' := hmakes.headerSlot_le hcall hsplits.result
  rw [hchain.opening_eq_none (hparses.ne_nil hsplits.result), hsplits.eq_zero] at hawaits
  rw [hnone] at hslot'
  have hslot'' : call.parser.headerSlot.startPos ≤ max p.headerSlot.startPos 0 := hslot'
  have hlength := hsplits.lengthKept
  rw [hkept, hsplits.kept, hsplits.length]
  refine ⟨⟨hawaits, ?_, ?_, by omega, fun hno => ?_⟩, hsplits.startPos⟩
  · rw [hkept, hsplits.kept]
    show 1 + token.incrementStartPos.toString.length = 0 + 2 * buf.size
    omega
  · rw [hkept, hsplits.kept]
    exact hsplits.startPos.le
  · rw [hkept, hsplits.kept] at hno
    cases hno

/-! ## Runs -/

theorem Call.Makes.exists_error
    (hmakes : call.Makes t fuel buf finished opening q offset p parsed opening' q')
    (hcode : call.errorCode = .bufferOutOfBounds) : ∃ err, parsed.result = .error err := by
  cases hresult : parsed.result with
  | ok action =>
    have hshows := hmakes.shows.errorCode
    rw [hresult, hcode] at hshows
    cases hshows
  | error err => exact ⟨err, rfl⟩

/-- The parser and the offset behind the calls. -/
def behind (p : BufferParser) (offset : Nat) : List Call → BufferParser × Nat
  | [] => (p, offset)
  | call :: calls => call.parser.behind call.offset calls

/-- Behind the calls, the next event starts with a header if it starts with a
token. -/
def GoesOnWithHeader (t : LexerTables) (fuel : Nat) (buf : UserBuffer) (p : BufferParser)
    (offset : Nat) (calls : List Call) : Prop :=
  ∀ token, (p.behind offset calls).1.FirstToken t fuel buf false (p.behind offset calls).2 token →
    token.firstTypeId = .ok SymbolId.tokenHeader.toNat

theorem parseEvents_cases {events : List Call} {last : Call}
    (h : p.parseEvents t fuel buf finished count offset = .ok (events ++ [last])) :
    (events = [] ∧ p.parseNextEvent t fuel buf offset finished = .ok last) ∨
      ∃ call calls count', events = call :: calls ∧
        p.parseNextEvent t fuel buf offset finished = .ok call ∧
        (call.errorCode = .success ∧ ¬ call.parser.done) ∧
        call.parser.parseEvents t fuel buf finished count' call.offset = .ok (calls ++ [last]) := by
  cases count with
  | zero =>
    unfold parseEvents at h
    cases events <;> cases h
  | succ count =>
    obtain ⟨call, hcall, ⟨hmore, calls, hcalls, h⟩ | ⟨-, h⟩⟩ := exists_of_parseEvents h
    · have h : call :: calls = events ++ [last] := h.symm
      cases events with
      | nil =>
        cases h
        exact Or.inl ⟨rfl, hcall⟩
      | cons event events =>
        cases h
        exact Or.inr ⟨_, _, count, rfl, hcall, hmore, hcalls⟩
    · have h : [call] = events ++ [last] := h.symm
      cases events with
      | nil =>
        cases h
        exact Or.inl ⟨rfl, hcall⟩
      | cons event events =>
        obtain ⟨-, h⟩ := List.cons.inj h
        cases events <;> cases h

/-- The offset that an incomplete event leaves, behind a run of events. -/
theorem Between.last_offset_iff (ht : t.WellFormed) (hcaptures : t.HasCaptureRegisters)
    (hend : ∀ state, SymbolId.tokenEnd.toNat ∉ t.dfa.typeIds state)
    (hsize : buf.size < 2 ^ 31) (hfuel : 2 * buf.size + 1 < fuel)
    (hreset : (Lexer.startOfFileState t).isSome) {events : List Call} {last : Call}
    (h : p.Between t buf surplus total q offset)
    (hcalls : p.parseEvents t fuel buf false count offset = .ok (events ++ [last]))
    (hlast : last.errorCode = .bufferOutOfBounds) :
    last.offset = total + (events.flatMap (·.event.toString)).length ↔
      (if events = [] then eventStart p.logParser.startOfLog q = total else surplus = 0) ∧
        GoesOnWithHeader t fuel buf p offset events := by
  induction events generalizing p total q offset count with
  | nil =>
    rcases parseEvents_cases hcalls with ⟨-, hcall⟩ | ⟨_, _, _, hnil, -⟩
    · obtain ⟨call, parsed, opening', q', hcall', hmakes⟩ :=
        h.awaits.parseNextEvent ht hcaptures hsize hfuel hreset
      rw [hcall] at hcall'
      cases hcall'
      rw [if_pos rfl, List.flatMap_nil, List.length_nil, Nat.add_zero]
      obtain ⟨err, herr⟩ := hmakes.exists_error hlast
      exact h.offset_eq_iff hmakes herr
    · cases hnil
  | cons call events ih =>
    rcases parseEvents_cases hcalls with ⟨hcons, -⟩ | ⟨_, _, count', hcons, hcall, hmore, hrest⟩
    · cases hcons
    · cases hcons
      obtain ⟨call', parsed, opening', q', hcall', hmakes⟩ :=
        h.awaits.parseNextEvent ht hcaptures hsize hfuel hreset
      rw [hcall] at hcall'
      cases hcall'
      have hresult : parsed.result = .ok .compress := by
        by_contra hne
        exact hmakes.stop hne hmore
      obtain ⟨hnext, hsurplus⟩ := h.next ht hend hcall hmakes hresult
      have hiff := ih hnext hrest
      rw [List.flatMap_cons, List.length_append, ← Nat.add_assoc, hiff, if_neg (List.cons_ne_nil _ _)]
      refine and_congr_left fun _ => ?_
      split
      · omega
      · exact Iff.rfl

/-! ### The first call -/

/-- A new parser has no token in the slot of the header. -/
theorem headerSlot_reset (hreset : (BufferParser.new t).reset t = .ok p) :
    p.headerSlot.startPos = 0 := by
  obtain ⟨logParser, hlogParser, hreset⟩ := exists_of_bind_eq_ok hreset
  obtain ⟨lexer, -, hlogParser⟩ := exists_of_bind_eq_ok hlogParser
  cases hlogParser
  cases hreset
  rfl

/-- A buffer without text is asked for more data at once. -/
theorem parseNextEvent_of_empty (ht : t.WellFormed)
    (hreset : (BufferParser.new t).reset t = .ok p) (hempty : buf.size = 0)
    (hfuel : 2 * buf.size + 1 < fuel)
    (hcall : p.parseNextEvent t fuel buf 0 false = .ok call) :
    call.errorCode = .bufferOutOfBounds ∧ call.offset = 0 := by
  obtain ⟨state, -, hstands, hnone⟩ :=
    @standsAt_reset t buf false 0 ht p hreset (by omega) (Nat.zero_le _)
  have hno : ∀ p' token,
      (p.logParser.feed buf 0 false).getNextSymbol t fuel ≠ .ok (p', .ok token) :=
    fun p' token => hstands.getNextSymbol_of_end ht hempty.symm Bool.false_ne_true hfuel
  have hlog : (p.logParser.feed buf 0 false).startOfLog = none := hnone
  rw [parseNextEvent_eq] at hcall
  obtain ⟨⟨p', result⟩, hparse, hcall⟩ := exists_of_bind_eq_ok hcall
  rcases hstands.parse ht hfuel (LogParser.fresh_feed _ _ _ _) (by intro token h; rw [hlog] at h; cases h)
    with ⟨p'', tokens, parsed, hparse', hparses, -, hslots, hreads⟩ |
      ⟨token, fault, -, -, hparse', -⟩
  · rw [hparse] at hparse'
    cases hparse'
    obtain ⟨p₁, r₁, hsymbol, hresult⟩ := hreads hlog
    have hnil : tokens.head? = none := by
      cases hhead : tokens.head? with
      | none => rfl
      | some token =>
        rw [(hresult token).2 hhead] at hsymbol
        exact absurd hsymbol (hno p₁ token)
    rw [hlog] at hparses
    cases hparses with
    | outOfData =>
      rcases hslots (by intro h; cases h) with ⟨hpos, -⟩ | ⟨-, token, rest, htokens, -⟩
      · obtain ⟨p₂, -, hcall⟩ := exists_of_bind_eq_ok hcall
        cases hcall
        exact ⟨rfl, if_neg (not_not.2 hpos)⟩
      · cases htokens
    | newline => cases hnil
    | read => cases hnil
  · rw [hparse] at hparse'
    cases hparse'

/-- The offset that an incomplete event leaves is the length of the texts of the
events before if there are none; or if the event starts with a header and, behind
more than one event, the text does not start with a header without text. -/
theorem leavesAtStart_iff {schema : SchemaAST}
    {regMapOrder : List (Nat × Nat) → List (Nat × Nat)} {steps : Nat}
    (horder : ∀ regMap, (regMapOrder regMap).Perm regMap)
    (hgenerate : schema.generate regMapOrder steps = .ok t) (hnames : schema.NamesIdentifiers)
    (hreset : (BufferParser.new t).reset t = .ok p) (hsize : buf.size < 2 ^ 31)
    (hfuel : 2 * buf.size + 1 < fuel) {events : List Call} {last : Call}
    (hcalls : p.parseEvents t fuel buf false count 0 = .ok (events ++ [last]))
    (hlast : last.errorCode = .bufferOutOfBounds) :
    last.offset = (events.flatMap (·.event.toString)).length ↔
      events = [] ∨
        (events.length = 1 ∨
            ¬ ∃ token, p.FirstToken t fuel buf false 0 token ∧ token.IsEmptyHeader) ∧
          GoesOnWithHeader t fuel buf p 0 events := by
  have ht := LexerTables.ofSchema_generate horder hgenerate
  have hcaptures := LexerTables.hasCaptureRegisters_generate horder hgenerate
  have hend := ht.tokenEnd_not_mem hnames
  have ht := ht.toWellFormed
  have hslot := headerSlot_reset hreset
  rcases Nat.eq_zero_or_pos buf.size with hempty | hpos
  · rcases parseEvents_cases hcalls with ⟨rfl, hcall⟩ | ⟨_, _, _, -, hcall, hmore, -⟩
    · refine iff_of_true ?_ (Or.inl rfl)
      rw [(parseNextEvent_of_empty ht hreset hempty hfuel hcall).2]
      rfl
    · have hcode := (parseNextEvent_of_empty ht hreset hempty hfuel hcall).1
      rw [hmore.1] at hcode
      cases hcode
  obtain ⟨state, hstate, hawaits, hnone⟩ :=
    @awaits_reset t buf false 0 ht p hreset hsize hpos (Nat.zero_le _)
  have hstart : (Lexer.startOfFileState t).isSome := by
    rw [hstate]
    rfl
  obtain ⟨call, parsed, opening', q', hcall, hmakes⟩ :=
    hawaits.parseNextEvent ht hcaptures hsize hfuel hstart
  rcases parseEvents_cases hcalls with ⟨rfl, hcall'⟩ | ⟨call', calls, count', rfl, hcall', hmore, hrest⟩
  · refine iff_of_true ?_ (Or.inl rfl)
    rw [hcall] at hcall'
    cases hcall'
    obtain ⟨err, herr⟩ := hmakes.exists_error hlast
    have hzero : last.offset = 0 := by
      rcases hmakes.offset_of_error herr with
        ⟨-, hoffset, -⟩ | ⟨_, -, ⟨-, hoffset⟩ | ⟨-, hoffset⟩⟩
      · exact hoffset
      · rw [hoffset, hnone]
        rfl
      · rw [hoffset, hslot]
    rw [hzero]
    rfl
  · rw [hcall] at hcall'
    cases hcall'
    have hresult : parsed.result = .ok .compress := by
      by_contra hne
      exact hmakes.stop hne hmore
    rw [List.flatMap_cons, List.length_append, or_iff_right (List.cons_ne_nil _ _)]
    by_cases hempty : ∃ token, p.FirstToken t fuel buf false 0 token ∧ token.IsEmptyHeader
    · obtain ⟨token, hfirst, hheader⟩ := hempty
      obtain ⟨hbetween, hcovers⟩ :=
        hmakes.between_empty hpos hnone hslot hcall hfirst hheader
      rw [hbetween.last_offset_iff ht hcaptures hend hsize hfuel hstart hrest hlast]
      refine and_congr_left fun _ => ?_
      rw [or_iff_left (not_not.2 ⟨token, hfirst, hheader⟩)]
      split
      · rename_i hnil
        refine iff_of_true hcovers ?_
        rw [hnil]
        rfl
      · rename_i hcons
        refine iff_of_false (by omega) fun hlength => hcons ?_
        exact List.eq_nil_of_length_eq_zero (Nat.succ.inj hlength)
    · obtain ⟨hbetween, hcovers⟩ :=
        hmakes.between_first ht hend hawaits hnone hslot hcall hresult hempty
      rw [hbetween.last_offset_iff ht hcaptures hend hsize hfuel hstart hrest hlast]
      refine and_congr_left fun _ => ?_
      refine iff_of_true ?_ (Or.inr hempty)
      split
      · exact hcovers
      · rfl

/-! ### A text of two events -/

/-- The text `a`, newline, `b`, blank. -/
def lettersOnLines : UserBuffer where
  bytes i := if i = 0 then 97 else if i = 1 then 10 else if i = 2 then 98 else 32
  size := 4

/-- The tables of a schema, and the calls of a new parser on a buffer. -/
def runEvents (schema : SchemaAST) (steps fuel : Nat) (buf : UserBuffer) (finished : Bool)
    (count : Nat) : Except Fault (LexerTables × BufferParser × List Call) := do
  let t ← schema.generate id steps
  let p ← (BufferParser.new t).reset t
  let calls ← p.parseEvents t fuel buf finished count 0
  return (t, p, calls)

def checkEvents (schema : SchemaAST) (steps fuel : Nat) (buf : UserBuffer) (finished : Bool)
    (count : Nat) (P : List Call → Bool) : Bool :=
  match runEvents schema steps fuel buf finished count with
  | .ok (_, _, calls) => P calls
  | .error _ => false

theorem exists_of_checkEvents {schema : SchemaAST} {steps : Nat} {P : List Call → Bool}
    (h : checkEvents schema steps fuel buf finished count P = true) :
    ∃ t p calls, schema.generate id steps = .ok t ∧ (BufferParser.new t).reset t = .ok p ∧
      p.parseEvents t fuel buf finished count 0 = .ok calls ∧ P calls = true := by
  unfold checkEvents at h
  split at h
  · rename_i t p calls hrun
    obtain ⟨t', ht, hrun⟩ := exists_of_bind_eq_ok hrun
    obtain ⟨p', hreset, hrun⟩ := exists_of_bind_eq_ok hrun
    obtain ⟨calls', hcalls, hrun⟩ := exists_of_bind_eq_ok hrun
    cases hrun
    exact ⟨t, p, calls, ht, hreset, hcalls, h⟩
  · cases h

/-- The second of two calls ends the text with the offset 0, behind an event of
two bytes. -/
def endsAtStart : List Call → Bool
  | [event, last] => last.errorCode = .bufferOutOfBounds ∧ last.offset = 0 ∧
      event.event.toString.length = 2
  | _ => false

/-- The first call returns the event `a` and newline, and the second one, whose
event starts with `b`, leaves the offset 0. -/
theorem exists_run_lettersOnLines : ∃ t p events last, letterSchema.generate id 40 = .ok t ∧
    (BufferParser.new t).reset t = .ok p ∧
    p.parseEvents t 20 lettersOnLines false 3 0 = .ok (events ++ [last]) ∧
    last.errorCode = .bufferOutOfBounds ∧ last.offset = 0 ∧
    (events.flatMap (·.event.toString)).length = 2 := by
  have hcheck : checkEvents letterSchema 40 20 lettersOnLines false 3 endsAtStart = true := by
    decide +kernel
  obtain ⟨t, p, calls, ht, hreset, hcalls, hcheck⟩ := exists_of_checkEvents hcheck
  unfold endsAtStart at hcheck
  split at hcheck
  · rename_i event last
    obtain ⟨hcode, hoffset, hlength⟩ := of_decide_eq_true hcheck
    refine ⟨t, p, [event], last, ht, hreset, hcalls, hcode, hoffset, ?_⟩
    rw [List.flatMap_singleton]
    exact hlength
  · cases hcheck

theorem leavesAtStart_iff_lettersOnLines : ∃ t p events last,
    letterSchema.generate id 40 = .ok t ∧ (BufferParser.new t).reset t = .ok p ∧
    p.parseEvents t 20 lettersOnLines false 3 0 = .ok (events ++ [last]) ∧
    last.errorCode = .bufferOutOfBounds ∧
    (last.offset = (events.flatMap (·.event.toString)).length ↔ events = [] ∨
      (events.length = 1 ∨ ¬ ∃ token, p.FirstToken t 20 lettersOnLines false 0 token ∧
        token.IsEmptyHeader) ∧ GoesOnWithHeader t 20 lettersOnLines p 0 events) := by
  obtain ⟨t, p, events, last, hgenerate, hreset, hcalls, hcode, -⟩ := exists_run_lettersOnLines
  exact ⟨t, p, events, last, hgenerate, hreset, hcalls, hcode,
    leavesAtStart_iff (fun _ => .refl _) hgenerate namesIdentifiers_letterSchema hreset (by decide)
      (by decide) hcalls hcode⟩

/-- Behind the event `a` and newline, the offset is 0 again. -/
theorem not_leavesAtStart_lettersOnLines : ∃ t p events last,
    letterSchema.generate id 40 = .ok t ∧ (BufferParser.new t).reset t = .ok p ∧
    p.parseEvents t 20 lettersOnLines false 3 0 = .ok (events ++ [last]) ∧
    last.errorCode = .bufferOutOfBounds ∧
    last.offset ≠ (events.flatMap (·.event.toString)).length := by
  obtain ⟨t, p, events, last, hgenerate, hreset, hcalls, hcode, hoffset, hlength⟩ :=
    exists_run_lettersOnLines
  refine ⟨t, p, events, last, hgenerate, hreset, hcalls, hcode, ?_⟩
  rw [hoffset, hlength]
  decide

end BufferParser

end LogSurgeon
