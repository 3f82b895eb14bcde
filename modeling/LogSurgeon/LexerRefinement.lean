import LogSurgeon.LexerCursor

/-!
# The scanner refines the cursor

A scanner is `Valid` when its buffer holds the text and the states and the
registers that it uses exist.  Every part of `scan` takes a valid scanner to a
valid one, fails on none, and does to the cursor what the part of the same name
does.  `scan_refines` says so of a call.
-/

namespace LogSurgeon

/-! ## The input buffer -/

/-- The buffer holds the text and nothing else, so reading never wraps. -/
structure ParserInputBuffer.Holds (src : Source) (input : ParserInputBuffer) : Prop where
  finished : input.finishedReadingInput = src.finished
  bytes : input.storage.getActiveBuffer = src.bytes
  size : input.storage.size = 2 * src.size
  posLastReadChar : input.posLastReadChar = src.size
  lastReadFirstHalf : input.lastReadFirstHalf = true
  pos_le : input.storage.pos ≤ src.size
  consumed : input.logFullyConsumed = true → src.finished = true ∧ input.storage.pos = src.size

namespace ParserInputBuffer.Holds

variable {src : Source} {input : ParserInputBuffer}

theorem setPos (h : input.Holds src) {pos : Nat} (hpos : pos ≤ src.size)
    (hconsumed : input.logFullyConsumed = true → src.finished = true ∧ pos = src.size) :
    (input.setPos pos).Holds src :=
  ⟨h.finished, h.bytes, h.size, h.posLastReadChar, h.lastReadFirstHalf, hpos, hconsumed⟩

/-- The position is rewound, and the input is no longer consumed. -/
theorem rewind (h : input.Holds src) {pos : Nat} (hpos : pos ≤ src.size) :
    ((input.setLogFullyConsumed false).setPos pos).Holds src :=
  ⟨h.finished, h.bytes, h.size, h.posLastReadChar, h.lastReadFirstHalf, hpos,
    fun hconsumed => by cases hconsumed⟩

theorem getNextCharacter_of_end (h : input.Holds src) (hpos : input.storage.pos = src.size)
    (hfinished : ¬ src.finished) :
    input.getNextCharacter = (.error .bufferOutOfBounds, input) := by
  have hhalf : input.storage.pos = input.storage.size / 2 := by
    rw [h.size, hpos]
    omega
  unfold getNextCharacter
  rw [if_neg (by rw [h.finished]; exact fun hend => hfinished hend.1),
    if_pos (Or.inl ⟨h.lastReadFirstHalf, hhalf⟩)]

theorem getNextCharacter (h : input.Holds src)
    (hmore : ¬ (input.storage.pos = src.size ∧ ¬ src.finished)) :
    ∃ input', input.getNextCharacter = (.ok (src.charAt input.storage.pos), input') ∧
      input'.Holds src ∧
      input'.storage.pos =
        (if input.storage.pos < src.size then input.storage.pos + 1 else input.storage.pos) ∧
      (input'.logFullyConsumed = true ↔ input.storage.pos = src.size) := by
  unfold ParserInputBuffer.getNextCharacter
  by_cases hpos : input.storage.pos = src.size
  · have hfinished : src.finished = true := by simpa [hpos] using hmore
    rw [if_pos ⟨h.finished.trans hfinished, hpos.trans h.posLastReadChar.symm⟩, hpos,
      src.charAt_size, if_neg (Nat.lt_irrefl _)]
    exact ⟨_, rfl, ⟨h.finished, h.bytes, h.size, h.posLastReadChar, h.lastReadFirstHalf, h.pos_le,
      fun _ => ⟨hfinished, hpos⟩⟩, hpos, by simp⟩
  · have hlt : input.storage.pos < src.size := Nat.lt_of_le_of_ne h.pos_le hpos
    have hhalf : ¬ input.storage.pos = input.storage.size / 2 := by
      rw [h.size]
      omega
    have hwrap : ¬ input.storage.incrementPos.pos = input.storage.incrementPos.size := by
      have hsize : input.storage.incrementPos.size = 2 * src.size := h.size
      rw [hsize, Buffer.pos_incrementPos]
      omega
    have hconsumed : input.logFullyConsumed ≠ true := fun hc => hpos (h.consumed hc).2
    rw [if_neg (by rw [h.posLastReadChar]; exact fun hend => hpos hend.2),
      if_neg (by simp [hhalf, h.lastReadFirstHalf])]
    dsimp only
    rw [if_neg hwrap, if_pos hlt, Source.charAt_of_lt hlt, Buffer.getCurrValue, Buffer.getValue,
      h.bytes]
    exact ⟨_, rfl, ⟨h.finished, h.bytes, h.size, h.posLastReadChar, h.lastReadFirstHalf, hlt,
      fun hc => absurd hc hconsumed⟩, rfl, by simp [hconsumed, hpos]⟩

end ParserInputBuffer.Holds

/-- The cursor of a scanner. -/
def Cursor.ofScanner (s : Scanner) : Cursor where
  pos := s.input.storage.pos
  startPos := s.lexer.startPos
  lastMatchPos := s.lexer.lastMatchPos
  state := s.lexer.state
  firstDelimiterPos := s.lexer.firstDelimiterPos
  matched :=
    if s.lexer.isMatch then some (s.lexer.matchPos, s.lexer.typeIds.getD []) else none
  line := s.lexer.line
  matchLine := s.lexer.matchLine
  lastMatchLine := s.lexer.lastMatchLine
  askedForMoreData := s.lexer.askedForMoreData

/-! ## Valid scanners -/

namespace Dfa

/-- The handler has the registers of the DFA. -/
structure HasRegisters (dfa : Dfa) (handler : RegisterHandler) : Prop where
  pointed : handler.Pointed
  getNumRegs : handler.getNumRegs = dfa.regHandler.getNumRegs

theorem hasRegisters_newRegHandler (dfa : Dfa) : dfa.HasRegisters dfa.newRegHandler where
  pointed := RegisterHandler.pointed_addRegisters _
  getNumRegs := by
    unfold newRegHandler
    rw [RegisterHandler.getNumRegs_addRegisters, RegisterHandler.getNumRegs_new, Nat.zero_add]

theorem HasRegisters.processRegOps {dfa : Dfa} {handler : RegisterHandler}
    (h : dfa.HasRegisters handler) {ops : List RegisterOperation}
    (hops : OpsBelow dfa.regHandler.getNumRegs ops) (currPos : Nat) :
    ∃ handler', Dfa.processRegOps ops currPos handler = some handler' ∧
      dfa.HasRegisters handler' := by
  obtain ⟨limit, hlimit, hpos, hwithin⟩ := h.pointed.exists_within (toPosition currPos)
  rw [← h.getNumRegs] at hops
  obtain ⟨handler', hhandler', hnum, hwithin'⟩ := exists_processRegOps hwithin hops hpos hlimit
  exact ⟨handler', hhandler', hwithin'.lt_length, hnum.trans h.getNumRegs⟩

end Dfa

namespace Scanner

open Cursor

/-- What holds of a scanner between two steps. -/
structure Valid (t : LexerTables) (src : Source) (s : Scanner) : Prop where
  input : s.input.Holds src
  registers : t.dfa.HasRegisters s.lexer.regHandler
  state : ∀ p, s.lexer.state = some p → p < t.dfa.states.length
  isMatch : s.lexer.isMatch = true → s.lexer.typeIds.isSome ∧ s.lexer.matchPos ≤ src.size
  firstDelimiterPos : ∀ f, s.lexer.firstDelimiterPos = some f → f ≤ src.size

variable {t : LexerTables} {src : Source} {s : Scanner} {prevByteBufPos fuel : Nat}
  {nextChar : UInt8}

theorem Valid.noteDelimiter (h : s.Valid t src) (hpos : prevByteBufPos ≤ src.size) :
    (s.noteDelimiter t nextChar prevByteBufPos).Valid t src ∧
      (s.noteDelimiter t nextChar prevByteBufPos).input = s.input ∧
      ofScanner (s.noteDelimiter t nextChar prevByteBufPos) =
        (ofScanner s).noteDelimiter t nextChar prevByteBufPos := by
  unfold Scanner.noteDelimiter Cursor.noteDelimiter
  change _ ∧ _ ∧ _ = ite (s.lexer.firstDelimiterPos = none ∧ t.isDelimiter nextChar.toNat ∧
    prevByteBufPos ≠ s.lexer.lastMatchPos) _ _
  split
  · refine ⟨⟨h.input, h.registers, h.state, h.isMatch, fun f hf => ?_⟩, rfl, rfl⟩
    cases hf
    exact hpos
  · exact ⟨h, rfl, rfl⟩

/-- A state that exists, and its variables. -/
theorem Valid.exists_state (h : s.Valid t src) {p : Nat} (hp : s.lexer.state = some p) :
    ∃ state, derefOr .nullPointer (s.lexer.state.bind t.dfa.state?) = .ok state ∧
      t.dfa.state? p = some state ∧
      (ofScanner s).typeIds t = state.matchingVariableIds ∧
      (state.isAccepting ↔ (ofScanner s).typeIds t ≠ []) := by
  have hlt := h.state p hp
  have hstate : t.dfa.state? p = some t.dfa.states[p] := List.getElem?_eq_getElem hlt
  have hids : (ofScanner s).typeIds t = t.dfa.typeIds p := by
    show s.lexer.state.elim [] t.dfa.typeIds = _
    rw [hp]
    rfl
  refine ⟨t.dfa.states[p], ?_, hstate, ?_, ?_⟩
  · rw [hp, Option.bind_some, hstate]
    rfl
  · rw [hids, Dfa.typeIds_of_state? hstate]
  · rw [hids]
    exact Dfa.isAccepting_iff hstate

theorem Valid.recordMatch (ht : t.WellFormed) (h : s.Valid t src) {p : Nat}
    (hp : s.lexer.state = some p) (hpos : prevByteBufPos ≤ src.size)
    (hconsumed : s.input.logFullyConsumed = true ↔ prevByteBufPos = src.size) :
    ∃ s', s.recordMatch t nextChar prevByteBufPos = .ok s' ∧ s'.Valid t src ∧
      s'.input = s.input ∧
      ofScanner s' = (ofScanner s).recordMatch t src nextChar prevByteBufPos := by
  obtain ⟨state, hderef, hstate, hids, haccepting⟩ := h.exists_state hp
  unfold Scanner.recordMatch Cursor.recordMatch
  have hcond : (t.isDelimiter nextChar.toNat ∨ s.input.logFullyConsumed ∨ ¬ t.hasDelimiters) ↔
      (t.isDelimiter nextChar.toNat ∨ prevByteBufPos = src.size) := by
    rw [hconsumed, ht.hasDelimiters]
    simp
  by_cases hdelimiter : t.isDelimiter nextChar.toNat ∨ prevByteBufPos = src.size
  · rw [if_pos (hcond.2 hdelimiter), hderef]
    by_cases haccepts : state.isAccepting
    · obtain ⟨handler, hhandler, hregisters⟩ := h.registers.processRegOps
        (ht.registers.accepting p state hstate) prevByteBufPos
      simp only [bind, Except.bind, if_pos haccepts, hhandler, derefOr_some, pure, Except.pure]
      refine ⟨_, rfl, ⟨h.input, hregisters, h.state, fun _ => ⟨rfl, hpos⟩, h.firstDelimiterPos⟩,
        rfl, ?_⟩
      rw [if_pos ⟨hdelimiter, haccepting.1 haccepts⟩, hids]
      rfl
    · simp only [bind, Except.bind, if_neg haccepts, pure, Except.pure]
      refine ⟨s, rfl, h, rfl, ?_⟩
      rw [if_neg fun hboth => haccepts (haccepting.2 hboth.2)]
  · rw [if_neg fun hboth => hdelimiter (hcond.1 hboth),
      if_neg fun hboth => hdelimiter hboth.1]
    exact ⟨s, rfl, h, rfl, rfl⟩

theorem Valid.processChar (ht : t.WellFormed) (h : s.Valid t src) {p : Nat}
    (hp : s.lexer.state = some p) (currPos : Nat) :
    ∃ s', s.processChar t nextChar currPos = .ok s' ∧ s'.Valid t src ∧
      s'.input = s.input ∧ ofScanner s' = (ofScanner s).processChar t nextChar := by
  obtain ⟨state, hderef, hstate, -⟩ := h.exists_state hp
  have htransition : t.dfa.transition? p nextChar.toNat = state.getTransition nextChar.toNat := by
    unfold Dfa.transition?
    rw [hstate]
    rfl
  have hnext : (ofScanner s).nextState t nextChar =
      (state.getTransition nextChar.toNat).map (·.destState) := by
    show s.lexer.state.bind _ = _
    rw [hp, Option.bind_some, htransition]
  unfold Scanner.processChar Cursor.processChar
  rw [hderef, hnext]
  cases hfollow : state.getTransition nextChar.toNat with
  | none =>
    simp only [bind, Except.bind, hfollow, pure, Except.pure]
    refine ⟨_, rfl, ⟨h.input, h.registers, ?_, h.isMatch, h.firstDelimiterPos⟩, rfl, rfl⟩
    intro q hq
    cases hq
  | some transition =>
    rw [hfollow] at htransition
    obtain ⟨handler, hhandler, hregisters⟩ := h.registers.processRegOps
      (ht.registers.transitions p _ _ htransition) currPos
    simp only [bind, Except.bind, hfollow, hhandler, derefOr_some, pure, Except.pure]
    refine ⟨_, rfl, ⟨h.input, hregisters, ?_, h.isMatch, h.firstDelimiterPos⟩, rfl, rfl⟩
    intro q hq
    cases hq
    exact ht.dfa.dest p _ _ htransition

theorem Valid.root (ht : t.WellFormed) (h : s.Valid t src) : (s.root t).Valid t src := by
  refine ⟨h.input, h.registers, fun p hp => ?_, h.isMatch, h.firstDelimiterPos⟩
  cases hp
  exact ht.dfa.root

theorem Valid.startAtNewline (ht : t.WellFormed) (h : s.Valid t src) (prevByteBufPos : Nat) :
    ∃ s', s.startAtNewline t 10 prevByteBufPos = .ok s' ∧ s'.Valid t src ∧
      s'.input = s.input ∧ s'.lexer.state ≠ none ∧
      ofScanner s' = (ofScanner s).startAtNewline t 10 prevByteBufPos := by
  obtain ⟨transition, ids, htransition, -⟩ := ht.newline
  obtain ⟨s₁, hs₁, hvalid, hinput, hcursor⟩ :=
    @Valid.processChar t src (s.root t) 10 ht (h.root ht) _ rfl prevByteBufPos
  have hnext : s₁.lexer.state = some transition.destState := by
    have hstate := congrArg Cursor.state hcursor
    have hroot : s₁.lexer.state =
        (t.dfa.transition? t.dfa.getRoot 10).map (·.destState) := hstate
    rw [hroot, htransition]
    rfl
  obtain ⟨state, hderef, -, hids, -⟩ := hvalid.exists_state hnext
  unfold Scanner.startAtNewline
  rw [hs₁]
  simp only [bind, Except.bind, hderef, pure, Except.pure]
  refine ⟨_, rfl, ⟨hvalid.input, hvalid.registers, hvalid.state,
    fun _ => ⟨rfl, hvalid.input.pos_le⟩, hvalid.firstDelimiterPos⟩, hinput, ?_, ?_⟩
  · show s₁.lexer.state ≠ none
    rw [hnext]
    exact Option.some_ne_none _
  · unfold Cursor.startAtNewline
    have hroot : (ofScanner s).root t = ofScanner (s.root t) := rfl
    rw [hroot, ← hcursor]
    dsimp only
    rw [hids]
    rfl

/-- The positions behind a read character. -/
structure Behind (src : Source) (prevByteBufPos : Nat) (s : Scanner) : Prop where
  prev_le : prevByteBufPos ≤ src.size
  pos : s.input.storage.pos =
    if prevByteBufPos < src.size then prevByteBufPos + 1 else prevByteBufPos
  consumed : s.input.logFullyConsumed = true ↔ prevByteBufPos = src.size
  more : ¬ (prevByteBufPos = src.size ∧ ¬ src.finished)

theorem Valid.exists_getNextCharacter (h : s.Valid t src)
    (hmore : ¬ (s.input.storage.pos = src.size ∧ ¬ src.finished)) :
    ∃ input, s.input.getNextCharacter = (.ok (src.charAt s.input.storage.pos), input) ∧
      ({ s with input := input } : Scanner).Valid t src ∧
      ({ s with input := input } : Scanner).Behind src s.input.storage.pos ∧
      ofScanner { s with input := input } = (ofScanner s).getNextCharacter src := by
  obtain ⟨input, hnext, hinput, hpos, hconsumed⟩ := h.input.getNextCharacter hmore
  refine ⟨input, hnext, ⟨hinput, h.registers, h.state, h.isMatch, h.firstDelimiterPos⟩,
    ⟨h.input.pos_le, hpos, hconsumed, hmore⟩, ?_⟩
  unfold ofScanner Cursor.getNextCharacter
  dsimp only
  rw [hpos]

/-- The loop stops at the position that the cursor skips to, or asks for more
data there. -/
theorem Valid.skip (h : s.Valid t src) (hbehind : s.Behind src prevByteBufPos)
    (hchar : nextChar = src.charAt prevByteBufPos) (hfuel : src.size - prevByteBufPos ≤ fuel) :
    ∃ s' result, s.skip t fuel nextChar prevByteBufPos = .ok (s', result) ∧
      s'.Valid t src ∧
      (skipTo t src (src.size - prevByteBufPos) prevByteBufPos = src.size ∧ ¬ src.finished →
        result = .error .bufferOutOfBounds ∧
        ofScanner s' = { ofScanner s with pos := src.size, askedForMoreData := true }) ∧
      (¬ (skipTo t src (src.size - prevByteBufPos) prevByteBufPos = src.size ∧
          ¬ src.finished) →
        result = .ok (skipTo t src (src.size - prevByteBufPos) prevByteBufPos) ∧
        s'.Behind src (skipTo t src (src.size - prevByteBufPos) prevByteBufPos) ∧
        s'.lexer = s.lexer) := by
  induction fuel generalizing s nextChar prevByteBufPos with
  | zero =>
    have hend : prevByteBufPos = src.size := by
      have := hbehind.prev_le
      omega
    have hmore := hbehind.more
    unfold Scanner.skip
    rw [if_neg fun hskip => hskip.1 (hbehind.consumed.2 hend), hend, skipTo_size]
    rw [hend] at hmore hbehind
    exact ⟨s, _, rfl, h, fun hstop => absurd hstop hmore, fun _ => ⟨rfl, hbehind, rfl⟩⟩
  | succ fuel ih =>
    rcases Nat.lt_or_eq_of_le hbehind.prev_le with hlt | hend
    · have hconsumed : ¬ s.input.logFullyConsumed = true :=
        fun hc => hlt.ne (hbehind.consumed.1 hc)
      rw [Source.charAt_of_lt hlt] at hchar
      rw [skipTo_of_lt hlt, ← hchar]
      unfold Scanner.skip
      by_cases hstop : t.isFirstCharOfAVariable nextChar.toNat ∧ t.isDelimiter nextChar.toNat
      · rw [if_neg (by simp [hstop.1, hstop.2]), if_pos hstop]
        exact ⟨s, _, rfl, h, fun hsize => absurd hsize.1 hlt.ne, fun _ => ⟨rfl, hbehind, rfl⟩⟩
      · rw [if_pos ⟨hconsumed, Decidable.not_and_iff_not_or_not.1 hstop⟩, if_neg hstop]
        have hpos : s.input.storage.pos = prevByteBufPos + 1 := by
          rw [hbehind.pos, if_pos hlt]
        by_cases hmore : s.input.storage.pos = src.size ∧ ¬ src.finished
        · rw [h.input.getNextCharacter_of_end hmore.1 hmore.2]
          rw [hpos] at hmore
          rw [hmore.1, skipTo_size]
          refine ⟨_, _, rfl, ⟨h.input, h.registers, h.state, h.isMatch, h.firstDelimiterPos⟩,
            fun _ => ⟨rfl, ?_⟩, fun hne => absurd ⟨rfl, hmore.2⟩ hne⟩
          rw [← hmore.1, ← hpos]
          rfl
        · obtain ⟨input, hnext, hvalid, hbehind', -⟩ := h.exists_getNextCharacter hmore
          rw [hnext]
          rw [hpos] at hbehind' ⊢
          obtain ⟨s', result, hskip, hvalid', herror, hok⟩ :=
            ih hvalid hbehind' rfl (by omega)
          exact ⟨s', result, hskip, hvalid', herror, hok⟩
    · have hmore := hbehind.more
      unfold Scanner.skip
      rw [if_neg fun hskip => hskip.1 (hbehind.consumed.2 hend), hend, skipTo_size]
      rw [hend] at hmore hbehind
      exact ⟨s, _, rfl, h, fun hstop => absurd hstop hmore, fun _ => ⟨rfl, hbehind, rfl⟩⟩

end Scanner

/-! ## What is delivered -/

/-- The token covers the span of the text.  The token of a match has the
registers of the DFA. -/
structure Token.Covers (t : LexerTables) (src : Source) (span : Span) (token : Token) : Prop where
  startPos : token.startPos = span.startPos
  endPos : token.endPos = span.endPos
  lineNum : token.lineNum = span.lineNum
  typeIds : token.typeIds = some span.typeIds
  buffer : token.buffer = src.bytes
  bufferSize : token.bufferSize = 2 * src.size
  registers : span.typeIds = cTokenUncaughtStringTypes ∨ span.typeIds = cTokenEndTypes ∨
    t.dfa.HasRegisters token.regHandler

/-- The scanner delivers what the cursor does. -/
def Delivers (t : LexerTables) (src : Source) : Cursor.Result → ScanResult → Prop
  | .ok span, .ok token => token.Covers t src span
  | .error err, .error err' => err = err'
  | _, _ => False

namespace Scanner

open Cursor

variable {t : LexerTables} {src : Source} {s : Scanner} {prevByteBufPos fuel : Nat}
  {nextChar : UInt8}

theorem Valid.covers_newToken (h : s.Valid t src) {span : Span}
    (htypes : span.typeIds = cTokenUncaughtStringTypes ∨ span.typeIds = cTokenEndTypes) :
    (s.newToken span.startPos span.endPos span.lineNum span.typeIds).Covers t src span where
  startPos := rfl
  endPos := rfl
  lineNum := rfl
  typeIds := rfl
  buffer := h.input.bytes
  bufferSize := h.input.size
  registers := htypes.imp_right Or.inl

theorem matched_ofScanner (h : s.Valid t src) (hmatch : s.lexer.isMatch = true) :
    ∃ typeIds, s.lexer.typeIds = some typeIds ∧ s.lexer.matchPos ≤ src.size ∧
      (ofScanner s).matched = some (s.lexer.matchPos, typeIds) := by
  obtain ⟨hids, hpos⟩ := h.isMatch hmatch
  obtain ⟨typeIds, htypeIds⟩ := Option.isSome_iff_exists.1 hids
  refine ⟨typeIds, htypeIds, hpos, ?_⟩
  unfold ofScanner
  rw [hmatch, htypeIds]
  rfl

theorem Valid.releaseMatch (h : s.Valid t src)
    {typeIds : List Nat} (hids : s.lexer.typeIds = some typeIds) :
    (s.releaseMatch t).1.Valid t src ∧
      ofScanner (s.releaseMatch t).1 =
        ((ofScanner s).releaseMatch s.lexer.matchPos typeIds).1 ∧
      (s.releaseMatch t).2.Covers t src
        ((ofScanner s).releaseMatch s.lexer.matchPos typeIds).2 := by
  refine ⟨⟨h.input, Dfa.hasRegisters_newRegHandler _, h.state, (by intro hm; cases hm),
    (by intro f hf; cases hf)⟩, rfl, ?_⟩
  exact ⟨rfl, rfl, rfl, hids, h.input.bytes, h.input.size, Or.inr (Or.inr h.registers)⟩

theorem Valid.releaseStaticText (h : s.Valid t src) {f : Nat} :
    (s.releaseStaticText f).1.Valid t src ∧
      ofScanner (s.releaseStaticText f).1 = ((ofScanner s).releaseStaticText f).1 ∧
      (s.releaseStaticText f).2.Covers t src ((ofScanner s).releaseStaticText f).2 :=
  ⟨⟨h.input, h.registers, h.state, h.isMatch, h.firstDelimiterPos⟩, rfl,
    h.covers_newToken (Or.inl rfl)⟩

theorem Valid.finishMatch (h : s.Valid t src) (hmatch : s.lexer.isMatch = true)
    {typeIds : List Nat} (hids : s.lexer.typeIds = some typeIds) :
    (s.finishMatch t).1.Valid t src ∧
      ofScanner (s.finishMatch t).1 =
        ((ofScanner s).finishMatch s.lexer.matchPos typeIds).1 ∧
      (s.finishMatch t).2.Covers t src
        ((ofScanner s).finishMatch s.lexer.matchPos typeIds).2 := by
  have hrewound : ({ lexer := { s.lexer with line := s.lexer.matchLine }
                     input := (s.input.setLogFullyConsumed false).setPos s.lexer.matchPos } :
      Scanner).Valid t src :=
    ⟨h.input.rewind (h.isMatch hmatch).2, h.registers, h.state, h.isMatch, h.firstDelimiterPos⟩
  unfold Scanner.finishMatch Cursor.finishMatch
  dsimp only
  by_cases hstatic : (ofScanner s).lastMatchPos ≠ (ofScanner s).startPos
  · have hstatic' : s.lexer.lastMatchPos ≠ s.lexer.startPos := hstatic
    rw [if_pos hstatic, if_pos hstatic']
    exact ⟨hrewound, rfl, hrewound.covers_newToken (Or.inl rfl)⟩
  · have hstatic' : ¬ s.lexer.lastMatchPos ≠ s.lexer.startPos := hstatic
    rw [if_neg hstatic, if_neg hstatic']
    exact hrewound.releaseMatch hids

theorem Valid.finishInput (h : s.Valid t src) :
    s.finishInput.1.Valid t src ∧ ofScanner s.finishInput.1 = (ofScanner s).finishInput.1 ∧
      s.finishInput.2.Covers t src (ofScanner s).finishInput.2 := by
  unfold Scanner.finishInput Cursor.finishInput
  by_cases hstatic : (ofScanner s).lastMatchPos ≠ (ofScanner s).startPos
  · have hstatic' : s.lexer.lastMatchPos ≠ s.lexer.startPos := hstatic
    rw [if_pos hstatic, if_pos hstatic']
    have hfirst : (ofScanner s).firstDelimiterPos = s.lexer.firstDelimiterPos := rfl
    cases hf : s.lexer.firstDelimiterPos with
    | some f =>
      rw [hfirst, hf]
      exact h.releaseStaticText
    | none =>
      rw [hfirst, hf]
      refine ⟨⟨h.input, h.registers, h.state, fun _ => ⟨rfl, h.input.pos_le⟩,
        h.firstDelimiterPos⟩, ?_, h.covers_newToken (Or.inl rfl)⟩
      unfold ofScanner
      dsimp only
      rw [hf]
      rfl
  · have hstatic' : ¬ s.lexer.lastMatchPos ≠ s.lexer.startPos := hstatic
    rw [if_neg hstatic, if_neg hstatic']
    exact ⟨h, rfl, h.covers_newToken (Or.inr rfl)⟩

/-- A call or a part of it ends in a valid scanner, and the cursor does the same
and delivers `result`.  The DFA is in a state unless a token is delivered. -/
def Refines (t : LexerTables) (src : Source) (call : Except Fault (Scanner × Option ScanResult))
    (step : Cursor × Option Cursor.Result) : Prop :=
  ∃ s' result, call = .ok (s', result) ∧ s'.Valid t src ∧ step.1 = ofScanner s' ∧
    Option.Rel (Delivers t src) step.2 result ∧
    ((∀ token, result ≠ some (.ok token)) → s'.lexer.state ≠ none)

theorem refines_of_covers {s' : Scanner} {token : Token} {c : Cursor} {span : Span}
    (h : s'.Valid t src ∧ ofScanner s' = c ∧ token.Covers t src span) :
    Refines t src (.ok (s', some (.ok token))) (c, some (.ok span)) :=
  ⟨s', _, rfl, h.1, h.2.1.symm, Option.Rel.some h.2.2, fun hno => absurd rfl (hno token)⟩

theorem Valid.finish (ht : t.WellFormed) (h : s.Valid t src)
    (hbehind : s.Behind src prevByteBufPos) (hchar : nextChar = src.charAt prevByteBufPos)
    (hfuel : src.size - prevByteBufPos ≤ fuel) :
    Refines t src (s.finish t fuel nextChar prevByteBufPos)
      ((ofScanner s).finish t src prevByteBufPos) := by
  unfold Scanner.finish
  by_cases hmatch : s.lexer.isMatch = true
  · obtain ⟨typeIds, hids, -, hmatched⟩ := matched_ofScanner h hmatch
    rw [if_pos hmatch]
    unfold Cursor.finish
    rw [hmatched]
    exact refines_of_covers (h.finishMatch hmatch hids)
  · have hmatched : (ofScanner s).matched = none := if_neg hmatch
    rw [if_neg hmatch]
    unfold Cursor.finish
    rw [hmatched]
    dsimp only
    by_cases hend : prevByteBufPos = src.size ∧ (ofScanner s).pos = (ofScanner s).startPos
    · have hend' : s.input.logFullyConsumed ∧ s.input.storage.pos = s.lexer.startPos :=
        ⟨hbehind.consumed.2 hend.1, hend.2⟩
      rw [if_pos hend, if_pos hend']
      exact refines_of_covers h.finishInput
    · have hend' : ¬ (s.input.logFullyConsumed ∧ s.input.storage.pos = s.lexer.startPos) :=
        fun hboth => hend ⟨hbehind.consumed.1 hboth.1, hboth.2⟩
      rw [if_neg hend, if_neg hend']
      have hfirst : (ofScanner s).firstDelimiterPos = s.lexer.firstDelimiterPos := rfl
      rw [hfirst]
      cases hf : s.lexer.firstDelimiterPos with
      | some f => exact refines_of_covers h.releaseStaticText
      | none =>
        have hroot : (s.root t).Behind src prevByteBufPos :=
          ⟨hbehind.prev_le, hbehind.pos, hbehind.consumed, hbehind.more⟩
        obtain ⟨s', result, hskip, hvalid, herror, hok⟩ := (h.root ht).skip hroot hchar hfuel
        dsimp only
        rw [hskip]
        unfold Cursor.skip
        dsimp only
        by_cases hask : skipTo t src (src.size - prevByteBufPos) prevByteBufPos = src.size ∧
            ¬ src.finished
        · obtain ⟨hresult, hcursor⟩ := herror hask
          rw [if_pos hask, hresult]
          refine ⟨s', _, rfl, hvalid, ?_, Option.Rel.some rfl, fun _ => ?_⟩
          · rw [hcursor, hask.1]
            rfl
          · have hstate := congrArg Cursor.state hcursor
            have hroot : s'.lexer.state = some t.dfa.getRoot := hstate
            rw [hroot]
            exact Option.some_ne_none _
        · obtain ⟨hresult, hbehind', hlexer⟩ := hok hask
          rw [if_neg hask, hresult]
          refine ⟨_, _, rfl, ⟨hvalid.input.setPos hbehind'.prev_le fun hc => ?_,
            hvalid.registers, hvalid.state, hvalid.isMatch, hvalid.firstDelimiterPos⟩, ?_,
            Option.Rel.none, fun _ => ?_⟩
          · exact ⟨(hvalid.input.consumed hc).1, hbehind'.consumed.1 hc⟩
          · unfold ofScanner
            dsimp only
            rw [hlexer]
            rfl
          · show s'.lexer.state ≠ none
            rw [hlexer]
            exact Option.some_ne_none _

theorem Valid.scanStep (ht : t.WellFormed) (h : s.Valid t src) (hstate : s.lexer.state ≠ none)
    (hfuel : src.size - s.input.storage.pos ≤ fuel) :
    Refines t src (s.scanStep t fuel) ((ofScanner s).step t src) := by
  obtain ⟨p, hp⟩ := Option.ne_none_iff_exists'.1 hstate
  unfold Scanner.scanStep Cursor.step
  by_cases hmore : s.input.storage.pos = src.size ∧ ¬ src.finished
  · rw [h.input.getNextCharacter_of_end hmore.1 hmore.2,
      if_pos (show (ofScanner s).pos = src.size ∧ ¬ src.finished from hmore)]
    exact ⟨_, _, rfl, ⟨h.input, h.registers, h.state, h.isMatch, h.firstDelimiterPos⟩, rfl,
      Option.Rel.some rfl, fun _ => hstate⟩
  rw [if_neg (show ¬ ((ofScanner s).pos = src.size ∧ ¬ src.finished) from hmore)]
  obtain ⟨input, hnext, hread, hbehind, hcursor⟩ := h.exists_getNextCharacter hmore
  rw [hnext]
  have hpos : (ofScanner s).pos = s.input.storage.pos := rfl
  rw [hpos]
  generalize hchar : src.charAt s.input.storage.pos = nextChar
  generalize s.input.storage.pos = prevByteBufPos at hbehind hfuel hchar hmore hpos
  -- the steps of the body, one after the other
  obtain ⟨hnoted, hinput₁, hcursor₁⟩ :=
    @Valid.noteDelimiter t src _ _ nextChar hread hbehind.prev_le
  have hstate₁ := congrArg Cursor.state hcursor₁
  rw [state_noteDelimiter] at hstate₁
  obtain ⟨s₂, hs₂, hrecorded, hinput₂, hcursor₂⟩ := @Valid.recordMatch t src _ _ nextChar ht hnoted
    _ (hstate₁.trans hp) hbehind.prev_le (by rw [hinput₁]; exact hbehind.consumed)
  have hstate₂ := congrArg Cursor.state hcursor₂
  rw [state_recordMatch] at hstate₂
  obtain ⟨s₃, hs₃, hfollowed, hinput₃, hcursor₃⟩ := @Valid.processChar t src _ nextChar ht hrecorded
    _ (hstate₂.trans (hstate₁.trans hp)) prevByteBufPos
  obtain ⟨s₄, hs₄, hcounted, hinput₄, hcursor₄⟩ : ∃ s₄ : Scanner,
      s₄ = (if nextChar = 10 then { s₃ with lexer := { s₃.lexer with line := s₃.lexer.line + 1 } }
        else s₃) ∧ s₄.Valid t src ∧ s₄.input = s₃.input ∧
      ofScanner s₄ = (ofScanner s₃).countLine nextChar := by
    unfold countLine
    split
    · exact ⟨_, rfl, ⟨hfollowed.input, hfollowed.registers, hfollowed.state, hfollowed.isMatch,
        hfollowed.firstDelimiterPos⟩, rfl, rfl⟩
    · exact ⟨_, rfl, hfollowed, rfl, rfl⟩
  have hreadChar : (ofScanner s).readChar t src = ofScanner s₄ := by
    unfold readChar
    rw [hcursor₄, hcursor₃, hcursor₂, hcursor₁, hcursor, hpos, hchar]
  have hbehind₄ : s₄.Behind src prevByteBufPos := by
    have hinput : s₄.input = input := hinput₄.trans (hinput₃.trans (hinput₂.trans hinput₁))
    have hpos₄ := hbehind.pos
    have hconsumed₄ := hbehind.consumed
    rw [← hinput] at hpos₄ hconsumed₄
    exact ⟨hbehind.prev_le, hpos₄, hconsumed₄, hbehind.more⟩
  unfold Scanner.scanChar
  simp only [bind, Except.bind, hs₂, hs₃, ← hs₄]
  rw [hreadChar]
  have hnewline : s₄.StartsAtNewline t prevByteBufPos ↔
      (ofScanner s₄).StartsAtNewline prevByteBufPos := by
    unfold Scanner.StartsAtNewline Cursor.StartsAtNewline ofScanner
    rw [ht.hasDelimiters]
    simp
  have hends : (s₄.input.logFullyConsumed ∨ s₄.lexer.state = none) ↔
      (prevByteBufPos = src.size ∨ (ofScanner s₄).state = none) := by
    rw [hbehind₄.consumed]
    rfl
  by_cases hstart : nextChar = 10 ∧ (ofScanner s₄).StartsAtNewline prevByteBufPos
  · rw [if_pos hstart, if_pos ⟨hstart.1, hnewline.2 hstart.2⟩]
    obtain ⟨s₅, hs₅, hvalid, -, hrunning, hcursor₅⟩ := hcounted.startAtNewline ht prevByteBufPos
    rw [hstart.1, hs₅]
    exact ⟨s₅, none, rfl, hvalid, hcursor₅.symm, Option.Rel.none, fun _ => hrunning⟩
  · rw [if_neg hstart, if_neg fun hboth => hstart ⟨hboth.1, hnewline.1 hboth.2⟩]
    by_cases hend : prevByteBufPos = src.size ∨ (ofScanner s₄).state = none
    · rw [if_pos hend, if_pos (hends.2 hend)]
      exact hcounted.finish ht hbehind₄ hchar.symm hfuel
    · rw [if_neg hend, if_neg fun hor => hend (hends.1 hor)]
      exact ⟨s₄, none, rfl, hcounted, rfl, Option.Rel.none, fun _ hnone => hend (Or.inr hnone)⟩

/-- The loop ends, with what the cursor delivers. -/
theorem Valid.scanLoop (ht : t.WellFormed) (h : s.Valid t src) (hstate : s.lexer.state ≠ none)
    (hfuel : (ofScanner s).stepsLeft t src < fuel) :
    ∃ s' result result', s.scanLoop t fuel = .ok (s', result) ∧ s'.Valid t src ∧
      Loops t src (ofScanner s) (ofScanner s') result' ∧ Delivers t src result' result ∧
      ((∀ token, result ≠ .ok token) → s'.lexer.state ≠ none) := by
  induction fuel generalizing s with
  | zero => exact absurd hfuel (Nat.not_lt_zero _)
  | succ fuel ih =>
    have hpos : src.size - s.input.storage.pos ≤ (ofScanner s).stepsLeft t src := by
      have hleast : 2 * (src.size - s.input.storage.pos) ≤ (ofScanner s).stepsLeft t src :=
        Nat.le_add_right _ _
      omega
    obtain ⟨s₁, result, hstep, hvalid, hcursor, hdelivers, hrunning⟩ :=
      @Valid.scanStep t src s fuel ht h hstate (by omega)
    have hpair : (ofScanner s).step t src =
        (ofScanner s₁, ((ofScanner s).step t src).2) := by
      rw [← hcursor]
    unfold Scanner.scanLoop
    simp only [bind, Except.bind, hstep]
    cases hdelivers' : ((ofScanner s).step t src).2 with
    | none =>
      rw [hdelivers'] at hdelivers hpair
      cases hdelivers
      obtain ⟨-, hprogress⟩ := step_progress ht h.input.pos_le hpair
      obtain ⟨s', result, result', hloop, hvalid', hloops, hdelivers, hrunning'⟩ :=
        ih hvalid (hrunning fun token htoken => by cases htoken) (by omega)
      exact ⟨s', result, result', hloop, hvalid', .next hpair hloops, hdelivers, hrunning'⟩
    | some result' =>
      rw [hdelivers'] at hdelivers hpair
      cases hdelivers with
      | @some _ result hdelivers =>
        refine ⟨s₁, result, result', rfl, hvalid, .stop hpair, hdelivers, fun hno => ?_⟩
        exact hrunning fun token htoken => hno token (Option.some.inj htoken)

/-- A valid scanner between two calls. -/
structure Resting (t : LexerTables) (src : Source) (s : Scanner) : Prop extends Valid t src s where
  resumes : s.lexer.askedForMoreData = true → s.lexer.state ≠ none

/-- The cursor of a scanner begins where the scanner does. -/
theorem Valid.begin (ht : t.WellFormed) (h : s.Valid t src) (hmatch : ¬ s.lexer.isMatch = true) :
    (s.begin t).Valid t src ∧ ofScanner (s.begin t) = (ofScanner s).begin t := by
  have hstate : ∀ p, some t.dfa.getRoot = some p → p < t.dfa.states.length := by
    intro p hp
    cases hp
    exact ht.dfa.root
  have hfirst : (ofScanner s).firstDelimiterPos = s.lexer.firstDelimiterPos := rfl
  unfold Scanner.begin Cursor.begin
  rw [hfirst]
  cases hf : s.lexer.firstDelimiterPos with
  | some f =>
    refine ⟨⟨h.input.rewind (h.firstDelimiterPos f hf), h.registers, hstate,
      fun hm => absurd hm hmatch, fun g hg => by cases hg⟩, ?_⟩
    unfold ofScanner
    simp only [if_neg hmatch]
    rfl
  | none =>
    refine ⟨⟨h.input, h.registers, hstate, fun hm => absurd hm hmatch,
      fun g hg => by cases hg⟩, ?_⟩
    unfold ofScanner
    simp only [if_neg hmatch]
    rfl

theorem stepsLeft_le (c : Cursor) : c.stepsLeft t src ≤ 2 * src.size + 1 := by
  unfold stepsLeft
  split_ifs <;> omega

/-- A call ends, and goes as the call of the cursor does. -/
theorem scan_refines (ht : t.WellFormed) (h : s.Resting t src) (hfuel : 2 * src.size + 1 < fuel) :
    ∃ s' result result', s.scan t fuel = .ok (s', result) ∧ s'.Resting t src ∧
      Scans t src (ofScanner s) (ofScanner s') result' ∧ Delivers t src result' result := by
  -- a loop that starts without a request ends with one only for an error
  have hloop : ∀ s₁ : Scanner, s₁.Valid t src → s₁.lexer.state ≠ none →
      s₁.lexer.askedForMoreData = false →
      ∃ s' result result', s₁.scanLoop t fuel = .ok (s', result) ∧ s'.Resting t src ∧
        Loops t src (ofScanner s₁) (ofScanner s') result' ∧ Delivers t src result' result := by
    intro s₁ hvalid hstate hasked
    obtain ⟨s', result, result', hends, hvalid', hloops, hdelivers, hrunning⟩ :=
      hvalid.scanLoop ht hstate ((stepsLeft_le _).trans_lt hfuel)
    refine ⟨s', result, result', hends, ⟨hvalid', fun hask => hrunning ?_⟩, hloops, hdelivers⟩
    rintro token rfl
    cases result' with
    | error err => exact hdelivers
    | ok span =>
      have hkept := hloops.askedForMoreData
      have hkept : s'.lexer.askedForMoreData = s₁.lexer.askedForMoreData := hkept
      rw [hkept, hasked] at hask
      cases hask
  unfold Scanner.scan
  by_cases hask : s.lexer.askedForMoreData = true
  · have hask' : (ofScanner s).askedForMoreData = true := hask
    simp only [if_pos hask, scans_of_asked hask']
    exact hloop { s with lexer := { s.lexer with askedForMoreData := false } }
      ⟨h.input, h.registers, h.state, h.isMatch, h.firstDelimiterPos⟩ (h.resumes hask) rfl
  · have hask' : ¬ (ofScanner s).askedForMoreData = true := hask
    by_cases hmatch : s.lexer.isMatch = true
    · obtain ⟨typeIds, hids, -, hmatched⟩ := matched_ofScanner h.toValid hmatch
      simp only [if_neg hask, if_pos hmatch, scans_of_matched hask' hmatched]
      obtain ⟨hvalid, hcursor, hcovers⟩ := (h.toValid.root ht).releaseMatch (t := t) hids
      exact ⟨_, _, .ok _, rfl, ⟨hvalid, fun hask' => absurd hask' hask⟩, ⟨hcursor, rfl⟩, hcovers⟩
    · have hmatched : (ofScanner s).matched = none := if_neg hmatch
      simp only [if_neg hask, if_neg hmatch, scans_of_begin hask' hmatched]
      obtain ⟨hvalid, hcursor⟩ := h.toValid.begin ht hmatch
      rw [← hcursor]
      exact hloop (s.begin t) hvalid (Option.some_ne_none _) (Bool.eq_false_iff.2 hask)

end Scanner

end LogSurgeon
