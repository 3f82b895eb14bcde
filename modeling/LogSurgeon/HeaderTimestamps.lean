import LogSurgeon.FiniteAutomata.CaptureTags
import LogSurgeon.ScannerRegisters

/-!
# The timestamps of headers

Reading the timestamp of a header looks up the registers of the captures and
cuts a part out of the buffer.  Neither fails, since every capture of a rule has
final registers and these hold positions of the buffer.  So a parse fails on no
header (`StandsAt.parse_inStorage`).

`InStorage` is what this needs of the parser, and parsing keeps it
(`parse_inStorage`).
-/

namespace LogSurgeon

/-! ## The registers of the captures -/

/-- The captures that are listed are those of rules. -/
theorem mem_of_ruleIdToCapture {rules : List LexicalRule} {ruleId : Nat} {captures : List Capture}
    (h : (ruleIdToCapture rules).lookup ruleId = some captures) {capture : Capture}
    (hcapture : capture ∈ captures) : ∃ rule ∈ rules, capture ∈ rule.getCaptures := by
  have hmem := Parser.mem_of_lookup h
  unfold ruleIdToCapture at hmem
  obtain ⟨id, -, hid⟩ := List.mem_map.1 hmem
  cases hid
  obtain ⟨rule, hrule, hin⟩ := List.mem_flatMap.1 hcapture
  exact ⟨rule, (List.mem_filter.1 (List.mem_filter.1 hrule).1).1, hin⟩

namespace LexerTables

/-- The captures of the rules have registers of the DFA. -/
def HasCaptureRegisters (t : LexerTables) : Prop :=
  ∀ ruleId captures, t.getCapturesFromRuleId ruleId = some captures → ∀ capture ∈ captures,
    ∃ startRegId endRegId, t.getRegIdsFromCapture capture = .ok (startRegId, endRegId) ∧
      startRegId < t.dfa.regHandler.getNumRegs ∧ endRegId < t.dfa.regHandler.getNumRegs

theorem hasCaptureRegisters_generate {schema : SchemaAST}
    {regMapOrder : List (Nat × Nat) → List (Nat × Nat)} {fuel : Nat} {t : LexerTables}
    (horder : ∀ regMap, (regMapOrder regMap).Perm regMap)
    (h : schema.generate regMapOrder fuel = .ok t) : t.HasCaptureRegisters := by
  have ht := ofSchema_generate horder h
  obtain ⟨parser, -, htables⟩ := exists_of_bind_eq_ok h
  obtain ⟨dfa, root, hdfa, -, rfl⟩ := generateTables_cases htables
  obtain ⟨g, hg, rfl⟩ := Option.map_eq_some_iff.1 hdfa
  obtain ⟨S₀, -, hinv, -⟩ := Dfa.determinize_spec hg
  intro ruleId captures hcaptures capture hcapture
  obtain ⟨rule, hrule, hin⟩ := mem_of_ruleIdToCapture hcaptures hcapture
  obtain ⟨pair, hpair⟩ := Nfa.hasTags_ofRules hrule hin
  obtain ⟨hstart, hend⟩ := (Nfa.distinctTags_ofRules parser.rules).inUse capture pair hpair
  -- every tag in use has a final register
  have hfinal : ∀ tag < (Nfa.ofRules parser.rules).numTags,
      ∃ regId, g.dfa.tagIdToFinalRegId.find? tag = some regId ∧
        regId < g.dfa.regHandler.getNumRegs := by
    intro tag htag
    have hfind : g.dfa.tagIdToFinalRegId.find? tag =
        some ((Nfa.ofRules parser.rules).numTags + tag) := by
      rw [hinv.final, Dfa.find?_initialTagIdToFinalRegId, if_pos htag]
    exact ⟨_, hfind, ht.registers.final tag _ hfind⟩
  obtain ⟨startRegId, hstartReg, hstartLt⟩ := hfinal _ hstart
  obtain ⟨endRegId, hendReg, hendLt⟩ := hfinal _ hend
  refine ⟨startRegId, endRegId, ?_, hstartLt, hendLt⟩
  unfold getRegIdsFromCapture getTagIdPairFromCapture getRegIdFromTagId
  rw [hpair, derefOr_some]
  simp only [bind, Except.bind, hstartReg, hendReg, derefOr_some, pure, Except.pure]

end LexerTables

namespace LogParser

variable {t : LexerTables} {limit fuel steps : Nat} {p p' : LogParser} {token : Token}

/-! ## Timestamps -/

/-- A timestamp can be read when the registers hold positions of the buffer. -/
theorem exists_timestampOf (hregisters : t.dfa.RegistersWithin limit token.regHandler)
    (hsize : token.bufferSize = limit + 1) {captures : List Capture}
    (hcaptures : ∀ capture ∈ captures, ∃ startRegId endRegId,
      t.getRegIdsFromCapture capture = .ok (startRegId, endRegId) ∧
        startRegId < t.dfa.regHandler.getNumRegs ∧ endRegId < t.dfa.regHandler.getNumRegs) :
    ∃ timestamp, timestampOf t token captures = .ok timestamp := by
  induction captures with
  | nil => exact ⟨none, rfl⟩
  | cons capture captures ih =>
    have hrest := ih fun capture' hcapture' => hcaptures capture' (List.mem_cons_of_mem _ hcapture')
    obtain ⟨startRegId, endRegId, hregs, hstart, hend⟩ := hcaptures capture List.mem_cons_self
    have hread : ∀ regId < t.dfa.regHandler.getNumRegs, ∃ positions,
        token.getReversedRegPositions regId = .ok positions ∧
          ∀ position ∈ positions, position ≤ limit := by
      intro regId hlt
      rw [← hregisters.getNumRegs] at hlt
      obtain ⟨positions, hpositions, hle⟩ := hregisters.within.getReversedPositions hlt
      refine ⟨positions, ?_, hle⟩
      unfold Token.getReversedRegPositions
      rw [hpositions]
      rfl
    obtain ⟨starts, hstarts, hstartLe⟩ := hread startRegId hstart
    obtain ⟨ends, hends, hendLe⟩ := hread endRegId hend
    unfold timestampOf
    split
    · simp only [bind, Except.bind, hregs, hstarts, hends]
      cases starts with
      | nil => exact hrest
      | cons start starts =>
        cases ends with
        | nil => exact hrest
        | cons «end» ends =>
          have hstartPos := hstartLe start List.mem_cons_self
          have hendPos := hendLe «end» List.mem_cons_self
          simp only [List.head?_cons]
          split
          · exact hrest
          · have hinside : ¬ (start.toNat ≥ token.bufferSize ∨ «end».toNat > token.bufferSize) := by
              rw [hsize]
              omega
            unfold Token.getSubToken
            rw [if_neg hinside]
            exact ⟨_, rfl⟩
    · exact hrest

theorem exists_headerTimestamp (hcaptures : t.HasCaptureRegisters)
    (hregisters : t.dfa.RegistersWithin limit token.regHandler)
    (hsize : token.bufferSize = limit + 1) :
    ∃ timestamp, headerTimestamp t token = .ok timestamp := by
  unfold headerTimestamp
  split
  · rename_i captures hlookup
    exact exists_timestampOf hregisters hsize (hcaptures _ captures hlookup)
  · exact ⟨none, rfl⟩

/-! ## Parsing stays in the storage -/

/-- The positions and the registers of the parser stay in the storage, whose
last position is the limit. -/
structure InStorage (t : LexerTables) (limit : Nat) (p : LogParser) : Prop where
  within : p.scanner.Within
  size : p.inputBuffer.storage.size = limit + 1
  registers : p.scanner.KeepsWithin t limit
  start : p.startOfLogMessage.regHandler.Within limit

/-- The lexer and the storage are the same, and the token that is kept may be
another one. -/
theorem InStorage.of_same (h : p.InStorage t limit) (hlexer : p'.lexer = p.lexer)
    (hstorage : p'.inputBuffer.storage = p.inputBuffer.storage)
    (hstart : p'.startOfLogMessage.regHandler.Within limit) : p'.InStorage t limit := by
  have hwithin := h.within
  refine ⟨?_, ?_, ?_, hstart⟩
  · refine ⟨?_, ?_, ?_, ?_, ?_⟩ <;> unfold scanner <;> rw [hstorage]
    · exact hwithin.pos
    · rw [hlexer]
      exact hwithin.startPos
    · rw [hlexer]
      exact hwithin.lastMatchPos
    · rw [hlexer]
      exact hwithin.matchPos
    · rw [hlexer]
      exact hwithin.firstDelimiterPos
  · rw [hstorage]
    exact h.size
  · show t.dfa.RegistersWithin limit p'.lexer.regHandler
    rw [hlexer]
    exact h.registers

theorem InStorage.getNextSymbol (ht : t.WellFormed) (h : p.InStorage t limit) {result : ScanResult}
    (hsymbol : p.getNextSymbol t fuel = .ok (p', result)) :
    p'.InStorage t limit ∧ Scanner.ReturnsWithin limit result := by
  unfold LogParser.getNextSymbol at hsymbol
  obtain ⟨⟨s, r⟩, hscan, hsymbol⟩ := exists_of_bind_eq_ok hsymbol
  cases hsymbol
  obtain ⟨hframe, -⟩ := Scanner.scan_frame h.within hscan
  obtain ⟨hkeeps, hreturns⟩ := Scanner.scan_registers ht h.registers h.within h.size hscan
  exact ⟨⟨hframe.within, hframe.input.size.trans h.size, hkeeps, h.start⟩, hreturns⟩

theorem InStorage.addToEvent (h : p.InStorage t limit) (htoken : token.regHandler.Within limit)
    {action : Option ParsingAction} (hadd : p.addToEvent token = .ok (p', action)) :
    p'.InStorage t limit := by
  obtain ⟨tokenType, -, hadd⟩ := exists_of_bind_eq_ok hadd
  dsimp only at hadd
  split at hadd
  · cases hadd
    exact h.of_same rfl rfl h.start
  · split at hadd
    · cases hadd
      exact h.of_same rfl rfl h.start
    · split at hadd
      · cases hadd
        exact h.of_same rfl rfl htoken
      · cases hadd
        exact h.of_same rfl rfl h.start

theorem InStorage.beginEvent (h : p.InStorage t limit) {action : Option ParsingAction}
    (hbegin : p.beginEvent t token = .ok (p', action)) : p'.InStorage t limit := by
  obtain ⟨typeId, -, hbegin⟩ := exists_of_bind_eq_ok hbegin
  dsimp only at hbegin
  split at hbegin
  · cases hbegin
    exact h.of_same rfl rfl h.start
  · split at hbegin
    · obtain ⟨p₁, hp₁, hbegin⟩ := exists_of_bind_eq_ok hbegin
      rw [beginWithHeader_eq] at hp₁
      obtain ⟨timestamp, -, hp₁⟩ := exists_of_bind_eq_ok hp₁
      cases hp₁
      cases hbegin
      exact h.of_same rfl rfl h.start
    · cases hbegin
      exact h.of_same rfl rfl h.start

theorem InStorage.parseLoop (ht : t.WellFormed) (h : p.InStorage t limit)
    {result : Except ErrorCode ParsingAction}
    (hloop : p.parseLoop t fuel steps = .ok (p', result)) : p'.InStorage t limit := by
  induction steps generalizing p with
  | zero => cases hloop
  | succ steps ih =>
    obtain ⟨⟨p₁, r₁⟩, hsymbol, hloop⟩ := exists_of_bind_eq_ok hloop
    obtain ⟨hinside, hreturns⟩ := h.getNextSymbol ht hsymbol
    cases r₁ with
    | error err =>
      cases hloop
      exact hinside
    | ok token =>
      obtain ⟨⟨p₂, r₂⟩, hadd, hloop⟩ := exists_of_bind_eq_ok hloop
      have hadded := hinside.addToEvent (hreturns token rfl) hadd
      cases r₂ with
      | some action =>
        cases hloop
        exact hadded
      | none => exact ih hadded hloop

theorem InStorage.parseFirst (ht : t.WellFormed) (h : p.InStorage t limit)
    {result : Except ErrorCode (Option ParsingAction)}
    (hfirst : p.parseFirst t fuel = .ok (p', result)) : p'.InStorage t limit := by
  unfold LogParser.parseFirst at hfirst
  split at hfirst
  · obtain ⟨⟨p₁, action⟩, hbegin, hfirst⟩ := exists_of_bind_eq_ok hfirst
    cases hfirst
    exact h.beginEvent hbegin
  · obtain ⟨⟨p₁, r₁⟩, hsymbol, hfirst⟩ := exists_of_bind_eq_ok hfirst
    obtain ⟨hinside, hreturns⟩ := h.getNextSymbol ht hsymbol
    cases r₁ with
    | error err =>
      cases hfirst
      exact hinside
    | ok token =>
      obtain ⟨typeId, -, hfirst⟩ := exists_of_bind_eq_ok hfirst
      dsimp only at hfirst
      split at hfirst
      · cases hfirst
        exact hinside.of_same rfl rfl (hreturns token rfl)
      · obtain ⟨⟨p₂, action⟩, hbegin, hfirst⟩ := exists_of_bind_eq_ok hfirst
        cases hfirst
        exact hinside.beginEvent hbegin

theorem parse_inStorage (ht : t.WellFormed) (h : p.InStorage t limit)
    {result : Except ErrorCode ParsingAction} (hparse : p.parse t fuel = .ok (p', result)) :
    p'.InStorage t limit := by
  unfold parse at hparse
  split at hparse
  · obtain ⟨⟨p₁, r₁⟩, hfirst, hparse⟩ := exists_of_bind_eq_ok hparse
    have hinside := h.parseFirst ht hfirst
    rcases r₁ with err | (_ | action)
    · cases hparse
      exact hinside
    · exact hinside.parseLoop ht hparse
    · cases hparse
      exact hinside
  · exact h.parseLoop ht hparse

/-! ## A parse does not fail -/

section Parse

variable {src : Source} {opening : Option Opening} {q : Nat}

theorem exists_type_of_isKept (h : token.IsKept t src q) :
    ∃ id, token.firstTypeId = .ok id ∧ id ≠ SymbolId.tokenEnd.toNat := by
  obtain ⟨-, -, whole, tokenType, -, htype, hend, -, rfl⟩ := h
  exact ⟨tokenType, htype, hend⟩

/-- A lexeme of the type of a header has the registers of the DFA. -/
theorem hasRegisters_of_isLexeme {j : Nat} (h : token.IsLexeme t src opening q j)
    (htype : token.firstTypeId = .ok SymbolId.tokenHeader.toNat) :
    t.dfa.HasRegisters token.regHandler ∧ token.bufferSize = 2 * src.size := by
  obtain ⟨span, hcovers, -, -⟩ := h
  refine ⟨?_, hcovers.bufferSize⟩
  unfold Token.firstTypeId at htype
  rw [hcovers.typeIds] at htype
  rcases hcovers.registers with huncaught | hend | hregisters
  · rw [huncaught] at htype
    cases htype
  · rw [hend] at htype
    cases htype
  · exact hregisters

theorem InStorage.exists_headerTimestamp (hcaptures : t.HasCaptureRegisters)
    (hsize : 2 * src.size = limit + 1) {j : Nat} (h : token.IsLexeme t src opening q j)
    (htype : token.firstTypeId = .ok SymbolId.tokenHeader.toNat)
    (hwithin : token.regHandler.Within limit) :
    ∃ timestamp, headerTimestamp t token = .ok timestamp := by
  obtain ⟨hregisters, hbuffer⟩ := hasRegisters_of_isLexeme h htype
  exact LogParser.exists_headerTimestamp hcaptures ⟨hregisters.getNumRegs, hwithin⟩
    (hbuffer.trans hsize)

/-- The token that is kept is what is left of a token of the text. -/
theorem exists_headerTimestamp_of_isKept (hcaptures : t.HasCaptureRegisters)
    (hsize : 2 * src.size = limit + 1) (h : token.IsKept t src q)
    (htype : token.firstTypeId = .ok SymbolId.tokenHeader.toNat)
    (hwithin : token.regHandler.Within limit) :
    ∃ timestamp, headerTimestamp t token = .ok timestamp := by
  obtain ⟨opening, i, whole, tokenType, hlexeme, -, -, -, rfl⟩ := h
  have hwhole : whole.firstTypeId = .ok SymbolId.tokenHeader.toNat := htype
  obtain ⟨hregisters, hbuffer⟩ := hasRegisters_of_isLexeme hlexeme hwhole
  exact LogParser.exists_headerTimestamp hcaptures ⟨hregisters.getNumRegs, hwithin⟩
    (hbuffer.trans hsize)

/-- A parse makes an event of the tokens that it reads. -/
theorem StandsAt.parse_inStorage (ht : t.WellFormed) (hcaptures : t.HasCaptureRegisters)
    (h : p.StandsAt t src opening q) (hinside : p.InStorage t limit)
    (hfuel : 2 * src.size + 1 < fuel) (hfresh : p.Fresh)
    (hkept : ∀ token, p.startOfLog = some token → token.IsKept t src q) :
    ∃ p' tokens parsed, p.parse t fuel = .ok (p', parsed.result) ∧
      Parses t p.startOfLog tokens parsed ∧
      Makes t src opening q (Cursor.ofScanner p.scanner) tokens parsed p' ∧
      LeavesSlots p p' parsed ∧ ReadsFirst t fuel p tokens ∧ p'.InStorage t limit := by
  have hsize : 2 * src.size = limit + 1 := h.resting.input.size.symm.trans hinside.size
  rcases h.parse ht hfuel hfresh fun token htoken => exists_type_of_isKept (hkept token htoken) with
    ⟨p', tokens, parsed, hparse, hparses, hmakes, hslots, hreads⟩ |
    ⟨token, fault, htype, hfault, -, hfrom⟩
  · exact ⟨p', tokens, parsed, hparse, hparses, hmakes, hslots, hreads,
      LogParser.parse_inStorage ht hinside hparse⟩
  · exfalso
    have hread : ∃ timestamp, headerTimestamp t token = .ok timestamp := by
      rcases hfrom with hstart | ⟨-, p', j, hsymbol, hlexeme⟩
      · have hmessage : token = p.startOfLogMessage := by
          unfold startOfLog at hstart
          split at hstart
          · exact (Option.some.inj hstart).symm
          · cases hstart
        refine exists_headerTimestamp_of_isKept hcaptures hsize (hkept token hstart) htype ?_
        rw [hmessage]
        exact hinside.start
      · exact InStorage.exists_headerTimestamp hcaptures hsize hlexeme htype
          ((hinside.getNextSymbol ht hsymbol).2 token rfl)
    obtain ⟨timestamp, htimestamp⟩ := hread
    rw [hfault] at htimestamp
    cases htimestamp

end Parse

end LogParser

end LogSurgeon
