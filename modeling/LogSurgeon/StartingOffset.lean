import LogSurgeon.EventTexts
import LogSurgeon.ScannerStates

/-!
# The starting offset

A parse of a buffer from an offset should show the events of the text behind the
offset.  Behind a reset, the first token starts at position 0 whatever the
offset is, so this is so for the offset 0 only (`honoursOffset_iff`).
-/

namespace LogSurgeon

/-! ## The first token -/

namespace Cursor

variable {t : LexerTables} {src : Source} {opening : Option Opening} {i j : Nat}

/-- The token that starts behind an opening with an offset is not empty. -/
theorem Lexeme.lt_of_offset (ht : t.WellFormed) {o : Opening} (hoffset : 0 < o.offset)
    (hsize : 0 < src.size) {span : Span} (h : Lexeme t src (some o) 0 span) : 0 < span.endPos := by
  cases h with
  | text hlt => exact hlt
  | @«variable» j line typeIds hmatch =>
    obtain ⟨⟨base, origin, p, hruns, hle, hrun, hids⟩, hne, -, -⟩ := hmatch
    cases hruns with
    | root =>
      refine Nat.pos_of_ne_zero fun hzero => ?_
      have hzero : j = 0 := hzero
      rw [hzero, Source.word_self] at hrun
      cases hrun
      exact hne (hids.symm.trans ht.root)
    | opening ho =>
      cases ho
      exact hoffset.trans_le hle
  | input hend => omega

end Cursor

namespace Token

variable {t : LexerTables} {src : Source} {opening : Option Opening} {i j : Nat} {token : Token}

theorem IsLexeme.lt_of_offset (ht : t.WellFormed) {o : Opening} (hoffset : 0 < o.offset)
    (hsize : 0 < src.size) (h : token.IsLexeme t src (some o) 0 j) : 0 < j := by
  obtain ⟨span, -, hlexeme, rfl⟩ := h
  exact hlexeme.lt_of_offset ht hoffset hsize

end Token

/-! ## Offsets -/

namespace BufferParser

/-- What a caller sees of a call. -/
structure Call.Shown where
  errorCode : ErrorCode
  tokens : List (List UInt8 × Option (List Nat))
  timestamp : Option (List UInt8)

def Call.shown (call : Call) : Call.Shown where
  errorCode := call.errorCode
  tokens := call.event.tokens.map fun token => (token.toString, token.typeIds)
  timestamp := call.event.timestamp

/-- The token has a byte from before the position. -/
def HasByteBefore (k : Nat) (token : Token) : Prop :=
  ∃ i < k, token.startPos ≤ i ∧ i < token.endPos

/-- A parse of the buffer from the offset shows what a parse of the rest of the
buffer shows, and no byte from before the offset. -/
structure HonoursOffset (t : LexerTables) (buf : UserBuffer) (k : Nat) (p : BufferParser) :
    Prop where
  same : ∃ n, ∀ fuel ≥ n, ∀ count,
    (p.parseEvents t fuel buf true count k).map (·.map (·.shown)) =
      (p.parseEvents t fuel (buf.drop k) true count 0).map (·.map (·.shown))
  behind : ∀ fuel count calls, p.parseEvents t fuel buf true count k = .ok calls →
    ∀ call ∈ calls, ∀ token ∈ call.event.tokens, ¬ HasByteBefore k token

variable {t : LexerTables} {p : BufferParser} {buf : UserBuffer} {k : Nat}

theorem honoursOffset_zero (t : LexerTables) (buf : UserBuffer) (p : BufferParser) :
    HonoursOffset t buf 0 p := by
  have hdrop : buf.drop 0 = buf := by
    unfold UserBuffer.drop
    simp only [Nat.zero_add, Nat.sub_zero]
  refine ⟨⟨0, fun fuel _ count => ?_⟩, fun fuel count calls _ call _ token _ => ?_⟩
  · rw [hdrop]
  · rintro ⟨i, hi, -⟩
    exact absurd hi (Nat.not_lt_zero i)

/-- The first event has the first byte of the buffer. -/
theorem not_honoursOffset {schema : SchemaAST} (ht : t.OfSchema schema)
    (hcaptures : t.HasCaptureRegisters) (hnames : schema.NamesIdentifiers)
    (hreset : (BufferParser.new t).reset t = .ok p) (hsize : buf.size < 2 ^ 31)
    (hk : k ≤ buf.size) (hpos : 0 < k) : ¬ HonoursOffset t buf k p := by
  intro hhonours
  have hend := ht.tokenEnd_not_mem hnames
  have ht := ht.toWellFormed
  obtain ⟨state, hstate, hawaits, hnone⟩ := @awaits_reset t buf true k ht p hreset hsize
    (hpos.trans_le hk) hk
  have hstart : (Lexer.startOfFileState t).isSome := by
    rw [hstate]
    rfl
  obtain ⟨call, parsed, opening', q', hcall, hmakes⟩ :=
    hawaits.parseNextEvent ht hcaptures hsize (Nat.lt_succ_self _) hstart
  have hcalls : p.parseEvents t (2 * buf.size + 1 + 1) buf true 1 k = .ok [call] := by
    unfold parseEvents parseEvents
    simp only [bind, Except.bind, hcall, pure, Except.pure]
    split <;> rfl
  -- the first token of the event starts at position 0 and is not empty
  have hfirst : ∃ token ∈ parsed.event.tokens, token.startPos = 0 ∧ 0 < token.endPos := by
    obtain ⟨tokens, hparses, hchain, -⟩ := hmakes.parses
    rw [hnone] at hparses
    cases hparses with
    | outOfData => exact absurd rfl (hmakes.outOfData _ rfl)
    | @newline token h =>
      cases hchain with
      | cons hlexeme hrest =>
        refine ⟨_, List.mem_singleton_self _, hlexeme.startPos, ?_⟩
        show 0 < token.getNextPos
        rw [hlexeme.getNextPos (hlexeme.lt_of_offset ht hpos (hpos.trans_le hk))]
        exact Nat.one_pos
    | @read token tokens _ _ hbegins =>
      cases hchain with
      | @cons _ _ _ j _ _ _ hlexeme hrest =>
        have hlt := hlexeme.lt_of_offset ht hpos (hpos.trans_le hk)
        have hstays : ∀ hasHeader timestamp, Extends ⟨hasHeader, timestamp, [token]⟩ tokens parsed →
            ∃ token ∈ parsed.event.tokens, token.startPos = 0 ∧ 0 < token.endPos := by
          intro hasHeader timestamp hextends
          obtain ⟨-, -, added, hadded⟩ := hextends.event
          refine ⟨token, ?_, hlexeme.startPos, ?_⟩
          · rw [hadded]
            exact List.mem_append_left _ (List.mem_singleton_self token)
          · rw [hlexeme.endPos]
            exact hlt
        cases hbegins with
        | finish htype =>
          have hzero := hlexeme.eq_size_of_tokenEnd hend htype
          have hlast : 0 < buf.size := hpos.trans_le hk
          exact absurd hzero hlast.ne
        | header _ _ hextends => exact hstays _ _ hextends
        | other _ _ _ hextends => exact hstays _ _ hextends
  obtain ⟨token, hmem, hzero, hlt⟩ := hfirst
  rw [← hmakes.shows.event] at hmem
  refine hhonours.behind _ _ _ hcalls call (List.mem_singleton_self call) token hmem ⟨0, hpos, ?_⟩
  exact ⟨hzero.le, hlt⟩

/-- A new parser honours the offset 0 only. -/
theorem honoursOffset_iff {schema : SchemaAST}
    {regMapOrder : List (Nat × Nat) → List (Nat × Nat)} {steps : Nat}
    (horder : ∀ regMap, (regMapOrder regMap).Perm regMap)
    (hgenerate : schema.generate regMapOrder steps = .ok t) (hnames : schema.NamesIdentifiers)
    (hreset : (BufferParser.new t).reset t = .ok p) (hsize : buf.size < 2 ^ 31)
    (hk : k ≤ buf.size) : HonoursOffset t buf k p ↔ k = 0 := by
  have ht := LexerTables.ofSchema_generate horder hgenerate
  have hcaptures := LexerTables.hasCaptureRegisters_generate horder hgenerate
  constructor
  · intro h
    by_contra hne
    exact not_honoursOffset ht hcaptures hnames hreset hsize hk (Nat.pos_of_ne_zero hne) h
  · rintro rfl
    exact honoursOffset_zero t buf p

/-! ### A text of two letters -/

/-- The variable `b`. -/
def letterSchema : SchemaAST := ⟨[⟨"v", .mkLiteral 98⟩], [[10, 32]]⟩

theorem namesIdentifiers_letterSchema : letterSchema.NamesIdentifiers := by
  intro var hvar
  obtain rfl := List.mem_singleton.1 hvar
  decide

/-- The text `ab`. -/
def letters : UserBuffer where
  bytes i := if i = 0 then 97 else 98
  size := 2

theorem exists_reset (hstart : (Lexer.startOfFileState t).isSome) (p : BufferParser) :
    ∃ p', p.reset t = .ok p' := by
  obtain ⟨lexer, hlexer⟩ := p.logParser.exists_reset hstart
  unfold reset
  rw [hlexer]
  exact ⟨_, rfl⟩

theorem exists_reset_letterSchema : ∃ t p, letterSchema.generate id 40 = .ok t ∧
    (BufferParser.new t).reset t = .ok p := by
  have hcheck : LogParser.checkTables letterSchema (fun t => (Lexer.startOfFileState t).isSome) =
      true := by decide +kernel
  obtain ⟨t, hgenerate, hstart⟩ := LogParser.exists_of_checkTables hcheck
  obtain ⟨p, hreset⟩ := exists_reset hstart (.new t)
  exact ⟨t, p, hgenerate, hreset⟩

theorem honoursOffset_iff_letters : ∃ t p, letterSchema.generate id 40 = .ok t ∧
    (BufferParser.new t).reset t = .ok p ∧ (HonoursOffset t letters 1 p ↔ 1 = 0) := by
  obtain ⟨t, p, hgenerate, hreset⟩ := exists_reset_letterSchema
  exact ⟨t, p, hgenerate, hreset, honoursOffset_iff (fun _ => .refl _) hgenerate
    namesIdentifiers_letterSchema hreset (by decide) (by decide)⟩

/-- From the offset 1, the parse of `ab` shows an event with the letter `a`. -/
theorem not_honoursOffset_letters : ∃ t p, letterSchema.generate id 40 = .ok t ∧
    (BufferParser.new t).reset t = .ok p ∧ ¬ HonoursOffset t letters 1 p := by
  obtain ⟨t, p, hgenerate, hreset⟩ := exists_reset_letterSchema
  refine ⟨t, p, hgenerate, hreset, ?_⟩
  exact not_honoursOffset (LexerTables.ofSchema_generate (fun _ => .refl _) hgenerate)
    (LexerTables.hasCaptureRegisters_generate (fun _ => .refl _) hgenerate)
    namesIdentifiers_letterSchema hreset (by decide) (by decide) (by decide)

end BufferParser

end LogSurgeon
