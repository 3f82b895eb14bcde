import LogSurgeon.BufferParserRun

/-!
# The texts of events

The tokens of an event lie one behind the other in the text, from the position
where the last event ended (`eventStart`).  So the text of an event is that of
the token that is kept from the last one and a part of the text
(`Parses.makesText`).

There is one exception: a header without text in front of a newline at the start
of the text (`Token.IsEmptyHeader`), which is kept as a token that wraps.
-/

namespace LogSurgeon

/-! ## Names of variables -/

/-- The characters of the token `IdentifierCharacters`. -/
def isIdentifierCharacter (c : Char) : Bool := c.isAlphanum || c == '_'

/-- The names of the variables are identifiers, as in every parsed schema. -/
def SchemaAST.NamesIdentifiers (schema : SchemaAST) : Prop :=
  ∀ var ∈ schema.schemaVars, var.name.toList.all isIdentifierCharacter

/-- No match has the type of the end of the input. -/
theorem LexerTables.OfSchema.tokenEnd_not_mem {schema : SchemaAST} {t : LexerTables}
    (ht : t.OfSchema schema) (hnames : schema.NamesIdentifiers) (state : Nat) :
    SymbolId.tokenEnd.toNat ∉ t.dfa.typeIds state := by
  intro hmem
  rcases ht.reserved state (cTokenEnd, SymbolId.tokenEnd.toNat) (by decide) hmem with
    hname | ⟨var, hvar, hname⟩
  · exact absurd hname (by decide)
  · have hidentifier := hnames var hvar
    rw [hname] at hidentifier
    exact absurd hidentifier (by decide)

/-! ## The texts of tokens -/

namespace Cursor

variable {t : LexerTables} {src : Source} {opening : Option Opening} {i : Nat}

/-- A token of the type of the end comes at the end. -/
theorem Lexeme.eq_size_of_tokenEnd (hend : ∀ state, SymbolId.tokenEnd.toNat ∉ t.dfa.typeIds state)
    {span : Span} (h : Lexeme t src opening i span) (hmem : SymbolId.tokenEnd.toNat ∈ span.typeIds) :
    i = src.size := by
  cases h with
  | text =>
    have huncaught : SymbolId.tokenEnd.toNat ∈ cTokenUncaughtStringTypes := hmem
    exact absurd huncaught (by decide)
  | «variable» hmatch =>
    obtain ⟨base, origin, p, -, -, -, hids⟩ := hmatch.run
    rw [← hids] at hmem
    exact absurd hmem (hend p)
  | input hsize => exact hsize

end Cursor

namespace Token

open Cursor

variable {t : LexerTables} {src : Source} {opening : Option Opening} {i j q : Nat} {token : Token}

theorem IsLexeme.startPos (h : token.IsLexeme t src opening i j) : token.startPos = i := by
  obtain ⟨span, hcovers, hlexeme, -⟩ := h
  rw [hcovers.startPos, hlexeme.startPos]

theorem IsLexeme.endPos (h : token.IsLexeme t src opening i j) : token.endPos = j := by
  obtain ⟨span, hcovers, -, hend⟩ := h
  rw [hcovers.endPos, hend]

theorem IsLexeme.buffer (h : token.IsLexeme t src opening i j) : token.buffer = src.bytes := by
  obtain ⟨span, hcovers, -⟩ := h
  exact hcovers.buffer

theorem IsLexeme.bufferSize (h : token.IsLexeme t src opening i j) :
    token.bufferSize = 2 * src.size := by
  obtain ⟨span, hcovers, -⟩ := h
  exact hcovers.bufferSize

theorem IsLexeme.le (h : token.IsLexeme t src opening i j) : i ≤ j := by
  obtain ⟨span, -, hlexeme, rfl⟩ := h
  exact hlexeme.le

/-- Behind the first token, a token that does not end the input is not empty. -/
theorem IsLexeme.lt_of_type (ht : t.WellFormed) (h : token.IsLexeme t src none i j) {id : Nat}
    (htype : token.firstTypeId = .ok id) (hend : id ≠ SymbolId.tokenEnd.toNat) : i < j := by
  obtain ⟨span, hcovers, hlexeme, rfl⟩ := h
  rcases hlexeme.lt_or ht with hlt | ⟨-, -, htypes⟩
  · exact hlt
  · rw [LogParser.firstTypeId_of_covers hcovers htypes] at htype
    exact absurd (Except.ok.inj htype).symm hend

theorem IsLexeme.le_size (h : token.IsLexeme t src opening i j) : j ≤ src.size := by
  obtain ⟨span, -, hlexeme, rfl⟩ := h
  exact hlexeme.le_size

theorem IsLexeme.eq_size_of_tokenEnd (hend : ∀ state, SymbolId.tokenEnd.toNat ∉ t.dfa.typeIds state)
    (h : token.IsLexeme t src opening i j)
    (htype : token.firstTypeId = .ok SymbolId.tokenEnd.toNat) : i = src.size := by
  obtain ⟨span, hcovers, hlexeme, -⟩ := h
  refine hlexeme.eq_size_of_tokenEnd hend ?_
  unfold firstTypeId at htype
  rw [hcovers.typeIds] at htype
  exact List.mem_of_head? (eq_some_of_derefOr htype)

theorem IsLexeme.getFirstChar (h : token.IsLexeme t src opening i j) :
    token.getFirstChar = src.bytes i := by
  unfold Token.getFirstChar
  rw [h.buffer, h.startPos]

theorem IsLexeme.toString_eq (h : token.IsLexeme t src opening i j) :
    token.toString = src.word i j := by
  have hle : token.startPos ≤ token.endPos := by
    rw [h.startPos, h.endPos]
    exact h.le
  rw [toString_of_le hle, h.buffer, h.startPos, h.endPos]
  rfl

/-- The position behind the start of a token that is not empty does not wrap. -/
theorem IsLexeme.getNextPos (h : token.IsLexeme t src opening i j) (hlt : i < j) :
    token.getNextPos = i + 1 := by
  have hsize := h.le_size
  unfold Token.getNextPos
  rw [h.startPos, h.bufferSize, if_neg]
  omega

theorem IsLexeme.toString_newlineOf (h : token.IsLexeme t src opening i j) (hlt : i < j) :
    (LogParser.newlineOf token).toString = src.word i (i + 1) := by
  unfold LogParser.newlineOf
  rw [h.getNextPos hlt]
  have hle : ((token.setEndPos (i + 1)).setTypeIds cTokenUncaughtStringTypes).startPos ≤
      ((token.setEndPos (i + 1)).setTypeIds cTokenUncaughtStringTypes).endPos := by
    show token.startPos ≤ i + 1
    rw [h.startPos]
    exact Nat.le_succ i
  rw [toString_of_le hle]
  show subspan token.buffer token.startPos (i + 1 - token.startPos) = _
  rw [h.buffer, h.startPos]
  rfl

theorem IsLexeme.startPos_incrementStartPos (h : token.IsLexeme t src opening i j) (hlt : i < j) :
    token.incrementStartPos.startPos = i + 1 := h.getNextPos hlt

theorem IsLexeme.toString_incrementStartPos (h : token.IsLexeme t src opening i j)
    (hlt : i < j) : token.incrementStartPos.toString = src.word (i + 1) j := by
  have hle : token.incrementStartPos.startPos ≤ token.incrementStartPos.endPos := by
    rw [h.startPos_incrementStartPos hlt]
    show i + 1 ≤ token.endPos
    rw [h.endPos]
    exact hlt
  rw [toString_of_le hle, h.startPos_incrementStartPos hlt]
  show subspan token.buffer (i + 1) (token.endPos - (i + 1)) = _
  rw [h.buffer, h.endPos]
  rfl

/-! A token without text at the start of the text wraps behind its newline. -/

theorem IsLexeme.getNextPos_of_empty (h : token.IsLexeme t src opening 0 0) :
    token.getNextPos = 1 := by
  unfold Token.getNextPos
  rw [h.startPos, h.bufferSize, if_neg]
  omega

theorem IsLexeme.length_newlineOf_of_empty (h : token.IsLexeme t src opening 0 0) :
    (LogParser.newlineOf token).toString.length = 1 := by
  unfold LogParser.newlineOf
  rw [h.getNextPos_of_empty, length_toString]
  show (if token.startPos ≤ 1 then 1 - token.startPos else _) = 1
  rw [h.startPos, if_pos (Nat.zero_le 1)]

theorem IsLexeme.length_incrementStartPos_of_empty (h : token.IsLexeme t src opening 0 0) :
    token.incrementStartPos.toString.length = 2 * src.size - 1 := by
  rw [length_toString]
  show (if token.getNextPos ≤ token.endPos then _
    else token.bufferSize - token.getNextPos + token.endPos) = _
  rw [h.getNextPos_of_empty, h.endPos, h.bufferSize, if_neg (Nat.not_succ_le_zero 0)]
  rfl

end Token

/-! ## The texts of events -/

/-- The position of the next event: the tokens up to `q` are read, but the last
one may be kept. -/
def eventStart (startOfLog : Option Token) (q : Nat) : Nat := startOfLog.elim q (·.startPos)

/-- The text of the token that is kept. -/
def keptText (startOfLog : Option Token) : List UInt8 := startOfLog.elim [] (·.toString)

/-- The token that is kept has the text up to `q`. -/
def KeepsText (src : Source) (startOfLog : Option Token) (q : Nat) : Prop :=
  ∀ token, startOfLog = some token → token.startPos ≤ q ∧
    token.toString = src.word token.startPos q

theorem keepsText_none (src : Source) (q : Nat) : KeepsText src none q := by
  intro token htoken
  cases htoken

theorem KeepsText.eventStart_le {src : Source} {startOfLog : Option Token} {q : Nat}
    (h : KeepsText src startOfLog q) : eventStart startOfLog q ≤ q := by
  cases startOfLog with
  | none => exact Nat.le_refl q
  | some token => exact (h token rfl).1

theorem KeepsText.keptText {src : Source} {startOfLog : Option Token} {q : Nat}
    (h : KeepsText src startOfLog q) :
    keptText startOfLog = src.word (eventStart startOfLog q) q := by
  cases startOfLog with
  | none => exact (Source.word_self src q).symm
  | some token => exact (h token rfl).2

/-- A header without text in front of a newline. -/
def Token.IsEmptyHeader (token : Token) : Prop :=
  token.IsHeaderBehindNewline ∧ token.toString = []

@[simp] theorem Event.toString_add (event : Event) (token : Token) :
    (event.add token).toString = event.toString ++ token.toString := by
  unfold Event.toString Event.add
  rw [List.flatMap_append, List.flatMap_singleton]

theorem Event.toString_single (hasHeader : Bool) (timestamp : Option (List UInt8)) (token : Token) :
    (⟨hasHeader, timestamp, [token]⟩ : Event).toString = token.toString :=
  List.flatMap_singleton _ _

/-- What a parse makes of the text behind `before` and `start`. -/
structure MakesText (src : Source) (parsed : Parsed) (before : List UInt8) (start q' : Nat) :
    Prop where
  le : start ≤ eventStart parsed.startOfLog q'
  keeps : KeepsText src parsed.startOfLog q'
  text : parsed.event.toString = before ++ src.word start (eventStart parsed.startOfLog q')
  lt : parsed.result = .ok .compress → start < eventStart parsed.startOfLog q'
  finish : parsed.result = .ok .compressAndFinish → q' = src.size

section Texts

variable {t : LexerTables} {src : Source} {opening opening' : Option Opening} {q q' : Nat}
  {token : Token} {tokens : List Token} {event : Event} {parsed : Parsed} {before : List UInt8}

/-- The text before may be longer by a part of the text. -/
theorem MakesText.of_word {start : Nat}
    (h : MakesText src parsed (before ++ src.word start q) q q') (hle : start ≤ q) :
    MakesText src parsed before start q' := by
  refine ⟨hle.trans h.le, h.keeps, ?_, fun hcompress => hle.trans_lt (h.lt hcompress), h.finish⟩
  rw [h.text, List.append_assoc, Source.word_append src hle h.le]

/-- A newline that is split off a token. -/
theorem makesText_split (hlexeme : token.IsLexeme t src opening q q') (hlt : q < q')
    {result : Except ErrorCode ParsingAction} (hresult : result ≠ .ok .compressAndFinish)
    (htext : event.toString = before ++ (LogParser.newlineOf token).toString) :
    MakesText src ⟨event, some token.incrementStartPos, result⟩ before q q' := by
  have hstart := hlexeme.startPos_incrementStartPos hlt
  have hevent : eventStart (some token.incrementStartPos) q' = q + 1 := hstart
  refine ⟨?_, fun token htoken => ?_, ?_, fun _ => ?_, fun hfinish => absurd hfinish hresult⟩
  · rw [hevent]
    exact Nat.le_succ q
  · cases htoken
    rw [hstart]
    exact ⟨hlt, hlexeme.toString_incrementStartPos hlt⟩
  · rw [hevent, htext, hlexeme.toString_newlineOf hlt]
  · rw [hevent]
    exact Nat.lt_succ_self q

/-- The part of the text that the tokens add to the event. -/
theorem Extends.makesText (ht : t.WellFormed)
    (hend : ∀ state, SymbolId.tokenEnd.toNat ∉ t.dfa.typeIds state)
    (h : Extends event tokens parsed) (hchain : Chain t src none q tokens opening' q') :
    MakesText src parsed event.toString q q' := by
  induction h generalizing q with
  | outOfData =>
    cases hchain
    refine ⟨Nat.le_refl q', keepsText_none src q', ?_, (by intro h; cases h), (by intro h; cases h)⟩
    show _ = _ ++ src.word q' q'
    rw [Source.word_self, List.append_nil]
  | finish htype =>
    cases hchain with
    | cons hlexeme hrest =>
      cases hrest
      have hq := hlexeme.eq_size_of_tokenEnd hend htype
      have hq' : q' = src.size := Nat.le_antisymm hlexeme.le_size (hq ▸ hlexeme.le)
      refine ⟨hlexeme.le, keepsText_none src q', ?_, (by intro h; cases h), fun _ => hq'⟩
      show _ = _ ++ src.word q q'
      rw [hq, hq', Source.word_self, List.append_nil]
  | newline _ htype =>
    cases hchain with
    | cons hlexeme hrest =>
      cases hrest
      refine ⟨hlexeme.le, keepsText_none src q', ?_, fun _ => ?_, (by intro h; cases h)⟩
      · rw [Event.toString_add, hlexeme.toString_eq]
        rfl
      · exact hlexeme.lt_of_type ht htype (by decide)
  | split htype hne hfound =>
    cases hchain with
    | cons hlexeme hrest =>
      cases hrest
      exact makesText_split hlexeme (hlexeme.lt_of_type ht htype hne) (by decide)
        (Event.toString_add _ _)
  | next _ _ _ _ _ ih =>
    cases hchain with
    | cons hlexeme hrest =>
      have hmakes := ih hrest
      rw [Event.toString_add, hlexeme.toString_eq] at hmakes
      exact hmakes.of_word hlexeme.le

theorem Begins.makesText (ht : t.WellFormed)
    (hend : ∀ state, SymbolId.tokenEnd.toNat ∉ t.dfa.typeIds state)
    (h : Begins t token tokens parsed) (hchain : Chain t src none q tokens opening' q')
    (hfinish : token.firstTypeId = .ok SymbolId.tokenEnd.toNat →
      token.toString = [] ∧ q = src.size) :
    MakesText src parsed token.toString q q' := by
  have hextends : ∀ hasHeader timestamp, Extends ⟨hasHeader, timestamp, [token]⟩ tokens parsed →
      MakesText src parsed token.toString q q' := by
    intro hasHeader timestamp hrest
    have hmakes := hrest.makesText ht hend hchain
    rwa [Event.toString_single] at hmakes
  cases h with
  | finish htype =>
    cases hchain
    obtain ⟨htext, hsize⟩ := hfinish htype
    refine ⟨Nat.le_refl _, keepsText_none src _, ?_, (by intro h; cases h), fun _ => hsize⟩
    rw [htext]
    exact (Source.word_self src _).symm
  | header _ _ hrest => exact hextends _ _ hrest
  | other _ _ _ hrest => exact hextends _ _ hrest

/-- The event of a parse has the text of the token that is kept and that of the
tokens, unless it is the newline in front of a header without text. -/
theorem Parses.makesText (ht : t.WellFormed)
    (hend : ∀ state, SymbolId.tokenEnd.toNat ∉ t.dfa.typeIds state)
    {startOfLog : Option Token} (h : Parses t startOfLog tokens parsed)
    (hchain : Chain t src opening q tokens opening' q')
    (hopening : startOfLog ≠ none → opening = none)
    (hkept : ∀ token, startOfLog = some token → token.firstTypeId ≠ .ok SymbolId.tokenEnd.toNat)
    (hempty : startOfLog = none → ∀ token, tokens.head? = some token → ¬ token.IsEmptyHeader) :
    MakesText src parsed (keptText startOfLog) q q' := by
  cases h with
  | outOfData =>
    cases hchain
    refine ⟨Nat.le_refl _, keepsText_none src _, ?_, (by intro h; cases h), (by intro h; cases h)⟩
    exact (Source.word_self src _).symm
  | kept hbegins =>
    rw [hopening (Option.some_ne_none _)] at hchain
    exact hbegins.makesText ht hend hchain fun htype => absurd htype (hkept _ rfl)
  | @newline token h =>
    cases hchain with
    | cons hlexeme hrest =>
      cases hrest
      have hlt : q < q' := by
        refine Nat.lt_of_le_of_ne hlexeme.le fun heq => ?_
        refine hempty rfl token rfl ⟨h, ?_⟩
        rw [hlexeme.toString_eq, heq, Source.word_self]
      exact makesText_split hlexeme hlt (by decide) (Event.toString_single _ _ _)
  | @read token tokens _ _ hbegins =>
    cases hchain with
    | @cons _ _ _ j _ _ _ hlexeme hrest =>
      have hfinish : token.firstTypeId = .ok SymbolId.tokenEnd.toNat →
          token.toString = [] ∧ j = src.size := by
        intro htype
        have hq := hlexeme.eq_size_of_tokenEnd hend htype
        have hsize : j = src.size := Nat.le_antisymm hlexeme.le_size (hq ▸ hlexeme.le)
        rw [hlexeme.toString_eq, hq, hsize, Source.word_self]
        exact ⟨rfl, rfl⟩
      have hmakes : MakesText src parsed ([] ++ token.toString) j q' :=
        hbegins.makesText ht hend hrest hfinish
      rw [hlexeme.toString_eq] at hmakes
      exact hmakes.of_word hlexeme.le

end Texts

end LogSurgeon
