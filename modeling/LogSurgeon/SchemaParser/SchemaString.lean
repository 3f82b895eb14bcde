import LogSurgeon.Lib.Grammar
import LogSurgeon.ScannerFrame

/-!
# Parsing a schema string

`Lalr1Parser` is the shift-reduce parser of `Lalr1Parser.tpp`, and
`readSchemaString` the reader that `try_schema_string` hands to it.

* The position in the string is a local variable of the reader, so every call
  starts at the first character.
* A reduction by a production with a semantic rule marks the text before the
  next token as consumed, which lets the loop read again.
* What a semantic rule computes is left out: a nonterminal keeps its symbols.
* `Run` says what the loop of `parse` may have read, and `ParsedAsWritten` that
  it reads the string once, and then its end.
-/

namespace LogSurgeon

open Lib

/-! ## The parser -/

/-- An entry of `m_actions`. -/
inductive Action where
  | accepting (isAccepting : Bool)
  | shift (itemSet : Nat)
  | reduce (production : Nat)

/-- The productions and the item sets. -/
structure ParseTables where
  productions : Nat → Production Nat
  hasSemanticRule : Nat → Bool
  rootItemSet : Nat
  actions : Nat → Nat → Action

inductive MatchedSymbol where
  | token (token : Token)
  | nonTerminal (production : Nat) (symbols : List MatchedSymbol)

structure Lalr1Parser where
  lexer : Lexer
  inputBuffer : ParserInputBuffer
  nextToken : Option Token := none
  parseStackStates : List Nat := []
  parseStackMatches : List MatchedSymbol := []

namespace Lalr1Parser

/-- The start of `parse`. -/
def reset (tables : ParseTables) (p : Lalr1Parser) : Lalr1Parser where
  lexer := p.lexer.reset
  inputBuffer := p.inputBuffer.reset
  parseStackStates := [tables.rootItemSet]

def scanner (p : Lalr1Parser) : Scanner := { lexer := p.lexer, input := p.inputBuffer }

def getNextSymbol (t : LexerTables) (fuel : Nat) (p : Lalr1Parser) :
    Except Fault (Lalr1Parser × Token) := do
  match p.nextToken with
  | none =>
    match ← p.scanner.scan t fuel with
    | (s, .ok token) => return ({ p with lexer := s.lexer, inputBuffer := s.input }, token)
    | (_, .error _) => .error .thrown
  | some token => return ({ p with nextToken := none }, token)

/-- The text before the next token is consumed. -/
def consumeBefore (nextToken : Token) (input : ParserInputBuffer) : ParserInputBuffer :=
  input.setConsumedPos
    (if nextToken.startPos = 0 then input.storage.size - 1 else nextToken.startPos - 1)

def reduce (tables : ParseTables) (nextToken : Token) (production : Nat) (p : Lalr1Parser) :
    Except Fault Lalr1Parser := do
  let n := (tables.productions production).body.length
  let states := p.parseStackStates.drop n
  let inputBuffer :=
    if tables.hasSemanticRule production then consumeBefore nextToken p.inputBuffer
    else p.inputBuffer
  let curr ← derefOr .nullPointer states.head?
  match tables.actions curr (tables.productions production).head with
  | .shift itemSet =>
    return { p with
      inputBuffer := inputBuffer
      nextToken := some nextToken
      parseStackStates := itemSet :: states
      parseStackMatches :=
        .nonTerminal production (p.parseStackMatches.take n).reverse :: p.parseStackMatches.drop n }
  | _ => .error .thrown

/-- Whether the symbol has an action, and whether that is to accept. -/
def parseSymbol (tables : ParseTables) (typeId : Nat) (nextToken : Token) (p : Lalr1Parser) :
    Except Fault (Lalr1Parser × Bool × Bool) := do
  let curr ← derefOr .nullPointer p.parseStackStates.head?
  match tables.actions curr typeId with
  | .accepting isAccepting => return (p, isAccepting, isAccepting)
  | .shift itemSet =>
    return ({ p with
      parseStackStates := itemSet :: p.parseStackStates
      parseStackMatches := .token nextToken :: p.parseStackMatches }, true, false)
  | .reduce production => return (← p.reduce tables nextToken production, true, false)

/-- Whether the loop of `parse` ends, and whether the input is accepted. -/
def parseAdvance (tables : ParseTables) (nextToken : Token) (p : Lalr1Parser) :
    List Nat → Except Fault (Lalr1Parser × Bool × Bool)
  | [] =>
    return ({ p with parseStackMatches := .token nextToken :: p.parseStackMatches }, true, false)
  | typeId :: typeIds => do
    match ← p.parseSymbol tables typeId nextToken with
    | (p, true, accept) => return (p, accept, accept)
    | (p, false, _) => p.parseAdvance tables nextToken typeIds

/-- The body of the loop of `parse` behind the read. -/
def advance (t : LexerTables) (tables : ParseTables) (fuel : Nat) (p : Lalr1Parser) :
    Except Fault (Lalr1Parser × Bool × Bool) := do
  let (p, token) ← p.getNextSymbol t fuel
  let typeIds ← derefOr .nullPointer token.typeIds
  p.parseAdvance tables token typeIds

/-! ### What an iteration leaves as it is -/

/-- What is read of the input stays in the storage, and the lexer stays in it. -/
structure Keeps (p p' : Lalr1Parser) : Prop where
  size : p'.inputBuffer.storage.size = p.inputBuffer.storage.size
  bytes : p'.inputBuffer.storage.getActiveBuffer = p.inputBuffer.storage.getActiveBuffer
  finished : p'.inputBuffer.finishedReadingInput = p.inputBuffer.finishedReadingInput
  posLastReadChar : p'.inputBuffer.posLastReadChar = p.inputBuffer.posLastReadChar
  within : p.scanner.Within → p'.scanner.Within

theorem Keeps.refl (p : Lalr1Parser) : p.Keeps p := ⟨rfl, rfl, rfl, rfl, id⟩

theorem Keeps.trans {p p' p'' : Lalr1Parser} (h : p.Keeps p') (h' : p'.Keeps p'') : p.Keeps p'' :=
  ⟨h'.size.trans h.size, h'.bytes.trans h.bytes, h'.finished.trans h.finished,
    h'.posLastReadChar.trans h.posLastReadChar, h'.within ∘ h.within⟩

variable {t : LexerTables} {tables : ParseTables} {fuel : Nat} {token : Token} {p p' : Lalr1Parser}

theorem getNextSymbol_keeps (hp : p.scanner.Within)
    (h : p.getNextSymbol t fuel = .ok (p', token)) : p.Keeps p' := by
  unfold getNextSymbol at h
  split at h
  · obtain ⟨⟨s, result⟩, hscan, h⟩ := exists_of_bind_eq_ok h
    obtain ⟨hframe, -⟩ := Scanner.scan_frame hp hscan
    cases result with
    | error err => cases h
    | ok token' =>
      cases h
      exact ⟨hframe.input.size, hframe.input.bytes, hframe.input.finished,
        hframe.input.posLastReadChar, fun _ => hframe.within⟩
  · cases h
    exact ⟨rfl, rfl, rfl, rfl, id⟩

theorem reduce_keeps {production : Nat} (h : p.reduce tables token production = .ok p') :
    p.Keeps p' := by
  obtain ⟨curr, -, h⟩ := exists_of_bind_eq_ok h
  split at h
  · cases h
    cases hrule : tables.hasSemanticRule production with
    | true =>
      exact ⟨rfl, rfl, rfl, rfl, fun hp =>
        ⟨hp.pos, hp.startPos, hp.lastMatchPos, hp.matchPos, hp.firstDelimiterPos⟩⟩
    | false => exact ⟨rfl, rfl, rfl, rfl, id⟩
  · cases h

theorem parseSymbol_keeps {typeId : Nat} {ret accept : Bool}
    (h : p.parseSymbol tables typeId token = .ok (p', ret, accept)) : p.Keeps p' := by
  obtain ⟨curr, -, h⟩ := exists_of_bind_eq_ok h
  split at h
  · cases h
    exact .refl p
  · cases h
    exact ⟨rfl, rfl, rfl, rfl, id⟩
  · obtain ⟨p₁, hp₁, h⟩ := exists_of_bind_eq_ok h
    cases h
    exact reduce_keeps hp₁

theorem parseAdvance_keeps {typeIds : List Nat} {ret accept : Bool}
    (h : p.parseAdvance tables token typeIds = .ok (p', ret, accept)) : p.Keeps p' := by
  induction typeIds generalizing p with
  | nil =>
    cases h
    exact ⟨rfl, rfl, rfl, rfl, id⟩
  | cons typeId typeIds ih =>
    obtain ⟨⟨p₁, ret₁, accept₁⟩, hp₁, h⟩ := exists_of_bind_eq_ok h
    have hkeeps := parseSymbol_keeps hp₁
    cases ret₁ with
    | true =>
      cases h
      exact hkeeps
    | false => exact hkeeps.trans (ih h)

theorem advance_keeps (hp : p.scanner.Within) {ret accept : Bool}
    (h : p.advance t tables fuel = .ok (p', ret, accept)) : p.Keeps p' := by
  obtain ⟨⟨p₁, token⟩, hp₁, h⟩ := exists_of_bind_eq_ok h
  obtain ⟨typeIds, -, h⟩ := exists_of_bind_eq_ok h
  exact (getNextSymbol_keeps hp hp₁).trans (parseAdvance_keeps h)

end Lalr1Parser

/-! ## The reader -/

namespace SchemaParser

/-- One call of the reader. -/
def readSchemaString (schemaString : List UInt8) (count : Nat) : Except ErrorCode (List UInt8) :=
  let unparsedStringPos := 0
  let count :=
    if unparsedStringPos + count > schemaString.length then
      schemaString.length - unparsedStringPos
    else count
  if count = 0 then .error .endOfFile
  else .ok (subspan (fun i => schemaString.getD (unparsedStringPos + i) 0) 0 count)

/-- The input buffer reads with the reader, which keeps nothing from one call to
the next. -/
def schemaStringReader (schemaString : List UInt8) : Reader := .ofBytes schemaString

theorem readSchemaString_eq (schemaString : List UInt8) {count : Nat} (hcount : 0 < count) :
    readSchemaString schemaString count =
      if schemaString = [] then .error .endOfFile else .ok (schemaString.take count) := by
  have hread : (if 0 + count > schemaString.length then schemaString.length - 0 else count) =
      min count schemaString.length := by
    split <;> omega
  have htake : subspan (fun i => schemaString.getD (0 + i) 0) 0 (min count schemaString.length) =
      schemaString.take count := by
    apply List.ext_getElem
    · simp
    · intro i hi hi'
      rw [length_subspan] at hi
      have hlt : i < schemaString.length := by omega
      simp [subspan, hlt]
  unfold readSchemaString
  dsimp only
  rw [hread, htake]
  by_cases hnil : schemaString = []
  · rw [if_pos hnil, if_pos (by simp [hnil])]
  · have hlength := List.length_pos_of_ne_nil hnil
    rw [if_neg hnil, if_neg (by omega)]

/-- A call of the reader is the first read of a new one. -/
theorem fst_read_schemaStringReader (schemaString : List UInt8) {count : Nat} (hcount : 0 < count) :
    ((schemaStringReader schemaString).read count).1 = readSchemaString schemaString count := by
  rw [readSchemaString_eq schemaString hcount]
  unfold schemaStringReader Reader.ofBytes
  split <;> rfl

/-! ## The reads of a run -/

/-- The bytes that a call of the reader for half of the storage delivers. -/
def deliveredTo (schemaString : List UInt8) (input : ParserInputBuffer) : List UInt8 :=
  match readSchemaString schemaString (input.storage.size / 2) with
  | .ok bytes => bytes
  | .error _ => []

/-- The reads of `read_if_safe`: one, or none. -/
def readsIfSafe (schemaString : List UInt8) (input : ParserInputBuffer) : List (List UInt8) :=
  if input.ReadIsSafe then [deliveredTo schemaString input] else []

def read (schemaString : List UInt8) (input : ParserInputBuffer) : ParserInputBuffer :=
  (input.read (schemaStringReader schemaString)).2.1

/-- The parse goes on whatever `read_if_safe` returns. -/
def readIfSafe (schemaString : List UInt8) (p : Lalr1Parser) : Lalr1Parser :=
  { p with inputBuffer := (p.inputBuffer.readIfSafe (schemaStringReader schemaString)).2.1 }

section Run

variable (t : LexerTables) (tables : ParseTables) (fuel : Nat) (schemaString : List UInt8)

/-- The loop of `parse` is behind a read of the string, and has made the reads. -/
inductive Run : List (List UInt8) → Lalr1Parser → Prop where
  | start (p : Lalr1Parser) :
      Run (readsIfSafe schemaString (p.reset tables).inputBuffer)
        (readIfSafe schemaString (p.reset tables))
  | next {reads : List (List UInt8)} {p p' : Lalr1Parser} {accept : Bool} : Run reads p →
      p.advance t tables fuel = .ok (p', false, accept) →
      Run (reads ++ readsIfSafe schemaString p'.inputBuffer) (readIfSafe schemaString p')

/-- What the reads up to the end of the input deliver, if it is reached after
the number of them. -/
def remaining : Nat → ParserInputBuffer → Option (List UInt8)
  | 0, input => if input.finishedReadingInput then some [] else none
  | n + 1, input =>
    if input.finishedReadingInput then some []
    else (remaining n (read schemaString input)).map (deliveredTo schemaString input ++ ·)

/-- Wherever a run is, the reads that it has made and those that are left are
the string, once and in order, and then the input ends.  There is a bound on the
number of reads. -/
structure ParsedAsWritten : Prop where
  complete : ∀ reads p, Run t tables fuel schemaString reads p →
    ∃ n, (remaining schemaString n p.inputBuffer).map (reads.flatten ++ ·) = some schemaString
  bounded : ∃ n, ∀ reads p, Run t tables fuel schemaString reads p → reads.length ≤ n

end Run

/-! ## Short strings and long ones -/

section Length

variable {t : LexerTables} {tables : ParseTables} {fuel : Nat} {schemaString : List UInt8}
  {input : ParserInputBuffer}

/-- A read of a string that does not fill half of the storage delivers all of it
and finishes the input. -/
theorem read_of_length_lt (h : schemaString.length < input.storage.size / 2)
    (hpos : input.posLastReadChar = 0) (hoffset : input.readOffset = 0)
    (hsize : input.storage.size < 2 ^ 32) :
    deliveredTo schemaString input = schemaString ∧
      (read schemaString input).finishedReadingInput = true ∧
      (read schemaString input).storage.size = input.storage.size ∧
      (read schemaString input).storage.pos = input.storage.pos ∧
      (read schemaString input).posLastReadChar = schemaString.length ∧
      ∀ i < schemaString.length,
        schemaString[i]? = some ((read schemaString input).storage.getValue i) := by
  have hdelivered : deliveredTo schemaString input = schemaString := by
    unfold deliveredTo
    rw [readSchemaString_eq schemaString (by omega)]
    by_cases hnil : schemaString = []
    · rw [if_pos hnil, hnil]
    · rw [if_neg hnil]
      exact List.take_of_length_le h.le
  refine ⟨hdelivered, ?_⟩
  unfold read
  cases hread : input.read (schemaStringReader schemaString) with
  | mk err result =>
    obtain ⟨input', reader'⟩ := result
    have hrest : (schemaStringReader schemaString).rest = schemaString := Reader.rest_ofBytes _
    rcases ParserInputBuffer.read_cases hread with ⟨-, rfl, -, hend⟩ |
      ⟨bytes, -, hreads, hbytes, hle, hsome, hfills⟩
    · obtain rfl : schemaString = [] := hrest.symm.trans hend
      exact ⟨rfl, rfl, rfl, hpos, fun i hi => absurd hi (Nat.not_lt_zero i)⟩
    · rw [hrest] at hbytes
      have hlength : bytes.length ≤ schemaString.length := by
        rw [hbytes, List.length_append]
        omega
      have hnone := (hfills (Reader.fills_ofBytes _)).2 (by omega)
      rw [hnone, List.append_nil] at hbytes
      subst hbytes
      refine ⟨?_, hreads.size, hreads.pos, ?_, fun i hi => ?_⟩
      · show input'.finishedReadingInput = true
        rw [hreads.finished, decide_eq_true h, Bool.or_true]
      · show input'.posLastReadChar = schemaString.length
        rw [hreads.posLastReadChar, hpos]
        unfold ParserInputBuffer.advanceLastRead
        rw [Nat.zero_add, toUInt32_of_lt (by omega), if_neg (by omega)]
      · show schemaString[i]? = some (input'.storage.getValue i)
        rw [hreads.getValue, hoffset, if_pos ⟨Nat.zero_le i, by omega⟩, Nat.sub_zero,
          List.getD_eq_getElem?_getD, List.getElem?_eq_getElem hi, Option.getD_some]

/-- A read of a string that fills half of the storage does not finish the
input. -/
theorem read_of_le_length (h : input.storage.size / 2 ≤ schemaString.length)
    (hhalf : 0 < input.storage.size / 2) :
    (read schemaString input).finishedReadingInput = input.finishedReadingInput ∧
      (read schemaString input).storage.size = input.storage.size := by
  unfold read
  cases hread : input.read (schemaStringReader schemaString) with
  | mk err result =>
    obtain ⟨input', reader'⟩ := result
    have hrest : (schemaStringReader schemaString).rest = schemaString := Reader.rest_ofBytes _
    rcases ParserInputBuffer.read_cases hread with ⟨-, -, -, hend⟩ |
      ⟨bytes, -, hreads, hbytes, hle, hsome, hfills⟩
    · rw [hrest.symm.trans hend] at h
      exact absurd h (Nat.not_le.2 hhalf)
    · have hfull : ¬ bytes.length < input.storage.size / 2 := by
        intro hshort
        rw [hrest, (hfills (Reader.fills_ofBytes _)).2 hshort, List.append_nil] at hbytes
        rw [hbytes] at h
        exact Nat.not_le.2 hshort h
      refine ⟨?_, hreads.size⟩
      show input'.finishedReadingInput = input.finishedReadingInput
      rw [hreads.finished, decide_eq_false hfull, Bool.or_false]

/-- So the reads of a long string never come to an end. -/
theorem remaining_of_le_length (h : input.storage.size / 2 ≤ schemaString.length)
    (hhalf : 0 < input.storage.size / 2) (hfinished : input.finishedReadingInput = false)
    (n : Nat) : remaining schemaString n input = none := by
  induction n generalizing input with
  | zero =>
    unfold remaining
    rw [hfinished]
    rfl
  | succ n ih =>
    obtain ⟨hkept, hsize⟩ := read_of_le_length h hhalf
    have hlater : remaining schemaString n (read schemaString input) = none :=
      ih (by rwa [hsize]) (by rwa [hsize]) (hkept.trans hfinished)
    unfold remaining
    rw [hfinished, hlater]
    rfl

/-- The input is the whole string. -/
structure HoldsString (schemaString : List UInt8) (p : Lalr1Parser) : Prop where
  finished : p.inputBuffer.finishedReadingInput = true
  posLastReadChar : p.inputBuffer.posLastReadChar = schemaString.length
  bytes : ∀ i < schemaString.length,
    schemaString[i]? = some (p.inputBuffer.storage.getValue i)
  within : p.scanner.Within

theorem HoldsString.keeps {p p' : Lalr1Parser} (h : HoldsString schemaString p)
    (hkeeps : p.Keeps p') : HoldsString schemaString p' := by
  refine ⟨hkeeps.finished.trans h.finished, hkeeps.posLastReadChar.trans h.posLastReadChar,
    fun i hi => ?_, hkeeps.within h.within⟩
  have hbyte := h.bytes i hi
  unfold Buffer.getValue at hbyte ⊢
  rw [hkeeps.bytes]
  exact hbyte

theorem HoldsString.readIfSafe {p : Lalr1Parser} (h : HoldsString schemaString p) :
    readsIfSafe schemaString p.inputBuffer = [] ∧
      SchemaParser.readIfSafe schemaString p = p := by
  have hsafe : ¬ p.inputBuffer.ReadIsSafe := fun hsafe => hsafe.1 h.finished
  refine ⟨if_neg hsafe, ?_⟩
  unfold SchemaParser.readIfSafe ParserInputBuffer.readIfSafe
  rw [if_neg hsafe]

/-- The first read is safe. -/
theorem readIsSafe_reset (tables : ParseTables) (p : Lalr1Parser) :
    (p.reset tables).inputBuffer.ReadIsSafe :=
  ⟨Bool.false_ne_true, Or.inl ⟨Bool.false_ne_true, by show 47999 > 48000 / 2; decide⟩⟩

theorem size_reset (tables : ParseTables) (p : Lalr1Parser) :
    (p.reset tables).inputBuffer.storage.size = cStaticByteBuffSize := rfl

theorem readIfSafe_reset (tables : ParseTables) (schemaString : List UInt8) (p : Lalr1Parser) :
    readsIfSafe schemaString (p.reset tables).inputBuffer =
        [deliveredTo schemaString (p.reset tables).inputBuffer] ∧
      (readIfSafe schemaString (p.reset tables)).inputBuffer =
        read schemaString (p.reset tables).inputBuffer := by
  refine ⟨if_pos (readIsSafe_reset tables p), ?_⟩
  unfold readIfSafe ParserInputBuffer.readIfSafe read
  rw [if_pos (readIsSafe_reset tables p)]

/-- The lexer starts at the first position of the storage. -/
theorem within_readIfSafe_reset (tables : ParseTables) (schemaString : List UInt8)
    (p : Lalr1Parser) : (readIfSafe schemaString (p.reset tables)).scanner.Within := by
  have hkeeps : ∀ input' : ParserInputBuffer,
      (readIfSafe schemaString (p.reset tables)).inputBuffer = input' →
      input'.storage.size = cStaticByteBuffSize ∧ input'.storage.pos = 0 := by
    intro input' hinput
    unfold readIfSafe at hinput
    dsimp only at hinput
    cases hread : (p.reset tables).inputBuffer.readIfSafe (schemaStringReader schemaString) with
    | mk err result =>
      rw [hread] at hinput
      subst hinput
      obtain ⟨hsize, hpos, -⟩ := ParserInputBuffer.readIfSafe_keeps hread
      exact ⟨hsize, hpos⟩
  obtain ⟨hsize, hpos⟩ := hkeeps _ rfl
  have hstart : 0 < (readIfSafe schemaString (p.reset tables)).inputBuffer.storage.size := by
    rw [hsize]
    decide
  refine ⟨?_, hstart, hstart, hstart, fun f hf => by cases hf⟩
  exact hpos.trans_lt hstart

/-- A run on a short string reads it once and then no more. -/
theorem Run.of_length_lt (h : schemaString.length < cStaticByteBuffSize / 2)
    {reads : List (List UInt8)} {p : Lalr1Parser} (hrun : Run t tables fuel schemaString reads p) :
    reads = [schemaString] ∧ HoldsString schemaString p := by
  induction hrun with
  | start p =>
    obtain ⟨hreads, hinput⟩ := readIfSafe_reset tables schemaString p
    have hbound : (p.reset tables).inputBuffer.storage.size < 2 ^ 32 := by
      rw [size_reset]
      decide
    obtain ⟨hdelivered, hfinished, -, -, hlast, hbytes⟩ := read_of_length_lt h rfl rfl hbound
    rw [← hinput] at hfinished hlast hbytes
    rw [hreads, hdelivered]
    exact ⟨rfl, hfinished, hlast, hbytes, within_readIfSafe_reset tables schemaString p⟩
  | next hrun hadvance ih =>
    obtain ⟨hreads, hholds⟩ := ih
    have hholds' := hholds.keeps (Lalr1Parser.advance_keeps hholds.within hadvance)
    obtain ⟨hnone, hsame⟩ := hholds'.readIfSafe
    rw [hnone, hsame, List.append_nil]
    exact ⟨hreads, hholds'⟩

/-- Behind the first read of a long string the input never ends. -/
theorem not_parsedAsWritten_of_le (h : cStaticByteBuffSize / 2 ≤ schemaString.length) :
    ¬ ParsedAsWritten t tables fuel schemaString := by
  intro hparsed
  obtain ⟨p⟩ : Nonempty Lalr1Parser := ⟨⟨.new t, .new, none, [], []⟩⟩
  obtain ⟨n, hn⟩ := hparsed.complete _ _ (.start p)
  have hhalf : 0 < (p.reset tables).inputBuffer.storage.size / 2 := by
    rw [size_reset]
    decide
  have hlong : (p.reset tables).inputBuffer.storage.size / 2 ≤ schemaString.length := h
  obtain ⟨hfinished, hsize⟩ := read_of_le_length hlong hhalf
  rw [(readIfSafe_reset tables schemaString p).2,
    remaining_of_le_length (by rwa [hsize]) (by rwa [hsize]) (hfinished.trans rfl)] at hn
  cases hn

end Length

/-- A schema string is parsed as written if and only if it does not fill half of
the storage. -/
theorem parsedAsWritten_iff (t : LexerTables) (tables : ParseTables) (fuel : Nat)
    (schemaString : List UInt8) :
    ParsedAsWritten t tables fuel schemaString ↔
      schemaString.length < cStaticByteBuffSize / 2 := by
  constructor
  · intro h
    by_contra hlong
    exact not_parsedAsWritten_of_le (Nat.not_lt.1 hlong) h
  · intro h
    refine ⟨fun reads p hrun => ⟨0, ?_⟩, 1, fun reads p hrun => ?_⟩
    · obtain ⟨rfl, hholds⟩ := hrun.of_length_lt h
      unfold remaining
      rw [if_pos hholds.finished]
      simp
    · obtain ⟨rfl, -⟩ := hrun.of_length_lt h
      exact le_rfl

/-- A schema with 6000 variables `a:b`. -/
def longSchema : List UInt8 := (List.replicate 6000 [97, 58, 98, 10]).flatten

theorem length_longSchema : longSchema.length = 24000 := by
  unfold longSchema
  rw [List.length_flatten, List.map_replicate, List.sum_replicate]
  rfl

/-- No lexer and no parse tables make the reads of it come to an end. -/
theorem not_parsedAsWritten :
    ¬ ∃ t tables fuel, ParsedAsWritten t tables fuel longSchema := by
  intro ⟨t, tables, fuel, h⟩
  have hlong : cStaticByteBuffSize / 2 ≤ longSchema.length := by
    rw [length_longSchema]
    exact Nat.le_refl 24000
  exact not_parsedAsWritten_of_le hlong h

end SchemaParser

end LogSurgeon
