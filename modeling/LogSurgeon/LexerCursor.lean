import LogSurgeon.LexerTables

/-!
# The lexer as a cursor on a text

On a text that one buffer holds, `Scanner.scan` is a walk of positions.  A
`Cursor` has the positions, the state of the DFA and the pending match of the
lexer, without its registers and without the buffer.

* `Cursor.step` is the body of the loop.  It cannot fail.
* `step_cases`, `step_ok` and `step_error` say all that a step does.
* `Loops` and `Scans` are the loop and a call of `scan`, without a number of
  steps.  The loop ends since `stepsLeft` decreases.
-/

namespace LogSurgeon

/-! ## Texts -/

/-- A text, and whether more of it follows. -/
structure Source where
  bytes : Nat → UInt8
  size : Nat
  finished : Bool

namespace Source

/-- The character that is read at a position. -/
def charAt (src : Source) (p : Nat) : UInt8 := if p < src.size then src.bytes p else cCharEOF

theorem charAt_of_lt {src : Source} {p : Nat} (h : p < src.size) : src.charAt p = src.bytes p :=
  if_pos h

theorem charAt_size (src : Source) : src.charAt src.size = cCharEOF := if_neg (Nat.lt_irrefl _)

end Source

/-! ## Cursors -/

/-- What a token covers. -/
structure Span where
  startPos : Nat
  endPos : Nat
  lineNum : Nat
  typeIds : List Nat
deriving DecidableEq, Repr

structure Cursor where
  pos : Nat
  startPos : Nat
  lastMatchPos : Nat
  state : Option Nat
  firstDelimiterPos : Option Nat
  /-- The end and the variables of the match. -/
  matched : Option (Nat × List Nat)
  line : Nat
  matchLine : Nat
  lastMatchLine : Nat
  askedForMoreData : Bool
deriving DecidableEq, Repr

namespace Cursor

/-- The variables of the state. -/
def typeIds (t : LexerTables) (c : Cursor) : List Nat := c.state.elim [] t.dfa.typeIds

/-- The state behind a character. -/
def nextState (t : LexerTables) (c : Cursor) (nextChar : UInt8) : Option Nat :=
  c.state.bind fun p => (t.dfa.transition? p nextChar.toNat).map (·.destState)

def getNextCharacter (src : Source) (c : Cursor) : Cursor :=
  { c with pos := if c.pos < src.size then c.pos + 1 else c.pos }

def noteDelimiter (t : LexerTables) (nextChar : UInt8) (prevByteBufPos : Nat) (c : Cursor) :
    Cursor :=
  if c.firstDelimiterPos = none ∧ t.isDelimiter nextChar.toNat ∧
      prevByteBufPos ≠ c.lastMatchPos then
    { c with firstDelimiterPos := some prevByteBufPos }
  else c

def recordMatch (t : LexerTables) (src : Source) (nextChar : UInt8) (prevByteBufPos : Nat)
    (c : Cursor) : Cursor :=
  if (t.isDelimiter nextChar.toNat ∨ prevByteBufPos = src.size) ∧ c.typeIds t ≠ [] then
    { c with matched := some (prevByteBufPos, c.typeIds t), matchLine := c.line }
  else c

def processChar (t : LexerTables) (nextChar : UInt8) (c : Cursor) : Cursor :=
  { c with state := c.nextState t nextChar }

def countLine (nextChar : UInt8) (c : Cursor) : Cursor :=
  if nextChar = 10 then { c with line := c.line + 1 } else c

def root (t : LexerTables) (c : Cursor) : Cursor := { c with state := some t.dfa.getRoot }

def StartsAtNewline (prevByteBufPos : Nat) (c : Cursor) : Prop :=
  (c.firstDelimiterPos = none ∨ c.firstDelimiterPos = some prevByteBufPos) ∧ c.matched = none

instance (prevByteBufPos : Nat) (c : Cursor) : Decidable (c.StartsAtNewline prevByteBufPos) :=
  inferInstanceAs (Decidable (_ ∧ _))

def startAtNewline (t : LexerTables) (nextChar : UInt8) (prevByteBufPos : Nat) (c : Cursor) :
    Cursor :=
  let c := (c.root t).processChar t nextChar
  { c with
    matched := some (c.pos, c.typeIds t)
    startPos := prevByteBufPos
    matchLine := c.line }

section Fields

variable {t : LexerTables} {src : Source} {nextChar : UInt8} {prevByteBufPos : Nat} {c : Cursor}

@[simp] theorem pos_startAtNewline :
    (c.startAtNewline t nextChar prevByteBufPos).pos = c.pos := rfl

@[simp] theorem startPos_startAtNewline :
    (c.startAtNewline t nextChar prevByteBufPos).startPos = prevByteBufPos := rfl

@[simp] theorem lastMatchPos_startAtNewline :
    (c.startAtNewline t nextChar prevByteBufPos).lastMatchPos = c.lastMatchPos := rfl

@[simp] theorem firstDelimiterPos_startAtNewline :
    (c.startAtNewline t nextChar prevByteBufPos).firstDelimiterPos = c.firstDelimiterPos := rfl

theorem state_startAtNewline :
    (c.startAtNewline t nextChar prevByteBufPos).state = (c.root t).nextState t nextChar := rfl

theorem matched_startAtNewline :
    (c.startAtNewline t nextChar prevByteBufPos).matched =
      some (c.pos, ((c.root t).nextState t nextChar).elim [] t.dfa.typeIds) := rfl

@[simp] theorem pos_noteDelimiter : (c.noteDelimiter t nextChar prevByteBufPos).pos = c.pos := by
  unfold noteDelimiter
  split <;> rfl

@[simp] theorem startPos_noteDelimiter :
    (c.noteDelimiter t nextChar prevByteBufPos).startPos = c.startPos := by
  unfold noteDelimiter
  split <;> rfl

@[simp] theorem lastMatchPos_noteDelimiter :
    (c.noteDelimiter t nextChar prevByteBufPos).lastMatchPos = c.lastMatchPos := by
  unfold noteDelimiter
  split <;> rfl

@[simp] theorem state_noteDelimiter :
    (c.noteDelimiter t nextChar prevByteBufPos).state = c.state := by
  unfold noteDelimiter
  split <;> rfl

@[simp] theorem matched_noteDelimiter :
    (c.noteDelimiter t nextChar prevByteBufPos).matched = c.matched := by
  unfold noteDelimiter
  split <;> rfl

@[simp] theorem askedForMoreData_noteDelimiter :
    (c.noteDelimiter t nextChar prevByteBufPos).askedForMoreData = c.askedForMoreData := by
  unfold noteDelimiter
  split <;> rfl

@[simp] theorem pos_recordMatch : (c.recordMatch t src nextChar prevByteBufPos).pos = c.pos := by
  unfold recordMatch
  split <;> rfl

@[simp] theorem startPos_recordMatch :
    (c.recordMatch t src nextChar prevByteBufPos).startPos = c.startPos := by
  unfold recordMatch
  split <;> rfl

@[simp] theorem lastMatchPos_recordMatch :
    (c.recordMatch t src nextChar prevByteBufPos).lastMatchPos = c.lastMatchPos := by
  unfold recordMatch
  split <;> rfl

@[simp] theorem state_recordMatch :
    (c.recordMatch t src nextChar prevByteBufPos).state = c.state := by
  unfold recordMatch
  split <;> rfl

@[simp] theorem firstDelimiterPos_recordMatch :
    (c.recordMatch t src nextChar prevByteBufPos).firstDelimiterPos = c.firstDelimiterPos := by
  unfold recordMatch
  split <;> rfl

@[simp] theorem askedForMoreData_recordMatch :
    (c.recordMatch t src nextChar prevByteBufPos).askedForMoreData = c.askedForMoreData := by
  unfold recordMatch
  split <;> rfl

@[simp] theorem pos_countLine : (c.countLine nextChar).pos = c.pos := by
  unfold countLine
  split <;> rfl

@[simp] theorem startPos_countLine : (c.countLine nextChar).startPos = c.startPos := by
  unfold countLine
  split <;> rfl

@[simp] theorem lastMatchPos_countLine : (c.countLine nextChar).lastMatchPos = c.lastMatchPos := by
  unfold countLine
  split <;> rfl

@[simp] theorem state_countLine : (c.countLine nextChar).state = c.state := by
  unfold countLine
  split <;> rfl

@[simp] theorem firstDelimiterPos_countLine :
    (c.countLine nextChar).firstDelimiterPos = c.firstDelimiterPos := by
  unfold countLine
  split <;> rfl

@[simp] theorem matched_countLine : (c.countLine nextChar).matched = c.matched := by
  unfold countLine
  split <;> rfl

@[simp] theorem askedForMoreData_countLine :
    (c.countLine nextChar).askedForMoreData = c.askedForMoreData := by
  unfold countLine
  split <;> rfl

end Fields

/-- The first position from `p` on, of the next `count`, with a delimiter that
starts a variable. -/
def skipTo (t : LexerTables) (src : Source) : Nat → Nat → Nat
  | 0, p => p
  | count + 1, p =>
    if t.isFirstCharOfAVariable (src.bytes p).toNat ∧ t.isDelimiter (src.bytes p).toNat then p
    else skipTo t src count (p + 1)

theorem skipTo_of_lt {t : LexerTables} {src : Source} {p : Nat} (h : p < src.size) :
    skipTo t src (src.size - p) p =
      if t.isFirstCharOfAVariable (src.bytes p).toNat ∧ t.isDelimiter (src.bytes p).toNat then p
      else skipTo t src (src.size - (p + 1)) (p + 1) := by
  obtain ⟨count, hcount⟩ : ∃ count, src.size - p = count + 1 := ⟨src.size - p - 1, by omega⟩
  have hrest : src.size - (p + 1) = count := by omega
  rw [hcount, hrest, skipTo]

/-- The position behind the text that is skipped. -/
structure SkipsTo (t : LexerTables) (src : Source) (p q : Nat) : Prop where
  le : p ≤ q
  le_size : q ≤ src.size
  skipped : ∀ i, p ≤ i → i < q →
    ¬ (t.isFirstCharOfAVariable (src.bytes i).toNat ∧ t.isDelimiter (src.bytes i).toNat)
  stops : q < src.size →
    t.isFirstCharOfAVariable (src.bytes q).toNat ∧ t.isDelimiter (src.bytes q).toNat

theorem skipTo_spec (t : LexerTables) {src : Source} {p : Nat} (h : p ≤ src.size) :
    SkipsTo t src p (skipTo t src (src.size - p) p) := by
  generalize hcount : src.size - p = count
  induction count generalizing p with
  | zero =>
    obtain rfl : p = src.size := by omega
    exact ⟨Nat.le_refl _, Nat.le_refl _, fun i hle hlt => absurd hle (not_le.2 hlt),
      fun hlt => absurd hlt (Nat.lt_irrefl _)⟩
  | succ count ih =>
    rw [skipTo]
    split
    · rename_i hstop
      exact ⟨Nat.le_refl _, h, fun i hle hlt => absurd hle (not_le.2 hlt), fun _ => hstop⟩
    · rename_i hskip
      have hrest := ih (p := p + 1) (by omega) (by omega)
      refine ⟨(Nat.le_succ p).trans hrest.le, hrest.le_size, fun i hle hlt => ?_, hrest.stops⟩
      rcases Nat.lt_or_eq_of_le hle with hlt' | rfl
      · exact hrest.skipped i hlt' hlt
      · exact hskip

theorem skipTo_size (t : LexerTables) (src : Source) :
    skipTo t src (src.size - src.size) src.size = src.size := by
  rw [Nat.sub_self, skipTo]

/-- What a step delivers. -/
abbrev Result := Except ErrorCode Span

def releaseMatch (c : Cursor) (matchPos : Nat) (typeIds : List Nat) : Cursor × Span :=
  ({ c with
      firstDelimiterPos := none
      matched := none
      lastMatchPos := matchPos
      lastMatchLine := c.matchLine },
    ⟨c.startPos, matchPos, c.matchLine, typeIds⟩)

def releaseStaticText (c : Cursor) (firstDelimiterPos : Nat) : Cursor × Span :=
  ({ c with lastMatchPos := firstDelimiterPos },
    ⟨c.lastMatchPos, firstDelimiterPos, c.lastMatchLine, cTokenUncaughtStringTypes⟩)

def finishMatch (c : Cursor) (matchPos : Nat) (typeIds : List Nat) : Cursor × Span :=
  let c := { c with line := c.matchLine, pos := matchPos }
  if c.lastMatchPos ≠ c.startPos then
    (c, ⟨c.lastMatchPos, c.startPos, c.lastMatchLine, cTokenUncaughtStringTypes⟩)
  else c.releaseMatch matchPos typeIds

def finishInput (c : Cursor) : Cursor × Span :=
  if c.lastMatchPos ≠ c.startPos then
    match c.firstDelimiterPos with
    | some firstDelimiterPos => c.releaseStaticText firstDelimiterPos
    | none =>
      ({ c with matched := some (c.pos, cTokenEndTypes) },
        ⟨c.lastMatchPos, c.startPos, c.lastMatchLine, cTokenUncaughtStringTypes⟩)
  else (c, ⟨c.pos, c.pos, c.line, cTokenEndTypes⟩)

/-- The text before the next variable is skipped. -/
def skip (t : LexerTables) (src : Source) (prevByteBufPos : Nat) (c : Cursor) :
    Cursor × Option Result :=
  let p := skipTo t src (src.size - prevByteBufPos) prevByteBufPos
  if p = src.size ∧ ¬ src.finished then
    ({ c.root t with pos := p, askedForMoreData := true }, some (.error .bufferOutOfBounds))
  else ({ c.root t with pos := p, startPos := p }, none)

def finish (t : LexerTables) (src : Source) (prevByteBufPos : Nat) (c : Cursor) :
    Cursor × Option Result :=
  match c.matched with
  | some (matchPos, typeIds) =>
    let (c, span) := c.finishMatch matchPos typeIds
    (c, some (.ok span))
  | none =>
    if prevByteBufPos = src.size ∧ c.pos = c.startPos then
      let (c, span) := c.finishInput
      (c, some (.ok span))
    else
      match c.firstDelimiterPos with
      | some firstDelimiterPos =>
        let (c, span) := c.releaseStaticText firstDelimiterPos
        (c, some (.ok span))
      | none => c.skip t src prevByteBufPos

/-- The cursor behind the character, before the DFA or the input is looked
at. -/
def readChar (t : LexerTables) (src : Source) (c : Cursor) : Cursor :=
  let nextChar := src.charAt c.pos
  ((((c.getNextCharacter src).noteDelimiter t nextChar c.pos).recordMatch t src nextChar
    c.pos).processChar t nextChar).countLine nextChar

/-- The body of the loop. -/
def step (t : LexerTables) (src : Source) (c : Cursor) : Cursor × Option Result :=
  if c.pos = src.size ∧ ¬ src.finished then
    ({ c with askedForMoreData := true }, some (.error .bufferOutOfBounds))
  else
    let nextChar := src.charAt c.pos
    let c' := c.readChar t src
    if nextChar = 10 ∧ c'.StartsAtNewline c.pos then (c'.startAtNewline t nextChar c.pos, none)
    else if c.pos = src.size ∨ c'.state = none then c'.finish t src c.pos
    else (c', none)

section ReadChar

variable (t : LexerTables) (src : Source) (c : Cursor)

theorem pos_readChar :
    (c.readChar t src).pos = if c.pos < src.size then c.pos + 1 else c.pos := by
  simp [readChar, processChar, getNextCharacter]

@[simp] theorem startPos_readChar : (c.readChar t src).startPos = c.startPos := by
  simp [readChar, processChar, getNextCharacter]

@[simp] theorem lastMatchPos_readChar : (c.readChar t src).lastMatchPos = c.lastMatchPos := by
  simp [readChar, processChar, getNextCharacter]

@[simp] theorem askedForMoreData_readChar :
    (c.readChar t src).askedForMoreData = c.askedForMoreData := by
  simp [readChar, processChar, getNextCharacter]

theorem state_readChar : (c.readChar t src).state = c.nextState t (src.charAt c.pos) := by
  simp [readChar, processChar, getNextCharacter, nextState]

theorem firstDelimiterPos_readChar :
    (c.readChar t src).firstDelimiterPos =
      if c.firstDelimiterPos = none ∧ t.isDelimiter (src.charAt c.pos).toNat ∧
        c.pos ≠ c.lastMatchPos then some c.pos else c.firstDelimiterPos := by
  simp only [readChar, processChar, firstDelimiterPos_countLine, firstDelimiterPos_recordMatch]
  unfold noteDelimiter
  split <;> rename_i h
  · exact (if_pos h).symm
  · exact (if_neg h).symm

theorem matched_readChar :
    (c.readChar t src).matched =
      if (t.isDelimiter (src.charAt c.pos).toNat ∨ c.pos = src.size) ∧ c.typeIds t ≠ [] then
        some (c.pos, c.typeIds t)
      else c.matched := by
  have htypes : typeIds t ((c.getNextCharacter src).noteDelimiter t (src.charAt c.pos) c.pos) =
      c.typeIds t := by
    unfold typeIds
    rw [state_noteDelimiter]
    rfl
  simp only [readChar, processChar, matched_countLine]
  unfold recordMatch
  rw [htypes]
  split
  · rfl
  · rw [matched_noteDelimiter]
    rfl

end ReadChar

/-- The loop, from a cursor to what it delivers. -/
inductive Loops (t : LexerTables) (src : Source) : Cursor → Cursor → Result → Prop where
  | stop {c c' : Cursor} {result : Result} (h : c.step t src = (c', some result)) :
      Loops t src c c' result
  | next {c c' c'' : Cursor} {result : Result} (h : c.step t src = (c', none))
      (hrest : Loops t src c' c'' result) : Loops t src c c'' result

/-- A bound on the steps that the loop still makes.  A skip leads to a character
that the root reads, so there are at most two steps for each character. -/
def stepsLeft (t : LexerTables) (src : Source) (c : Cursor) : Nat :=
  2 * (src.size - c.pos) +
    if c.pos < src.size then if (c.nextState t (src.charAt c.pos)).isSome then 0 else 1
    else if c.pos = c.startPos then 0 else 1

/-- How a step goes on. -/
theorem step_cases {t : LexerTables} {src : Source} {c c' : Cursor}
    (h : c.step t src = (c', none)) :
    (src.charAt c.pos = 10 ∧ (c.readChar t src).StartsAtNewline c.pos ∧
        c' = (c.readChar t src).startAtNewline t 10 c.pos) ∨
      ¬ (src.charAt c.pos = 10 ∧ (c.readChar t src).StartsAtNewline c.pos) ∧
        (c.pos ≠ src.size ∧ (c.readChar t src).state ≠ none ∧ c' = c.readChar t src ∨
          (c.pos = src.size ∨ (c.readChar t src).state = none) ∧
            (c.readChar t src).matched = none ∧ (c.readChar t src).firstDelimiterPos = none ∧
            ¬ (c.pos = src.size ∧ (c.readChar t src).pos = (c.readChar t src).startPos) ∧
            c' = { (c.readChar t src).root t with
              pos := skipTo t src (src.size - c.pos) c.pos
              startPos := skipTo t src (src.size - c.pos) c.pos }) := by
  unfold step at h
  split at h
  · cases h
  · dsimp only at h
    split at h
    · rename_i hstart
      cases h
      refine Or.inl ⟨hstart.1, hstart.2, ?_⟩
      rw [hstart.1]
    · rename_i hstart
      refine Or.inr ⟨hstart, ?_⟩
      split at h
      · rename_i hend
        refine Or.inr ⟨hend, ?_⟩
        unfold finish at h
        split at h
        · cases h
        · rename_i hmatched
          split at h
          · cases h
          · rename_i hinput
            split at h
            · cases h
            · rename_i hfirst
              unfold skip at h
              dsimp only at h
              split at h
              · cases h
              · cases h
                exact ⟨hmatched, hfirst, hinput, rfl⟩
      · rename_i hgo
        cases h
        exact Or.inl ⟨fun hend => hgo (Or.inl hend), fun hnone => hgo (Or.inr hnone), rfl⟩

/-- How the loop ends with a token, behind the character that was read last. -/
inductive Finishes (src : Source) (prevByteBufPos : Nat) (c : Cursor) : Cursor → Span → Prop where
  /-- The text before the match comes first. -/
  | beforeMatch {matchPos : Nat} {typeIds : List Nat}
      (hmatched : c.matched = some (matchPos, typeIds)) (hne : c.lastMatchPos ≠ c.startPos) :
      Finishes src prevByteBufPos c { c with line := c.matchLine, pos := matchPos }
        ⟨c.lastMatchPos, c.startPos, c.lastMatchLine, cTokenUncaughtStringTypes⟩
  | match {matchPos : Nat} {typeIds : List Nat}
      (hmatched : c.matched = some (matchPos, typeIds)) (heq : c.lastMatchPos = c.startPos) :
      Finishes src prevByteBufPos c
        (({ c with line := c.matchLine, pos := matchPos } : Cursor).releaseMatch matchPos
          typeIds).1
        ⟨c.startPos, matchPos, c.matchLine, typeIds⟩
  /-- The text at the end of the input. -/
  | lastText (hmatched : c.matched = none) (hend : prevByteBufPos = src.size)
      (hpos : c.pos = c.startPos) (hne : c.lastMatchPos ≠ c.startPos)
      (hfirst : c.firstDelimiterPos = none) :
      Finishes src prevByteBufPos c { c with matched := some (c.pos, cTokenEndTypes) }
        ⟨c.lastMatchPos, c.startPos, c.lastMatchLine, cTokenUncaughtStringTypes⟩
  | input (hmatched : c.matched = none) (hend : prevByteBufPos = src.size)
      (hpos : c.pos = c.startPos) (heq : c.lastMatchPos = c.startPos) :
      Finishes src prevByteBufPos c c ⟨c.pos, c.pos, c.line, cTokenEndTypes⟩
  /-- The text before the first delimiter. -/
  | text {f : Nat} (hmatched : c.matched = none) (hfirst : c.firstDelimiterPos = some f)
      (hne : prevByteBufPos = src.size → c.pos = c.startPos → c.lastMatchPos ≠ c.startPos) :
      Finishes src prevByteBufPos c { c with lastMatchPos := f }
        ⟨c.lastMatchPos, f, c.lastMatchLine, cTokenUncaughtStringTypes⟩

/-- A step that delivers no error does not ask for more data. -/
theorem Finishes.askedForMoreData {src : Source} {prevByteBufPos : Nat} {c c' : Cursor}
    {span : Span} (h : Finishes src prevByteBufPos c c' span) :
    c'.askedForMoreData = c.askedForMoreData := by
  cases h <;> rfl

theorem finishes_of_finish {t : LexerTables} {src : Source} {prevByteBufPos : Nat} {c c' : Cursor}
    {span : Span} (h : c.finish t src prevByteBufPos = (c', some (.ok span))) :
    Finishes src prevByteBufPos c c' span := by
  unfold finish at h
  split at h
  · rename_i matchPos typeIds hmatched
    unfold finishMatch at h
    dsimp only at h
    by_cases hne : c.lastMatchPos ≠ c.startPos
    · rw [if_pos hne] at h
      cases h
      exact .beforeMatch hmatched hne
    · rw [if_neg hne] at h
      cases h
      exact .match hmatched (not_not.1 hne)
  · rename_i hmatched
    split at h
    · rename_i hend
      unfold finishInput at h
      by_cases hne : c.lastMatchPos ≠ c.startPos
      · rw [if_pos hne] at h
        cases hfirst : c.firstDelimiterPos with
        | some f =>
          rw [hfirst] at h
          cases h
          exact .text hmatched hfirst fun _ _ => hne
        | none =>
          rw [hfirst] at h
          cases h
          have hfinishes := @Finishes.lastText src _ _ hmatched hend.1 hend.2 hne hfirst
          rw [hfirst] at hfinishes
          exact hfinishes
      · rw [if_neg hne] at h
        cases h
        exact .input hmatched hend.1 hend.2 (not_not.1 hne)
    · rename_i hend
      split at h
      · rename_i f hfirst
        cases h
        exact .text hmatched hfirst fun hsize hpos => absurd ⟨hsize, hpos⟩ hend
      · unfold skip at h
        dsimp only at h
        split at h
        · cases h
        · cases h

/-- How a step ends with a token. -/
theorem step_ok {t : LexerTables} {src : Source} {c c' : Cursor} {span : Span}
    (h : c.step t src = (c', some (.ok span))) :
    ¬ (src.charAt c.pos = 10 ∧ (c.readChar t src).StartsAtNewline c.pos) ∧
      (c.pos = src.size ∨ (c.readChar t src).state = none) ∧
      Finishes src c.pos (c.readChar t src) c' span := by
  unfold step at h
  split at h
  · cases h
  · dsimp only at h
    split at h
    · cases h
    · rename_i hnewline
      split at h
      · rename_i hend
        exact ⟨hnewline, hend, finishes_of_finish h⟩
      · cases h

/-- How a step ends without a token: the text is at its end, and more may
follow. -/
theorem step_error {t : LexerTables} {src : Source} {c c' : Cursor} {err : ErrorCode}
    (h : c.step t src = (c', some (.error err))) :
    err = .bufferOutOfBounds ∧ ¬ src.finished ∧ c'.askedForMoreData = true ∧
      ((c.pos = src.size ∧ c' = { c with askedForMoreData := true }) ∨
        ((c.readChar t src).matched = none ∧ (c.readChar t src).firstDelimiterPos = none ∧
          (c.readChar t src).state = none ∧
          skipTo t src (src.size - c.pos) c.pos = src.size ∧
          c' = { (c.readChar t src).root t with
            pos := src.size
            askedForMoreData := true })) := by
  unfold step at h
  split at h
  · rename_i hend
    cases h
    exact ⟨rfl, hend.2, rfl, Or.inl ⟨hend.1, rfl⟩⟩
  · rename_i hmore
    dsimp only at h
    split at h
    · cases h
    · split at h
      · rename_i hstop
        unfold finish at h
        split at h
        · cases h
        · rename_i hmatched
          split at h
          · cases h
          · split at h
            · cases h
            · rename_i hfirst
              unfold skip at h
              dsimp only at h
              split at h
              · rename_i hask
                cases h
                refine ⟨rfl, hask.2, rfl, Or.inr ⟨hmatched, hfirst, ?_, hask.1, by rw [hask.1]⟩⟩
                exact hstop.resolve_left fun hend => hmore ⟨hend, hask.2⟩
              · cases h
      · cases h

theorem step_progress {t : LexerTables} (ht : t.WellFormed) {src : Source} {c c' : Cursor}
    (hpos : c.pos ≤ src.size) (h : c.step t src = (c', none)) :
    c'.pos ≤ src.size ∧ c'.stepsLeft t src < c.stepsLeft t src := by
  have hbound : ∀ c : Cursor, c.stepsLeft t src ≤ 2 * (src.size - c.pos) + 1 := by
    intro c
    unfold stepsLeft
    split_ifs <;> omega
  have hleast : 2 * (src.size - c.pos) ≤ c.stepsLeft t src := Nat.le_add_right _ _
  have hread := pos_readChar t src c
  rcases step_cases h with ⟨hchar, -, rfl⟩ | ⟨-, ⟨hne, -, rfl⟩ | ⟨hend, -, -, hinput, rfl⟩⟩
  · have hlt : c.pos < src.size := by
      refine Nat.lt_of_le_of_ne hpos fun heq => ?_
      rw [heq, Source.charAt_size] at hchar
      exact absurd hchar (by decide)
    rw [if_pos hlt] at hread
    have hpos' : ((c.readChar t src).startAtNewline t 10 c.pos).pos = c.pos + 1 := hread
    have hsteps := hbound ((c.readChar t src).startAtNewline t 10 c.pos)
    rw [hpos'] at hsteps ⊢
    omega
  · have hlt : c.pos < src.size := Nat.lt_of_le_of_ne hpos hne
    rw [if_pos hlt] at hread
    have hsteps := hbound (c.readChar t src)
    rw [hread] at hsteps ⊢
    omega
  · have hskip := skipTo_spec t hpos
    generalize skipTo t src (src.size - c.pos) c.pos = p at hskip
    refine ⟨hskip.le_size, ?_⟩
    have hafter : ({ (c.readChar t src).root t with pos := p, startPos := p } :
        Cursor).stepsLeft t src = 2 * (src.size - p) := by
      unfold stepsLeft
      dsimp only
      rcases Nat.lt_or_eq_of_le hskip.le_size with hlt | heq
      · have hfirst := (hskip.stops hlt).1
        rw [ht.firstChar] at hfirst
        rw [if_pos hlt, Source.charAt_of_lt hlt, if_pos]
        · rfl
        · show (Option.map _ (t.dfa.transition? t.dfa.getRoot _)).isSome
          rw [Option.isSome_map]
          exact hfirst
      · rw [if_neg (by omega), if_pos rfl]
        rfl
    have hbefore : c.stepsLeft t src = 2 * (src.size - c.pos) + 1 := by
      unfold stepsLeft
      rcases Nat.lt_or_eq_of_le hpos with hlt | heq
      · have hnone : (c.readChar t src).state = none := hend.resolve_left hlt.ne
        rw [state_readChar] at hnone
        rw [if_pos hlt, hnone, if_neg (by simp)]
      · rw [if_neg (by omega), if_neg]
        intro hstart
        refine hinput ⟨heq, ?_⟩
        rw [hread, if_neg (by omega), hstart, startPos_readChar]
    rw [hafter, hbefore]
    have := hskip.le
    omega

theorem Loops.askedForMoreData {t : LexerTables} {src : Source} {c c' : Cursor} {span : Span}
    (h : Loops t src c c' (.ok span)) : c'.askedForMoreData = c.askedForMoreData := by
  generalize hresult : (Except.ok span : Result) = result at h
  induction h with
  | stop h =>
    rw [← hresult] at h
    rw [(step_ok h).2.2.askedForMoreData, askedForMoreData_readChar]
  | @next c c' c'' result h _ ih =>
    rw [ih hresult]
    rcases step_cases h with ⟨-, -, rfl⟩ | ⟨-, ⟨-, -, rfl⟩ | ⟨-, -, -, -, rfl⟩⟩
    · exact askedForMoreData_readChar t src c
    · exact askedForMoreData_readChar t src c
    · exact askedForMoreData_readChar t src c

/-- Rewinds to the first delimiter, and starts there. -/
def begin (t : LexerTables) (c : Cursor) : Cursor :=
  let pos := c.firstDelimiterPos.getD c.pos
  { c.root t with
    pos := pos
    startPos := pos
    matchLine := c.line
    firstDelimiterPos := none }

/-- A call of `scan`. -/
def Scans (t : LexerTables) (src : Source) (c c' : Cursor) (result : Result) : Prop :=
  if c.askedForMoreData then Loops t src { c with askedForMoreData := false } c' result
  else
    match c.matched with
    | some (matchPos, typeIds) =>
      c' = ((c.root t).releaseMatch matchPos typeIds).1 ∧
        result = .ok ((c.root t).releaseMatch matchPos typeIds).2
    | none => Loops t src (c.begin t) c' result

section Scans

variable {t : LexerTables} {src : Source} {c c' : Cursor} {result : Result}

theorem scans_of_asked (h : c.askedForMoreData = true) :
    Scans t src c c' result ↔ Loops t src { c with askedForMoreData := false } c' result := by
  unfold Scans
  rw [if_pos h]

theorem scans_of_matched {matchPos : Nat} {typeIds : List Nat}
    (h : ¬ c.askedForMoreData = true) (hmatched : c.matched = some (matchPos, typeIds)) :
    Scans t src c c' result ↔ c' = ((c.root t).releaseMatch matchPos typeIds).1 ∧
      result = .ok ((c.root t).releaseMatch matchPos typeIds).2 := by
  unfold Scans
  rw [if_neg h, hmatched]

theorem scans_of_begin (h : ¬ c.askedForMoreData = true) (hmatched : c.matched = none) :
    Scans t src c c' result ↔ Loops t src (c.begin t) c' result := by
  unfold Scans
  rw [if_neg h, hmatched]

end Scans

end Cursor

end LogSurgeon
