import LogSurgeon.LexerRefinement
import LogSurgeon.LogParserTokens

/-!
# A text that is read in pieces

When a piece of the text is used up, `scan` asks for more data, and the next
call goes on with the members of the lexer.  A loop that was reading characters
goes on as before.  The loop that skips text does not: `startPos` stays where it
was, and the next call reads the character behind the piece instead of
skipping it.

* `scanPieces` are the calls of `scan`, where every call that asks for more data
  gets the next buffer.
* `ResumesAlike` says when a call behind skipped text goes on as if the text had
  been skipped in one go.
-/

namespace LogSurgeon

/-! ## Pieces -/

/-- The source is the start of the text, or all of it. -/
structure Source.PieceOf (piece full : Source) : Prop where
  size_le : piece.size ≤ full.size
  bytes : ∀ p < piece.size, piece.bytes p = full.bytes p
  finished : piece.finished = true → piece.size = full.size

namespace Cursor

variable {t : LexerTables} {piece full : Source} {c c' : Cursor}

/-- The character at the position is the same in the piece and in the text. -/
def ReadsAlike (piece full : Source) (p : Nat) : Prop :=
  p < piece.size ∨ p = piece.size ∧ piece.size = full.size

theorem ReadsAlike.eq_size_iff {p : Nat} (h : piece.PieceOf full) (hp : ReadsAlike piece full p) :
    p = piece.size ↔ p = full.size := by
  have hle := h.size_le
  unfold ReadsAlike at hp
  omega

theorem ReadsAlike.charAt {p : Nat} (h : piece.PieceOf full) (hp : ReadsAlike piece full p) :
    piece.charAt p = full.charAt p := by
  rcases hp with hlt | ⟨heq, hsize⟩
  · rw [Source.charAt_of_lt hlt, Source.charAt_of_lt (hlt.trans_le h.size_le), h.bytes _ hlt]
  · rw [heq, Source.charAt_size, hsize, Source.charAt_size]

theorem readChar_eq (h : piece.PieceOf full) (hread : ReadsAlike piece full c.pos) :
    c.readChar t piece = c.readChar t full := by
  have hnext : c.getNextCharacter piece = c.getNextCharacter full := by
    have hlt : c.pos < piece.size ↔ c.pos < full.size := by
      have hle := h.size_le
      unfold ReadsAlike at hread
      omega
    unfold getNextCharacter
    simp only [hlt]
  have hrecord : ∀ d : Cursor, ∀ nextChar, d.recordMatch t piece nextChar c.pos =
      d.recordMatch t full nextChar c.pos := by
    intro d nextChar
    unfold recordMatch
    simp only [hread.eq_size_iff h]
  unfold readChar
  simp only [hread.charAt h, hnext, hrecord]

/-- The text that is skipped ends at one position only. -/
theorem SkipsTo.unique {src : Source} {p q q' : Nat} (h : SkipsTo t src p q)
    (h' : SkipsTo t src p q') : q = q' := by
  rcases Nat.lt_trichotomy q q' with hlt | heq | hgt
  · exact absurd (h.stops (hlt.trans_le h'.le_size)) (h'.skipped q h.le hlt)
  · exact heq
  · exact absurd (h'.stops (hgt.trans_le h.le_size)) (h.skipped q' h'.le hgt)

theorem skipTo_eq {src : Source} {p q : Nat} (h : SkipsTo t src p q) :
    skipTo t src (src.size - p) p = q :=
  (skipTo_spec t (h.le.trans h.le_size)).unique h

/-- A skip that ends inside the piece, or at the end of the text, ends there in
the text. -/
theorem SkipsTo.extend {p q : Nat} (h : piece.PieceOf full) (hskip : SkipsTo t piece p q)
    (hread : ReadsAlike piece full q) : SkipsTo t full p q := by
  refine ⟨hskip.le, hskip.le_size.trans h.size_le, fun i hle hi => ?_, fun hlt => ?_⟩
  · have hi' : i < piece.size := hi.trans_le hskip.le_size
    rw [← h.bytes i hi']
    exact hskip.skipped i hle hi
  · have hlt' : q < piece.size := by
      unfold ReadsAlike at hread
      omega
    rw [← h.bytes q hlt']
    exact hskip.stops hlt'

/-- A skip to the end of the piece goes on behind it. -/
theorem SkipsTo.resume {p q : Nat} (h : piece.PieceOf full)
    (hskip : SkipsTo t piece p piece.size) (hrest : SkipsTo t full piece.size q) :
    SkipsTo t full p q := by
  refine ⟨hskip.le.trans hrest.le, hrest.le_size, fun i hle hi => ?_, hrest.stops⟩
  rcases Nat.lt_or_ge i piece.size with hlt | hge
  · rw [← h.bytes i hlt]
    exact hskip.skipped i hle hlt
  · exact hrest.skipped i hge hi

/-- The result is not that more data is needed. -/
def Done (result : Option Result) : Prop := ∀ err, result ≠ some (.error err)

theorem skip_eq (h : piece.PieceOf full) (hfull : full.finished = true) {p : Nat}
    (hp : p ≤ piece.size) (hdone : Done (c.skip t piece p).2) :
    c.skip t piece p = c.skip t full p := by
  have hskip := skipTo_spec t hp
  generalize hq : skipTo t piece (piece.size - p) p = q at hskip
  have hasks : ¬ (q = piece.size ∧ ¬ piece.finished) := by
    intro hasks
    unfold skip at hdone
    rw [hq] at hdone
    dsimp only at hdone
    rw [if_pos hasks] at hdone
    exact hdone _ rfl
  have hread : ReadsAlike piece full q := by
    rcases Nat.lt_or_eq_of_le hskip.le_size with hlt | heq
    · exact .inl hlt
    · exact .inr ⟨heq, h.finished (not_not.1 fun hno => hasks ⟨heq, hno⟩)⟩
  unfold skip
  rw [hq, skipTo_eq (hskip.extend h hread)]
  dsimp only
  rw [if_neg hasks, if_neg (by simp [hfull])]

theorem finish_eq (h : piece.PieceOf full) (hfull : full.finished = true) {p : Nat}
    (hread : ReadsAlike piece full p) (hdone : Done (c.finish t piece p).2) :
    c.finish t piece p = c.finish t full p := by
  have hp : p ≤ piece.size := by
    unfold ReadsAlike at hread
    omega
  unfold finish at hdone ⊢
  cases hmatched : c.matched with
  | some pair => rfl
  | none =>
    rw [hmatched] at hdone
    dsimp only at hdone ⊢
    simp only [hread.eq_size_iff h] at hdone ⊢
    split
    · rfl
    · rename_i hend
      rw [if_neg hend] at hdone
      cases hfirst : c.firstDelimiterPos with
      | some f => rfl
      | none =>
        rw [hfirst] at hdone
        exact skip_eq h hfull hp hdone

/-- What lies behind the piece decides nothing before the piece is used up. -/
theorem step_eq (h : piece.PieceOf full) (hfull : full.finished = true)
    (hpos : c.pos ≤ piece.size) (hdone : Done (c.step t piece).2) :
    c.step t piece = c.step t full := by
  have hasks : ¬ (c.pos = piece.size ∧ ¬ piece.finished) := by
    intro hasks
    unfold step at hdone
    rw [if_pos hasks] at hdone
    exact hdone _ rfl
  have hread : ReadsAlike piece full c.pos := by
    rcases Nat.lt_or_eq_of_le hpos with hlt | heq
    · exact .inl hlt
    · exact .inr ⟨heq, h.finished (not_not.1 fun hno => hasks ⟨heq, hno⟩)⟩
  unfold step at hdone ⊢
  rw [if_neg hasks] at hdone ⊢
  rw [if_neg (by simp [hfull] : ¬ (c.pos = full.size ∧ ¬ full.finished))]
  dsimp only at hdone ⊢
  rw [hread.charAt h, readChar_eq h hread] at hdone ⊢
  simp only [hread.eq_size_iff h] at hdone ⊢
  split
  · rfl
  · rename_i hstart
    rw [if_neg hstart] at hdone
    split
    · rename_i hend
      rw [if_pos hend] at hdone
      exact finish_eq h hfull hread hdone
    · rfl

/-! ## Loops on a piece -/

/-- The last match ends before the start, and the start was read. -/
structure InOrder (c : Cursor) : Prop where
  last_le : c.lastMatchPos ≤ c.startPos
  start_le : c.startPos ≤ c.pos

theorem InOrder.step {src : Source} (h : c.InOrder) (hpos : c.pos ≤ src.size)
    (hstep : c.step t src = (c', none)) : c'.InOrder := by
  have hread : c.pos ≤ (c.readChar t src).pos := by
    rw [pos_readChar]
    split <;> omega
  rcases step_cases hstep with ⟨-, -, rfl⟩ | ⟨-, ⟨-, -, rfl⟩ | ⟨-, -, -, -, rfl⟩⟩
  · refine ⟨?_, ?_⟩
    · rw [lastMatchPos_startAtNewline, lastMatchPos_readChar, startPos_startAtNewline]
      exact h.last_le.trans h.start_le
    · rw [startPos_startAtNewline, pos_startAtNewline]
      exact hread
  · refine ⟨?_, ?_⟩
    · rw [lastMatchPos_readChar, startPos_readChar]
      exact h.last_le
    · rw [startPos_readChar]
      exact h.start_le.trans hread
  · have hlast : (c.readChar t src).lastMatchPos = c.lastMatchPos := lastMatchPos_readChar t src c
    refine ⟨?_, Nat.le_refl _⟩
    show (c.readChar t src).lastMatchPos ≤ skipTo t src (src.size - c.pos) c.pos
    rw [hlast]
    exact (h.last_le.trans h.start_le).trans (skipTo_spec t hpos).le

theorem askedForMoreData_step {src : Source} (hstep : c.step t src = (c', none)) :
    c'.askedForMoreData = c.askedForMoreData := by
  rcases step_cases hstep with ⟨-, -, rfl⟩ | ⟨-, ⟨-, -, rfl⟩ | ⟨-, -, -, -, rfl⟩⟩
  · exact askedForMoreData_readChar t src c
  · exact askedForMoreData_readChar t src c
  · exact askedForMoreData_readChar t src c

/-- A loop that returns a token before the piece is used up goes the same way on
the text. -/
theorem Loops.extend (ht : t.WellFormed) (h : piece.PieceOf full) (hfull : full.finished = true)
    {span : Span} (hloops : Loops t piece c c' (.ok span)) (hpos : c.pos ≤ piece.size) :
    Loops t full c c' (.ok span) := by
  generalize hresult : (Except.ok span : Result) = result at hloops ⊢
  induction hloops with
  | @stop c c' result hstep =>
    have hdone : Done (c.step t piece).2 := by
      intro err herr
      rw [hstep, ← hresult] at herr
      cases herr
    exact .stop ((step_eq h hfull hpos hdone).symm.trans hstep)
  | @next c c' c'' result hstep _ ih =>
    have hdone : Done (c.step t piece).2 := by
      intro err herr
      rw [hstep] at herr
      cases herr
    have hprogress := step_progress ht hpos hstep
    exact .next ((step_eq h hfull hpos hdone).symm.trans hstep) (ih hprogress.1 hresult)

/-- A loop that asks for more data is on its way through the text. -/
theorem Loops.suspends (ht : t.WellFormed) (h : piece.PieceOf full)
    (hfull : full.finished = true) {err : ErrorCode} (hloops : Loops t piece c c' (.error err))
    (hpos : c.pos ≤ piece.size) (horder : c.InOrder) :
    ∃ d, d.step t piece = (c', some (.error err)) ∧ d.pos ≤ piece.size ∧ d.InOrder ∧
      d.askedForMoreData = c.askedForMoreData ∧
      ∀ c'' result, Loops t full d c'' result → Loops t full c c'' result := by
  generalize hresult : (Except.error err : Result) = result at hloops
  induction hloops with
  | @stop c c' result hstep =>
    exact ⟨c, hresult ▸ hstep, hpos, horder, rfl, fun _ _ hrest => hrest⟩
  | @next c c' c'' result hstep _ ih =>
    have hdone : Done (c.step t piece).2 := by
      intro err herr
      rw [hstep] at herr
      cases herr
    have hprogress := step_progress ht hpos hstep
    have hsame := (step_eq h hfull hpos hdone).symm.trans hstep
    obtain ⟨d, hd, hdpos, hdorder, hasked, hpath⟩ :=
      ih hprogress.1 (horder.step hpos hstep) hresult
    refine ⟨d, hd, hdpos, hdorder, hasked.trans (askedForMoreData_step hstep), ?_⟩
    intro e result' hrest
    exact .next hsame (hpath e result' hrest)

/-! ## Behind skipped text -/

/-- The loop that skips text asked for more data: the DFA is at its root, but
the start position is not. -/
structure BehindSkip (t : LexerTables) (c : Cursor) : Prop where
  state : c.state = some t.dfa.getRoot
  matched : c.matched = none
  firstDelimiterPos : c.firstDelimiterPos = none
  start_ne : c.startPos ≠ c.pos

/-- A call that starts to read at `p` goes on as if the text before `p` had been
skipped in one go: the text ends there, a newline starts a token of its own, the
character is skipped, or it is the first one of no variable. -/
def ResumesAlike (t : LexerTables) (src : Source) (p : Nat) : Prop :=
  p = src.size ∨ src.bytes p = 10 ∧ t.isDelimiter 10 ∨
    ¬ t.isFirstCharOfAVariable (src.bytes p).toNat ∧ ¬ t.isDelimiter (src.bytes p).toNat ∨
    Boundary t src p ∧ ∀ m ids, ¬ MatchAt t src none p m ids

def withStart (startPos : Nat) (c : Cursor) : Cursor := { c with startPos := startPos }

/-- The start position plays no part in what is read. -/
theorem readChar_withStart {src : Source} (startPos : Nat) (c : Cursor) :
    (c.withStart startPos).readChar t src = (c.readChar t src).withStart startPos := by
  have hnote : ∀ (d : Cursor) nextChar p, (d.withStart startPos).noteDelimiter t nextChar p =
      (d.noteDelimiter t nextChar p).withStart startPos := by
    intro d nextChar p
    unfold noteDelimiter
    rw [apply_ite (withStart startPos)]
    rfl
  have hrecord : ∀ (d : Cursor) nextChar p, (d.withStart startPos).recordMatch t src nextChar p =
      (d.recordMatch t src nextChar p).withStart startPos := by
    intro d nextChar p
    unfold recordMatch
    rw [apply_ite (withStart startPos)]
    rfl
  have hprocess : ∀ (d : Cursor) nextChar, (d.withStart startPos).processChar t nextChar =
      (d.processChar t nextChar).withStart startPos := fun _ _ => rfl
  have hcount : ∀ (d : Cursor) nextChar, (d.withStart startPos).countLine nextChar =
      (d.countLine nextChar).withStart startPos := by
    intro d nextChar
    unfold countLine
    rw [apply_ite (withStart startPos)]
    rfl
  have hnext : (c.withStart startPos).getNextCharacter src =
      (c.getNextCharacter src).withStart startPos := rfl
  have hpos : (c.withStart startPos).pos = c.pos := rfl
  unfold readChar
  simp only [hnext, hpos, hnote, hrecord, hprocess, hcount]

theorem startsAtNewline_withStart {src : Source} {startPos : Nat} :
    ((c.withStart startPos).readChar t src).StartsAtNewline (c.withStart startPos).pos ↔
      (c.readChar t src).StartsAtNewline c.pos := by
  rw [readChar_withStart]
  exact Iff.rfl

theorem finish_of_lastText {src : Source} {f : Nat} (hmatched : c.matched = none)
    (hpos : c.pos = c.startPos) (hlast : c.lastMatchPos ≠ c.startPos)
    (hfirst : c.firstDelimiterPos = some f) :
    c.finish t src src.size =
      ((c.releaseStaticText f).1, some (.ok (c.releaseStaticText f).2)) := by
  unfold finish finishInput
  rw [hmatched]
  dsimp only
  rw [if_pos ⟨rfl, hpos⟩, if_pos hlast, hfirst]

section Finished

variable {src : Source} (hfinished : src.finished = true)
include hfinished

theorem step_newline (hchar : src.charAt c.pos = 10)
    (hstart : (c.readChar t src).StartsAtNewline c.pos) :
    c.step t src = ((c.readChar t src).startAtNewline t 10 c.pos, none) := by
  unfold step
  rw [if_neg (by simp [hfinished])]
  dsimp only
  rw [if_pos ⟨hchar, hstart⟩, hchar]

variable (hnewline : ¬ (src.charAt c.pos = 10 ∧ (c.readChar t src).StartsAtNewline c.pos))
include hnewline

theorem step_reads (hpos : c.pos ≠ src.size) (hstate : (c.readChar t src).state ≠ none) :
    c.step t src = (c.readChar t src, none) := by
  unfold step
  rw [if_neg (by simp [hfinished])]
  dsimp only
  rw [if_neg hnewline, if_neg (by simp [hpos, hstate])]

theorem step_finish (hend : c.pos = src.size ∨ (c.readChar t src).state = none) :
    c.step t src = (c.readChar t src).finish t src c.pos := by
  unfold step
  rw [if_neg (by simp [hfinished])]
  dsimp only
  rw [if_neg hnewline, if_pos hend]

variable (hend : c.pos = src.size ∨ (c.readChar t src).state = none)
  (hmatched : (c.readChar t src).matched = none)
  (hinput : ¬ (c.pos = src.size ∧ (c.readChar t src).pos = (c.readChar t src).startPos))
include hend hmatched hinput

theorem step_text {f : Nat} (hfirst : (c.readChar t src).firstDelimiterPos = some f) :
    c.step t src = (((c.readChar t src).releaseStaticText f).1,
      some (.ok ((c.readChar t src).releaseStaticText f).2)) := by
  rw [step_finish hfinished hnewline hend]
  unfold finish
  rw [hmatched]
  dsimp only
  rw [if_neg hinput, hfirst]

theorem step_skip (hfirst : (c.readChar t src).firstDelimiterPos = none) {q : Nat}
    (hskip : SkipsTo t src c.pos q) :
    c.step t src = ({ (c.readChar t src).root t with pos := q, startPos := q }, none) := by
  rw [step_finish hfinished hnewline hend]
  unfold finish
  rw [hmatched]
  dsimp only
  rw [if_neg hinput, hfirst]
  unfold skip
  rw [skipTo_eq hskip]
  dsimp only
  rw [if_neg (by simp [hfinished])]

end Finished

/-! ### From the first character of no variable -/

/-- The DFA runs from `k`, where no match starts, so the text ends at `k`. -/
structure RunsInVain (t : LexerTables) (src : Source) (k : Nat) (c : Cursor) : Prop where
  start_le : k ≤ c.pos
  pos_le : c.pos ≤ src.size
  startPos : c.startPos = k
  state : c.state = t.dfa.run t.dfa.getRoot (src.word k c.pos)
  matched : c.matched = none
  asked : c.askedForMoreData = false
  last_lt : c.lastMatchPos < k
  firstDelimiterPos : c.firstDelimiterPos = if c.pos = k then none else some k

/-- Where no match starts, none is found. -/
theorem RunsInVain.matched_readChar {src : Source} {k : Nat} (h : RunsInVain t src k c)
    (hnone : ∀ m ids, ¬ MatchAt t src none k m ids) : (c.readChar t src).matched = none := by
  rw [Cursor.matched_readChar]
  split
  · rename_i hrecord
    obtain ⟨hends, haccepts⟩ := hrecord
    have hmatch := matchAt_of_ends (.root not_opensWithMatch_none) h.start_le h.state h.pos_le hends
      haccepts
    exact absurd hmatch (hnone _ _)
  · exact h.matched

theorem RunsInVain.firstDelimiterPos_readChar {src : Source} {k : Nat}
    (h : RunsInVain t src k c) (hk : k < src.size)
    (hdelimiter : t.isDelimiter (src.bytes k).toNat) :
    (c.readChar t src).firstDelimiterPos = some k := by
  have hlast := h.last_lt
  rw [Cursor.firstDelimiterPos_readChar, h.firstDelimiterPos]
  by_cases hpos : c.pos = k
  · rw [hpos, Source.charAt_of_lt hk, if_pos rfl, if_pos ⟨rfl, hdelimiter, by omega⟩]
  · rw [if_neg hpos, if_neg (by simp)]

/-- Whatever the start position is, the run goes on or the text ends at `k`. -/
theorem RunsInVain.step {src : Source} {k startPos : Nat} (h : RunsInVain t src k c)
    (hfinished : src.finished = true) (hnone : ∀ m ids, ¬ MatchAt t src none k m ids)
    (hk : k < src.size) (hdelimiter : t.isDelimiter (src.bytes k).toNat)
    (hchar : src.bytes k ≠ 10) (hstart : startPos < src.size) :
    (∃ c', c.step t src = (c', none) ∧
        (c.withStart startPos).step t src = (c'.withStart startPos, none) ∧
        RunsInVain t src k c') ∨
      ∃ c' span, c.step t src = (c', some (.ok span)) ∧
        (c.withStart startPos).step t src = (c'.withStart startPos, some (.ok span)) ∧
        c'.matched = none ∧ c'.askedForMoreData = false := by
  have hmatched := h.matched_readChar hnone
  have hfirst := h.firstDelimiterPos_readChar hk hdelimiter
  have hnewline : ¬ (src.charAt c.pos = 10 ∧ (c.readChar t src).StartsAtNewline c.pos) := by
    rintro ⟨hten, hstarts, -⟩
    rw [hfirst] at hstarts
    rcases hstarts with hno | hpos
    · cases hno
    · rw [← Option.some.inj hpos, Source.charAt_of_lt hk] at hten
      exact hchar hten
  have hnewline' : ¬ (src.charAt (c.withStart startPos).pos = 10 ∧
      ((c.withStart startPos).readChar t src).StartsAtNewline (c.withStart startPos).pos) := by
    rw [startsAtNewline_withStart]
    exact hnewline
  have hread := pos_readChar t src c
  have hpos := h.pos_le
  by_cases hend : c.pos = src.size ∨ (c.readChar t src).state = none
  · have hinput : ¬ (c.pos = src.size ∧ (c.readChar t src).pos = (c.readChar t src).startPos) := by
      rw [startPos_readChar, h.startPos, hread]
      split <;> omega
    have hinput' : ¬ ((c.withStart startPos).pos = src.size ∧
        ((c.withStart startPos).readChar t src).pos =
          ((c.withStart startPos).readChar t src).startPos) := by
      rw [readChar_withStart]
      show ¬ (c.pos = src.size ∧ (c.readChar t src).pos = startPos)
      rw [hread]
      split <;> omega
    have hend' : (c.withStart startPos).pos = src.size ∨
        ((c.withStart startPos).readChar t src).state = none := by
      rw [readChar_withStart]
      exact hend
    have hstep := step_text hfinished hnewline hend hmatched hinput hfirst
    have hmatched' : ((c.withStart startPos).readChar t src).matched = none := by
      rw [readChar_withStart]
      exact hmatched
    have hfirst' : ((c.withStart startPos).readChar t src).firstDelimiterPos = some k := by
      rw [readChar_withStart]
      exact hfirst
    have hstep' := step_text hfinished hnewline' hend' hmatched' hinput' hfirst'
    rw [readChar_withStart] at hstep'
    refine .inr ⟨_, _, hstep, hstep', hmatched, ?_⟩
    show (c.readChar t src).askedForMoreData = false
    rw [askedForMoreData_readChar, h.asked]
  · have hne : c.pos ≠ src.size := fun heq => hend (.inl heq)
    have hstate : (c.readChar t src).state ≠ none := fun heq => hend (.inr heq)
    have hstep := step_reads hfinished hnewline hne hstate
    have hstep' := step_reads hfinished hnewline' hne (by rw [readChar_withStart]; exact hstate)
    rw [readChar_withStart] at hstep'
    refine .inl ⟨_, hstep, hstep', ?_⟩
    have hlt : c.pos < src.size := Nat.lt_of_le_of_ne hpos hne
    rw [if_pos hlt] at hread
    have hle := h.start_le
    constructor
    · omega
    · omega
    · rw [startPos_readChar, h.startPos]
    · rw [hread]
      exact run_readChar h.start_le hlt h.state
    · exact hmatched
    · rw [askedForMoreData_readChar, h.asked]
    · rw [lastMatchPos_readChar]
      exact h.last_lt
    · rw [hfirst, if_neg (by omega)]

/-- The loop ends with the same text. -/
theorem RunsInVain.loops {src : Source} {k startPos : Nat} {result : Result}
    (h : RunsInVain t src k c)
    (hfinished : src.finished = true) (hnone : ∀ m ids, ¬ MatchAt t src none k m ids)
    (hk : k < src.size) (hdelimiter : t.isDelimiter (src.bytes k).toNat)
    (hchar : src.bytes k ≠ 10) (hstart : startPos < src.size)
    (hloops : Loops t src (c.withStart startPos) c' result) :
    ∃ d, Loops t src c d result ∧ c' = d.withStart startPos ∧ d.matched = none ∧
      d.askedForMoreData = false := by
  generalize hd : c.withStart startPos = d at hloops
  induction hloops generalizing c with
  | @stop d c' result hstep =>
    subst hd
    rcases h.step hfinished hnone hk hdelimiter hchar hstart with
      ⟨e, -, hstep', -⟩ | ⟨e, span, he, hstep', hmatched, hasked⟩
    · rw [hstep'] at hstep
      cases hstep
    · rw [hstep'] at hstep
      cases hstep
      exact ⟨e, .stop he, rfl, hmatched, hasked⟩
  | @next d c' c'' result hstep _ ih =>
    subst hd
    rcases h.step hfinished hnone hk hdelimiter hchar hstart with
      ⟨e, he, hstep', hnext⟩ | ⟨e, span, -, hstep', -⟩
    · rw [hstep'] at hstep
      cases hstep
      obtain ⟨d, hloops, hrest⟩ := ih hnext rfl
      exact ⟨d, .next he hloops, hrest⟩
    · rw [hstep'] at hstep
      cases hstep

/-- The cursors differ at most in a start position that the next call sets. -/
def SameRest (c d : Cursor) : Prop :=
  d = c ∨ c.matched = none ∧ c.askedForMoreData = false ∧ ∃ startPos, d = c.withStart startPos

/-- A character that is no delimiter and no newline leaves no trace at the root. -/
theorem root_readChar {src : Source} (hstate : c.state = some t.dfa.getRoot)
    (htypes : c.typeIds t = []) (hfirst : (c.readChar t src).firstDelimiterPos = none)
    (hchar : src.charAt c.pos ≠ 10) (q : Nat) :
    ({ (c.readChar t src).root t with pos := q, startPos := q } : Cursor) =
      { c with pos := q, startPos := q } := by
  have hnote : (c.getNextCharacter src).noteDelimiter t (src.charAt c.pos) c.pos =
      c.getNextCharacter src := by
    rw [Cursor.firstDelimiterPos_readChar] at hfirst
    split at hfirst
    · cases hfirst
    · rename_i hno
      exact if_neg hno
  have hrecord : (c.getNextCharacter src).recordMatch t src (src.charAt c.pos) c.pos =
      c.getNextCharacter src := by
    refine if_neg ?_
    intro hrecord
    exact hrecord.2 htypes
  unfold readChar countLine
  dsimp only
  rw [if_neg hchar, hnote, hrecord]
  unfold root processChar getNextCharacter
  rw [← hstate]

namespace BehindSkip

variable {src : Source} {q : Nat} {span : Span}

theorem typeIds_eq_nil (ht : t.WellFormed) (h : BehindSkip t c) : c.typeIds t = [] := by
  unfold Cursor.typeIds
  rw [h.state]
  exact ht.root

theorem matched_readChar (ht : t.WellFormed) (h : BehindSkip t c) :
    (c.readChar t src).matched = none := by
  rw [Cursor.matched_readChar, if_neg, h.matched]
  intro hrecord
  exact hrecord.2 (h.typeIds_eq_nil ht)

/-- The skip ends where a variable may start. -/
theorem eq_of_boundary (hskip : SkipsTo t src c.pos q) (hboundary : Boundary t src c.pos) :
    q = c.pos := by
  by_contra hne
  have hle := hskip.le
  exact hskip.skipped c.pos (Nat.le_refl _) (by omega) hboundary

/-- At the end of the text. -/
theorem resumes_of_end (ht : t.WellFormed) (hfinished : src.finished = true)
    (h : BehindSkip t c) (hasked : c.askedForMoreData = false) (horder : c.InOrder)
    (hskip : SkipsTo t src c.pos q) (hend : c.pos = src.size)
    (hloops : Loops t src c c' (.ok span)) :
    ∃ d, Loops t src { c with pos := q, startPos := q } d (.ok span) ∧ SameRest d c' := by
  have hchar : src.charAt c.pos ≠ 10 := by
    rw [hend, Source.charAt_size]
    decide
  have hnewline : ¬ (src.charAt c.pos = 10 ∧ (c.readChar t src).StartsAtNewline c.pos) :=
    fun hnewline => hchar hnewline.1
  have hread : (c.readChar t src).pos = c.pos := by
    rw [pos_readChar, if_neg (by omega)]
  have hinput : ¬ (c.pos = src.size ∧ (c.readChar t src).pos = (c.readChar t src).startPos) := by
    rw [hread, startPos_readChar]
    exact fun hinput => h.start_ne hinput.2.symm
  have hmatched : (c.readChar t src).matched = none := h.matched_readChar ht
  have hq : q = c.pos := by
    have := hskip.le
    have := hskip.le_size
    omega
  cases hfirst : (c.readChar t src).firstDelimiterPos with
  | none =>
    have hstep := step_skip hfinished hnewline (.inl hend) hmatched hinput hfirst hskip
    rw [root_readChar h.state (h.typeIds_eq_nil ht) hfirst hchar] at hstep
    cases hloops with
    | stop hstep' =>
      rw [hstep] at hstep'
      cases hstep'
    | next hstep' hrest =>
      rw [hstep] at hstep'
      cases hstep'
      exact ⟨c', hrest, .inl rfl⟩
  | some f =>
    have hstep := step_text hfinished hnewline (.inl hend) hmatched hinput hfirst
    have hstep' : (c.withStart c.pos).step t src =
        (((c.readChar t src).releaseStaticText f).1.withStart c.pos,
          some (.ok ((c.readChar t src).releaseStaticText f).2)) := by
      have hlast : (c.readChar t src).lastMatchPos ≠ c.pos := by
        have hle := horder.last_le
        have hle' := horder.start_le
        have hne := h.start_ne
        rw [lastMatchPos_readChar]
        omega
      have hnewline' : ¬ (src.charAt (c.withStart c.pos).pos = 10 ∧
          ((c.withStart c.pos).readChar t src).StartsAtNewline (c.withStart c.pos).pos) := by
        rw [startsAtNewline_withStart]
        exact hnewline
      have hfinish : ((c.readChar t src).withStart c.pos).finish t src src.size =
          (((c.readChar t src).releaseStaticText f).1.withStart c.pos,
            some (.ok ((c.readChar t src).releaseStaticText f).2)) :=
        finish_of_lastText hmatched hread hlast hfirst
      rw [← hend] at hfinish
      rw [step_finish hfinished hnewline' (.inl hend), readChar_withStart]
      exact hfinish
    have hasked' : (c.readChar t src).askedForMoreData = false := by
      rw [askedForMoreData_readChar, hasked]
    subst hq
    cases hloops with
    | stop hstep'' =>
      rw [hstep] at hstep''
      cases hstep''
      exact ⟨_, .stop hstep', .inr ⟨hmatched, hasked', c.startPos, by
        rw [← startPos_readChar t src c]; rfl⟩⟩
    | next hstep'' =>
      rw [hstep] at hstep''
      cases hstep''

/-- At a newline that is a delimiter. -/
theorem resumes_of_newline (ht : t.WellFormed) (hfinished : src.finished = true)
    (h : BehindSkip t c) (hskip : SkipsTo t src c.pos q) (hlt : c.pos < src.size)
    (hchar : src.bytes c.pos = 10) (hdelimiter : t.isDelimiter 10)
    (hloops : Loops t src c c' (.ok span)) :
    Loops t src { c with pos := q, startPos := q } c' (.ok span) := by
  have hboundary : Boundary t src c.pos := by
    obtain ⟨transition, ids, htransition, -⟩ := ht.newline
    refine ⟨?_, by rw [hchar]; exact hdelimiter⟩
    rw [hchar, ht.firstChar]
    have htransition : t.dfa.transition? t.dfa.getRoot (10 : UInt8).toNat = some transition :=
      htransition
    rw [htransition]
    rfl
  have hq := eq_of_boundary hskip hboundary
  have hten : src.charAt c.pos = 10 := by rw [Source.charAt_of_lt hlt, hchar]
  have hstarts : (c.readChar t src).StartsAtNewline c.pos := by
    refine ⟨?_, h.matched_readChar ht⟩
    rw [Cursor.firstDelimiterPos_readChar, h.firstDelimiterPos]
    split
    · exact .inr rfl
    · exact .inl rfl
  have hstep := step_newline hfinished hten hstarts
  have hstep' := step_newline (c := c.withStart c.pos) hfinished hten
    (startsAtNewline_withStart.2 hstarts)
  rw [readChar_withStart] at hstep'
  subst hq
  cases hloops with
  | stop hstep'' =>
    rw [hstep] at hstep''
    cases hstep''
  | next hstep'' hrest =>
    rw [hstep] at hstep''
    cases hstep''
    exact .next hstep' hrest

/-- At a character that the DFA does not read and that is no delimiter. -/
theorem resumes_of_skipped (ht : t.WellFormed) (hfinished : src.finished = true)
    (h : BehindSkip t c) (hskip : SkipsTo t src c.pos q) (hlt : c.pos < src.size)
    (hfirst : ¬ t.isFirstCharOfAVariable (src.bytes c.pos).toNat)
    (hdelimiter : ¬ t.isDelimiter (src.bytes c.pos).toNat)
    (hloops : Loops t src c c' (.ok span)) :
    Loops t src { c with pos := q, startPos := q } c' (.ok span) := by
  have htransition : t.dfa.transition? t.dfa.getRoot (src.bytes c.pos).toNat = none := by
    rw [ht.firstChar] at hfirst
    simpa using hfirst
  have hchar : src.charAt c.pos ≠ 10 := by
    rw [Source.charAt_of_lt hlt]
    intro hten
    obtain ⟨transition, ids, hnewline, -⟩ := ht.newline
    have hnewline : t.dfa.transition? t.dfa.getRoot (10 : UInt8).toNat = some transition := hnewline
    rw [hten, hnewline] at htransition
    cases htransition
  have hstate : (c.readChar t src).state = none := by
    rw [state_readChar, Source.charAt_of_lt hlt]
    unfold nextState
    rw [h.state]
    show Option.map _ (t.dfa.transition? t.dfa.getRoot _) = none
    rw [htransition]
    rfl
  have hnone : (c.readChar t src).firstDelimiterPos = none := by
    rw [Cursor.firstDelimiterPos_readChar, Source.charAt_of_lt hlt, if_neg, h.firstDelimiterPos]
    exact fun hnote => hdelimiter hnote.2.1
  have hstep := step_skip hfinished (fun hnewline => hchar hnewline.1) (.inr hstate)
    (h.matched_readChar ht) (fun hinput => hlt.ne hinput.1) hnone hskip
  rw [root_readChar h.state (h.typeIds_eq_nil ht) hnone hchar] at hstep
  cases hloops with
  | stop hstep' =>
    rw [hstep] at hstep'
    cases hstep'
  | next hstep' hrest =>
    rw [hstep] at hstep'
    cases hstep'
    exact hrest

/-- At the first character of no variable. -/
theorem resumes_of_boundary (hfinished : src.finished = true) (h : BehindSkip t c)
    (hasked : c.askedForMoreData = false) (horder : c.InOrder) (hskip : SkipsTo t src c.pos q)
    (hlt : c.pos < src.size) (hboundary : Boundary t src c.pos) (hchar : src.bytes c.pos ≠ 10)
    (hnone : ∀ m ids, ¬ MatchAt t src none c.pos m ids)
    (hloops : Loops t src c c' (.ok span)) :
    ∃ d, Loops t src { c with pos := q, startPos := q } d (.ok span) ∧ SameRest d c' := by
  obtain rfl := eq_of_boundary hskip hboundary
  have hlast := horder.last_le
  have hstart := horder.start_le
  have hne := h.start_ne
  have hruns : RunsInVain t src c.pos (c.withStart c.pos) := by
    refine ⟨Nat.le_refl _, hlt.le, rfl, ?_, h.matched, hasked, ?_, ?_⟩
    · show c.state = t.dfa.run t.dfa.getRoot (src.word c.pos c.pos)
      rw [Source.word_self]
      exact h.state
    · show c.lastMatchPos < c.pos
      omega
    · show c.firstDelimiterPos = if c.pos = c.pos then none else some c.pos
      rw [if_pos rfl]
      exact h.firstDelimiterPos
  have hlt' : c.startPos < src.size := by omega
  obtain ⟨d, hd, hrest, hmatched, hasked'⟩ :=
    hruns.loops hfinished hnone hlt hboundary.2 hchar hlt' hloops
  exact ⟨d, hd, .inr ⟨hmatched, hasked', c.startPos, hrest⟩⟩

/-- The call goes on as if the text had been skipped in one go. -/
theorem resumes (ht : t.WellFormed) (hfinished : src.finished = true) (h : BehindSkip t c)
    (hasked : c.askedForMoreData = false) (horder : c.InOrder) (hskip : SkipsTo t src c.pos q)
    (halike : ResumesAlike t src c.pos) (hloops : Loops t src c c' (.ok span)) :
    ∃ d, Loops t src { c with pos := q, startPos := q } d (.ok span) ∧ SameRest d c' := by
  have hle : c.pos ≤ src.size := hskip.le.trans hskip.le_size
  rcases Nat.lt_or_eq_of_le hle with hlt | hend
  · rcases halike with hend | ⟨hchar, hdelimiter⟩ | ⟨hfirst, hdelimiter⟩ | ⟨hboundary, hnone⟩
    · omega
    · exact ⟨c', h.resumes_of_newline ht hfinished hskip hlt hchar hdelimiter hloops, .inl rfl⟩
    · exact ⟨c', h.resumes_of_skipped ht hfinished hskip hlt hfirst hdelimiter hloops, .inl rfl⟩
    · by_cases hchar : src.bytes c.pos = 10
      · have hdelimiter : t.isDelimiter 10 := by
          have hdelimiter := hboundary.2
          rw [hchar] at hdelimiter
          exact hdelimiter
        exact ⟨c', h.resumes_of_newline ht hfinished hskip hlt hchar hdelimiter hloops, .inl rfl⟩
      · exact h.resumes_of_boundary hfinished hasked horder hskip hlt hboundary hchar hnone hloops
  · exact h.resumes_of_end ht hfinished hasked horder hskip hend hloops

end BehindSkip

/-! ## Calls on pieces -/

/-- A newline does not start a token if the step asks for more data. -/
theorem not_newline_of_error {src : Source} {err : ErrorCode} (hlt : c.pos ≠ src.size)
    (hstep : c.step t src = (c', some (.error err))) :
    ¬ (src.charAt c.pos = 10 ∧ (c.readChar t src).StartsAtNewline c.pos) := by
  intro hnewline
  unfold step at hstep
  rw [if_neg (fun hend => hlt hend.1)] at hstep
  dsimp only at hstep
  rw [if_pos hnewline] at hstep
  cases hstep

/-- The loop that skips text asks for more data. -/
theorem behindSkip_of_step {err : ErrorCode} (hlt : c.pos ≠ piece.size) (horder : c.InOrder)
    (hpos : c.pos ≤ piece.size) (hstep : c.step t piece = (c', some (.error err))) :
    c' = { (c.readChar t piece).root t with pos := piece.size, askedForMoreData := true } ∧
      BehindSkip t c' ∧ (c.readChar t piece).state = none ∧ SkipsTo t piece c.pos piece.size := by
  obtain ⟨-, -, -, ⟨heq, -⟩ | ⟨hmatched, hfirst, hstate, hskip, rfl⟩⟩ := step_error hstep
  · exact absurd heq hlt
  · refine ⟨rfl, ⟨rfl, hmatched, hfirst, ?_⟩, hstate, ?_⟩
    · have hle := horder.start_le
      show (c.readChar t piece).startPos ≠ piece.size
      rw [startPos_readChar]
      omega
    · have hspec := skipTo_spec t hpos
      rw [hskip] at hspec
      exact hspec

/-- A loop that asks for more data can be gone on with. -/
theorem Loops.resume (ht : t.WellFormed) (h : piece.PieceOf full) (hfull : full.finished = true)
    {err : ErrorCode} (hloops : Loops t piece c c' (.error err)) (hpos : c.pos ≤ piece.size)
    (hasked : c.askedForMoreData = false) (horder : c.InOrder)
    (halike : BehindSkip t c' → ResumesAlike t full c'.pos) :
    c'.askedForMoreData = true ∧ c'.InOrder ∧
      ∀ c'' span, Loops t full { c' with askedForMoreData := false } c'' (.ok span) →
        ∃ d, Loops t full c d (.ok span) ∧ SameRest d c'' := by
  obtain ⟨d, hstep, hdpos, hdorder, hdasked, hpath⟩ := hloops.suspends ht h hfull hpos horder
  rw [hasked] at hdasked
  refine ⟨(step_error hstep).2.2.1, ?_⟩
  by_cases hend : d.pos = piece.size
  · have hc' : c' = { d with askedForMoreData := true } := by
      have hfinished := (step_error hstep).2.1
      unfold step at hstep
      rw [if_pos ⟨hend, hfinished⟩] at hstep
      exact (congrArg Prod.fst hstep).symm
    subst hc'
    refine ⟨⟨hdorder.last_le, hdorder.start_le⟩, ?_⟩
    intro c'' span hrest
    rw [← hdasked] at hrest
    exact ⟨c'', hpath _ _ hrest, .inl rfl⟩
  · obtain ⟨hc', hbehind, hstate, hskip⟩ := behindSkip_of_step hend hdorder hdpos hstep
    have hlt : d.pos < piece.size := Nat.lt_of_le_of_ne hdpos hend
    have hread : ReadsAlike piece full d.pos := .inl hlt
    have hsame := readChar_eq (t := t) h hread
    have hnewline := not_newline_of_error hend hstep
    rw [hread.charAt h, hsame] at hnewline
    rw [hsame] at hc' hstate
    have hcpos : c'.pos = piece.size := by rw [hc']
    have hlast : c'.lastMatchPos = d.lastMatchPos := by
      rw [hc']
      exact lastMatchPos_readChar t full d
    have hstart : c'.startPos = d.startPos := by
      rw [hc']
      exact startPos_readChar t full d
    have hcorder : c'.InOrder := by
      have hlastle := hdorder.last_le
      have hstartle := hdorder.start_le
      refine ⟨?_, ?_⟩
      · omega
      · omega
    refine ⟨hcorder, ?_⟩
    intro c'' span hrest
    have hskip' : SkipsTo t full c'.pos (skipTo t full (full.size - c'.pos) c'.pos) :=
      skipTo_spec t (by rw [hcpos]; exact h.size_le)
    generalize skipTo t full (full.size - c'.pos) c'.pos = q at hskip'
    obtain ⟨e, he, hsamerest⟩ := BehindSkip.resumes (c := { c' with askedForMoreData := false })
      ht hfull ⟨hbehind.state, hbehind.matched, hbehind.firstDelimiterPos, hbehind.start_ne⟩ rfl
      ⟨hcorder.last_le, hcorder.start_le⟩ hskip' (halike hbehind) hrest
    rw [hcpos] at hskip'
    have hmatched : (d.readChar t full).matched = none := by
      have hmatched := hbehind.matched
      rw [hc'] at hmatched
      exact hmatched
    have hfirst : (d.readChar t full).firstDelimiterPos = none := by
      have hfirst := hbehind.firstDelimiterPos
      rw [hc'] at hfirst
      exact hfirst
    have hstep' := step_skip hfull hnewline (.inr hstate) hmatched
      (fun hinput => absurd hinput.1 (hlt.trans_le h.size_le).ne) hfirst (hskip.resume h hskip')
    refine ⟨e, hpath _ _ (.next hstep' ?_), hsamerest⟩
    have hdasked' : (d.readChar t full).askedForMoreData = false := by
      rw [askedForMoreData_readChar, hdasked]
    rw [hc'] at he
    have heq : ({ (d.readChar t full).root t with pos := q, startPos := q } : Cursor) =
        { { (d.readChar t full).root t with pos := piece.size, askedForMoreData := true } with
          pos := q, startPos := q, askedForMoreData := false } := by
      rw [← hdasked']
      rfl
    rw [heq]
    exact he

theorem Loops.unique {src : Source} {d d' : Cursor} {result result' : Result}
    (h : Loops t src c d result) (h' : Loops t src c d' result') : d = d' ∧ result = result' := by
  induction h with
  | stop hstep =>
    cases h' with
    | stop hstep' =>
      rw [hstep] at hstep'
      cases hstep'
      exact ⟨rfl, rfl⟩
    | next hstep' =>
      rw [hstep] at hstep'
      cases hstep'
  | next hstep _ ih =>
    cases h' with
    | stop hstep' =>
      rw [hstep] at hstep'
      cases hstep'
    | next hstep' hrest' =>
      rw [hstep] at hstep'
      cases hstep'
      exact ih hrest'

theorem Scans.unique {src : Source} {d d' : Cursor} {result result' : Result}
    (h : Scans t src c d result) (h' : Scans t src c d' result') : d = d' ∧ result = result' := by
  unfold Scans at h h'
  split at h
  · rename_i hasked
    rw [if_pos hasked] at h'
    exact h.unique h'
  · rename_i hasked
    rw [if_neg hasked] at h'
    split at h
    · rename_i hmatched
      rw [hmatched] at h'
      exact ⟨h.1.trans h'.1.symm, h.2.trans h'.2.symm⟩
    · rename_i hmatched
      rw [hmatched] at h'
      exact h.unique h'

/-- The positions of the cursor lie in the piece. -/
structure Within (piece : Source) (c : Cursor) : Prop where
  pos_le : c.pos ≤ piece.size
  firstDelimiterPos : ∀ f, c.firstDelimiterPos = some f → f ≤ piece.size

theorem Within.pos_begin (h : c.Within piece) : (c.begin t).pos ≤ piece.size := by
  show c.firstDelimiterPos.getD c.pos ≤ piece.size
  cases hfirst : c.firstDelimiterPos with
  | none => exact h.pos_le
  | some f => exact h.firstDelimiterPos f hfirst

theorem Scans.extend (ht : t.WellFormed) (h : piece.PieceOf full) (hfull : full.finished = true)
    (hwithin : c.Within piece) {span : Span} (hscans : Scans t piece c c' (.ok span)) :
    Scans t full c c' (.ok span) := by
  unfold Scans at hscans ⊢
  split
  · rename_i hasked
    rw [if_pos hasked] at hscans
    exact hscans.extend ht h hfull hwithin.pos_le
  · rename_i hasked
    rw [if_neg hasked] at hscans
    cases hmatched : c.matched with
    | some pair =>
      rw [hmatched] at hscans
      exact hscans
    | none =>
      rw [hmatched] at hscans
      exact hscans.extend ht h hfull hwithin.pos_begin

theorem SameRest.trans {d e : Cursor} (h : SameRest c d) (h' : SameRest d e) : SameRest c e := by
  rcases h with rfl | ⟨hmatched, hasked, startPos, rfl⟩
  · exact h'
  · rcases h' with rfl | ⟨-, -, startPos', rfl⟩
    · exact .inr ⟨hmatched, hasked, startPos, rfl⟩
    · exact .inr ⟨hmatched, hasked, startPos', rfl⟩

theorem SameRest.rested {d : Cursor} (h : SameRest c d) (hrested : c.Rested t full) :
    d.Rested t full := by
  rcases h with rfl | ⟨hmatched, hasked, startPos, rfl⟩
  · exact hrested
  · refine ⟨hasked, ?_, hrested.idle⟩
    intro m ids hm
    have hm : c.matched = some (m, ids) := hm
    rw [hmatched] at hm
    cases hm

/-- The next call returns the same. -/
theorem SameRest.scans {d : Cursor} (h : SameRest c d) {result : Result}
    (hscans : Scans t full d c' result) : Scans t full c c' result := by
  rcases h with rfl | ⟨hmatched, hasked, startPos, rfl⟩
  · exact hscans
  · have hno : ¬ c.askedForMoreData = true := by simp [hasked]
    rw [scans_of_begin hno hmatched]
    exact (scans_of_begin (c := c.withStart startPos) hno hmatched).1 hscans

/-- What the calls of `scan` on the text return, from the cursor on. -/
inductive ReturnsSpans (t : LexerTables) (full : Source) : Cursor → List Span → Prop where
  | nil (c : Cursor) : ReturnsSpans t full c []
  | cons {c c' : Cursor} {span : Span} {spans : List Span} (hscans : Scans t full c c' (.ok span))
      (hrest : ReturnsSpans t full c' spans) : ReturnsSpans t full c (span :: spans)

theorem SameRest.returnsSpans {d : Cursor} (h : SameRest c d) {spans : List Span}
    (hspans : ReturnsSpans t full d spans) : ReturnsSpans t full c spans := by
  cases hspans with
  | nil => exact .nil c
  | cons hscans hrest => exact .cons (h.scans hscans) hrest

/-- The cursor stands between two tokens of the text, or in a call that goes on
as the same call on the whole text does. -/
inductive Follows (t : LexerTables) (full : Source) (c : Cursor) : Prop where
  | rested (hrested : c.Rested t full)
  | suspended (hasked : c.askedForMoreData = true) (horder : c.InOrder) {o : Cursor}
      {opening : Option Opening} {q : Nat} (horigin : o.At t full opening q)
      (hsame : ∀ c' span, Scans t full c c' (.ok span) →
        ∃ d, Scans t full o d (.ok span) ∧ SameRest d c')

theorem Opened.follows {o : Opening} (h : c.Opened t full o) : c.Follows t full := by
  refine .suspended h.asked ⟨?_, ?_⟩ (.opened h) fun c' span hscans => ?_
  · rw [h.lastMatchPos]
    exact Nat.zero_le _
  · rw [h.startPos]
    exact Nat.zero_le _
  · exact ⟨c', hscans, .inl rfl⟩

theorem Follows.scans (ht : t.WellFormed) (h : c.Follows t full) {span : Span}
    (hscans : Scans t full c c' (.ok span)) : c'.Rested t full := by
  cases h with
  | rested hrested =>
    obtain ⟨-, hat⟩ := (At.rested hrested).scans ht hscans
    generalize span.endPos = q at hat
    cases hat with
    | rested h => exact h
  | suspended hasked horder horigin hsame =>
    obtain ⟨d, hd, hrest⟩ := hsame c' span hscans
    obtain ⟨-, hat⟩ := horigin.scans ht hd
    generalize span.endPos = q at hat
    cases hat with
    | rested h => exact hrest.rested h

/-- A call that asks for more data is a loop that does. -/
theorem Follows.exists_loops (hfollows : c.Follows t full) (hwithin : c.Within piece)
    {err : ErrorCode} (hscans : Scans t piece c c' (.error err)) :
    ∃ d, Loops t piece d c' (.error err) ∧ d.pos ≤ piece.size ∧ d.askedForMoreData = false ∧
      d.InOrder ∧ ∀ c'' result, Loops t full d c'' result → Scans t full c c'' result := by
  cases hfollows with
  | rested hrested =>
    have hno : ¬ c.askedForMoreData = true := by simp [hrested.notAsked]
    cases hmatched : c.matched with
    | some pair =>
      rw [scans_of_matched hno hmatched] at hscans
      cases hscans.2
    | none =>
      rw [scans_of_begin hno hmatched] at hscans
      have hscanning := hrested.scanning_begin hmatched
      refine ⟨c.begin t, hscans, hwithin.pos_begin, hrested.notAsked,
        ⟨hscanning.last_le, hscanning.start_le⟩, ?_⟩
      intro c'' result hloops
      exact (scans_of_begin hno hmatched).2 hloops
  | suspended hasked horder =>
    rw [scans_of_asked hasked] at hscans
    refine ⟨_, hscans, hwithin.pos_le, rfl, ⟨horder.last_le, horder.start_le⟩, ?_⟩
    intro c'' result hloops
    exact (scans_of_asked hasked).2 hloops

/-- A call that asks for more data can be gone on with. -/
theorem Follows.resume (ht : t.WellFormed) (h : piece.PieceOf full) (hfull : full.finished = true)
    (hfollows : c.Follows t full) (hwithin : c.Within piece) {err : ErrorCode}
    (hscans : Scans t piece c c' (.error err))
    (halike : BehindSkip t c' → ResumesAlike t full c'.pos) :
    c'.Follows t full ∧
      ∀ c'' span, Scans t full c' c'' (.ok span) →
        ∃ d, Scans t full c d (.ok span) ∧ SameRest d c'' := by
  obtain ⟨d, hloops, hpos, hdasked, hdorder, hcall⟩ := hfollows.exists_loops hwithin hscans
  obtain ⟨hasked, horder, hresume⟩ := hloops.resume ht h hfull hpos hdasked hdorder halike
  have hgoes : ∀ c'' span, Scans t full c' c'' (.ok span) →
      ∃ d, Scans t full c d (.ok span) ∧ SameRest d c'' := by
    intro c'' span hrest
    rw [scans_of_asked hasked] at hrest
    obtain ⟨e, he, hsame⟩ := hresume c'' span hrest
    exact ⟨e, hcall _ _ he, hsame⟩
  refine ⟨?_, hgoes⟩
  cases hfollows with
  | rested hrested => exact .suspended hasked horder (.rested hrested) hgoes
  | suspended _ _ horigin hsame =>
    refine .suspended hasked horder horigin ?_
    intro c'' span hrest
    obtain ⟨e, he, hsame'⟩ := hgoes c'' span hrest
    obtain ⟨o', ho', hsame''⟩ := hsame e span he
    exact ⟨o', ho', hsame''.trans hsame'⟩

end Cursor

/-! ## The lexer on pieces -/

/-- The span of the token in the text. -/
def Token.span (token : Token) : Span :=
  ⟨token.startPos, token.endPos, token.lineNum, token.typeIds.getD []⟩

theorem Token.Covers.span_eq {t : LexerTables} {src : Source} {span : Span} {token : Token}
    (h : token.Covers t src span) : token.span = span := by
  unfold Token.span
  rw [h.startPos, h.endPos, h.lineNum, h.typeIds]
  rfl

/-- The buffers hold longer and longer pieces of the text. -/
def Delivered (full : Source) : Nat → List ParserInputBuffer → Prop
  | _, [] => True
  | size, input :: inputs => ∃ piece : Source, piece.PieceOf full ∧ size ≤ piece.size ∧
      input.Holds piece ∧ input.logFullyConsumed = false ∧ Delivered full piece.size inputs

namespace Scanner

open Cursor

/-- Calls of `scan`.  A call that asks for more data is followed by one on the
next buffer, at the same position.  The scanners with a new buffer and the
tokens are returned. -/
def scanPieces (t : LexerTables) (fuel : Nat) : Nat → List ParserInputBuffer → Scanner →
    Except Fault (List Scanner × List Token)
  | 0, _, _ => .ok ([], [])
  | calls + 1, inputs, s => do
    match ← s.scan t fuel with
    | (s, .ok token) =>
      let (resumed, tokens) ← scanPieces t fuel calls inputs s
      return (resumed, token :: tokens)
    | (s, .error _) =>
      match inputs with
      | [] => return ([], [])
      | input :: inputs =>
        let s := { s with input := input.setPos s.input.storage.pos }
        let (resumed, tokens) ← scanPieces t fuel calls inputs s
        return (s :: resumed, tokens)

variable {t : LexerTables} {piece full : Source} {s : Scanner} {fuel : Nat}

theorem Valid.within (h : s.Valid t piece) : (ofScanner s).Within piece where
  pos_le := h.input.pos_le
  firstDelimiterPos := h.firstDelimiterPos

/-- The scanner with a longer piece at the same position. -/
theorem Resting.resume {next : Source} {input : ParserInputBuffer} (h : s.Resting t piece)
    (hsize : piece.size ≤ next.size) (hinput : input.Holds next)
    (hconsumed : input.logFullyConsumed = false) :
    ({ s with input := input.setPos s.input.storage.pos } : Scanner).Resting t next := by
  refine ⟨⟨?_, h.registers, h.state, ?_, ?_⟩, h.resumes⟩
  · refine hinput.setPos (h.input.pos_le.trans hsize) ?_
    rw [hconsumed]
    intro hno
    cases hno
  · intro hmatch
    obtain ⟨htypes, hle⟩ := h.isMatch hmatch
    exact ⟨htypes, hle.trans hsize⟩
  · intro f hf
    exact (h.firstDelimiterPos f hf).trans hsize

/-- The calls return, and if every call behind skipped text goes on as if the
text had been skipped in one go, they return what calls on the whole text do. -/
theorem scanPieces_spec (ht : t.WellFormed) (hfull : full.finished = true)
    (hfuel : 2 * full.size + 1 < fuel) (calls : Nat) {inputs : List ParserInputBuffer}
    (hpiece : piece.PieceOf full) (hresting : s.Resting t piece)
    (hinputs : Delivered full piece.size inputs) :
    ∃ resumed tokens, s.scanPieces t fuel calls inputs = .ok (resumed, tokens) ∧
      ((ofScanner s).Follows t full → (∀ r ∈ resumed, BehindSkip t (ofScanner r) →
          ResumesAlike t full r.input.storage.pos) →
        ReturnsSpans t full (ofScanner s) (tokens.map Token.span)) := by
  induction calls generalizing s piece inputs with
  | zero => exact ⟨[], [], rfl, fun _ _ => .nil _⟩
  | succ calls ih =>
    have hsteps : 2 * piece.size + 1 < fuel := by
      have hle := hpiece.size_le
      omega
    obtain ⟨s', result, result', hscan, hresting', hscans, hdelivers⟩ :=
      scan_refines ht hresting hsteps
    unfold scanPieces
    rw [hscan]
    cases result with
    | ok token =>
      cases result' with
      | error err => exact hdelivers.elim
      | ok span =>
        obtain ⟨resumed, tokens, hrest, hspans⟩ := ih hpiece hresting' hinputs
        have hfullscans := hscans.extend ht hpiece hfull hresting.within
        refine ⟨resumed, token :: tokens, ?_, ?_⟩
        · simp only [bind, Except.bind, hrest]
          rfl
        · intro hfollows halike
          have hrested := hfollows.scans ht hfullscans
          rw [List.map_cons, hdelivers.span_eq]
          exact .cons hfullscans (hspans (.rested hrested) halike)
    | error err =>
      cases result' with
      | ok span => exact hdelivers.elim
      | error err' =>
        cases inputs with
        | nil => exact ⟨[], [], rfl, fun _ _ => .nil _⟩
        | cons input inputs =>
          obtain ⟨next, hnext, hsize, hholds, hconsumed, hrestinputs⟩ := hinputs
          have hresumed := hresting'.resume hsize hholds hconsumed
          obtain ⟨resumed, tokens, hrest, hspans⟩ := ih hnext hresumed hrestinputs
          refine ⟨{ s' with input := input.setPos s'.input.storage.pos } :: resumed, tokens,
            ?_, ?_⟩
          · simp only [bind, Except.bind, hrest]
            rfl
          · intro hfollows halike
            obtain ⟨hhead, htail⟩ := List.forall_mem_cons.1 halike
            obtain ⟨hfollows', hsame⟩ :=
              hfollows.resume ht hpiece hfull hresting.within hscans hhead
            have hreturns := hspans hfollows' htail
            generalize tokens.map Token.span = spans at hreturns
            cases hreturns with
            | nil => exact .nil _
            | cons hcall hrestspans =>
              obtain ⟨d, hd, hrest'⟩ := hsame _ _ hcall
              exact .cons hd (hrest'.returnsSpans hrestspans)

/-- Calls on the whole text return what the cursor does. -/
theorem exists_scanPieces_of_returnsSpans (ht : t.WellFormed)
    (hfuel : 2 * full.size + 1 < fuel) {spans : List Span} (hresting : s.Resting t full)
    (hspans : ReturnsSpans t full (ofScanner s) spans) :
    ∃ tokens, s.scanPieces t fuel spans.length [] = .ok ([], tokens) ∧
      tokens.map Token.span = spans := by
  induction spans generalizing s with
  | nil => exact ⟨[], rfl, rfl⟩
  | cons span spans ih =>
    obtain ⟨s', result, result', hscan, hresting', hscans, hdelivers⟩ :=
      scan_refines ht hresting hfuel
    cases hspans with
    | cons hcall hrest =>
      obtain ⟨rfl, rfl⟩ := hcall.unique hscans
      cases result with
      | error err => exact hdelivers.elim
      | ok token =>
        obtain ⟨tokens, htokens, hsame⟩ := ih hresting' hrest
        refine ⟨token :: tokens, ?_, ?_⟩
        · show scanPieces t fuel (spans.length + 1) [] s = _
          unfold scanPieces
          rw [hscan]
          simp only [bind, Except.bind, htokens]
          rfl
        · rw [List.map_cons, hdelivers.span_eq, hsame]

/-! ### New lexers -/

/-- A new lexer on the first piece. -/
theorem opened_of_reset (ht : t.WellFormed) {p : LogParser}
    (hreset : (LogParser.new t).reset t = .ok p) {input : ParserInputBuffer}
    (hinput : input.Holds piece) :
    ({ lexer := p.lexer, input := input } : Scanner).Resting t piece ∧
      ∃ o, (ofScanner { lexer := p.lexer, input := input }).Opened t piece o := by
  unfold LogParser.reset Lexer.prependStartOfFileChar at hreset
  cases hstate : Lexer.startOfFileState t with
  | none =>
    rw [hstate] at hreset
    cases hreset
  | some state =>
    rw [hstate] at hreset
    cases hreset
    have hlt : state < t.dfa.states.length := by
      unfold Lexer.startOfFileState at hstate
      obtain ⟨transition, htransition, rfl⟩ := Option.map_eq_some_iff.1 hstate
      exact ht.dfa.dest _ _ _ htransition
    have hregisters : t.dfa.HasRegisters t.dfa.regHandler :=
      ⟨(ht.registers.unused.within (Int.le_refl 0)).lt_length, rfl⟩
    refine ⟨⟨⟨hinput, hregisters, ?_, (by intro h; cases h), (by intro f hf; cases hf)⟩,
      fun _ => Option.some_ne_none _⟩, ⟨state, input.storage.pos⟩, ?_⟩
    · intro i hi
      cases hi
      exact hlt
    · exact ⟨rfl, rfl, rfl, rfl, rfl, rfl, rfl, hinput.pos_le⟩

/-- A new lexer on a text that comes in pieces.  Its calls return, and they
return the tokens of the whole text if every call behind skipped text goes on as
if the text had been skipped in one go. -/
theorem scanPieces_whole {schema : SchemaAST}
    {regMapOrder : List (Nat × Nat) → List (Nat × Nat)} {steps : Nat}
    (horder : ∀ regMap, (regMapOrder regMap).Perm regMap)
    (hgenerate : schema.generate regMapOrder steps = .ok t) {p : LogParser}
    (hreset : (LogParser.new t).reset t = .ok p) (hfull : full.finished = true)
    (hfuel : 2 * full.size + 1 < fuel) {whole first : ParserInputBuffer}
    {inputs : List ParserInputBuffer} (hwhole : whole.Holds full) (hfirst : first.Holds piece)
    (hpiece : piece.PieceOf full) (hpos : first.storage.pos = whole.storage.pos)
    (hinputs : Delivered full piece.size inputs) (calls : Nat) :
    ∃ resumed tokens,
      scanPieces t fuel calls inputs { lexer := p.lexer, input := first } =
        .ok (resumed, tokens) ∧
      ((∀ r ∈ resumed, BehindSkip t (ofScanner r) →
          ResumesAlike t full r.input.storage.pos) →
        ∃ tokens', scanPieces t fuel tokens.length [] { lexer := p.lexer, input := whole } =
            .ok ([], tokens') ∧
          tokens'.map Token.span = tokens.map Token.span) := by
  have ht : t.WellFormed := (LexerTables.ofSchema_generate horder hgenerate).toWellFormed
  obtain ⟨hresting, -⟩ := opened_of_reset ht hreset hfirst
  obtain ⟨hresting', o, hopened⟩ := opened_of_reset ht hreset hwhole
  obtain ⟨resumed, tokens, htokens, hspans⟩ :=
    scanPieces_spec ht hfull hfuel calls hpiece hresting hinputs
  refine ⟨resumed, tokens, htokens, ?_⟩
  intro halike
  have hcursor : ofScanner { lexer := p.lexer, input := first } =
      ofScanner { lexer := p.lexer, input := whole } := by
    unfold ofScanner
    rw [hpos]
  rw [hcursor] at hspans
  obtain ⟨tokens', htokens', hsame⟩ :=
    exists_scanPieces_of_returnsSpans ht hfuel hresting' (hspans hopened.follows halike)
  rw [List.length_map] at htokens'
  exact ⟨tokens', htokens', hsame⟩

/-! ### A text in two pieces -/

def sourceOf (text : List UInt8) (size : Nat) (finished : Bool) : Source :=
  ⟨fun i => text[i]?.getD 0, size, finished⟩

def bufferOf (src : Source) : ParserInputBuffer :=
  ParserInputBuffer.setStorage { storage := { staticStorage := fun _ => 0 } } src.bytes src.size 0
    src.finished

theorem holds_bufferOf {src : Source} (hsize : src.size < 2 ^ 31) : (bufferOf src).Holds src where
  finished := rfl
  bytes := rfl
  size := by
    show toUInt32 (src.size * 2) = 2 * src.size
    rw [toUInt32_of_lt (by omega), Nat.mul_comm]
  posLastReadChar := rfl
  lastReadFirstHalf := rfl
  pos_le := Nat.zero_le _
  consumed := by
    intro hconsumed
    cases hconsumed

theorem pieceOf_sourceOf (text : List UInt8) {size : Nat} (hsize : size ≤ text.length) :
    (sourceOf text size false).PieceOf (sourceOf text text.length true) where
  size_le := hsize
  bytes := fun _ _ => rfl
  finished := by
    intro hfinished
    cases hfinished

/-- A variable for the letter `b`. -/
def letterSchema : SchemaAST := ⟨[⟨"v", .mkLiteral 98⟩], [[10, 32]]⟩

/-- The lexer of the schema, and what it makes of a text with a piece of `cut`
bytes. -/
def scanCut (text : List UInt8) (cut calls : Nat) :
    Except Fault (LexerTables × LogParser × List Scanner × List Token) := do
  let t ← letterSchema.generate id 40
  let p ← (LogParser.new t).reset t
  let (resumed, tokens) ← scanPieces t 20 calls [bufferOf (sourceOf text text.length true)]
    { lexer := p.lexer, input := bufferOf (sourceOf text cut false) }
  return (t, p, resumed, tokens)

def checkCut (text : List UInt8) (cut calls : Nat)
    (P : LexerTables → LogParser → List Scanner → List Token → Bool) : Bool :=
  match scanCut text cut calls with
  | .ok (t, p, resumed, tokens) => P t p resumed tokens
  | .error _ => false

theorem exists_of_checkCut {text : List UInt8} {cut calls : Nat}
    {P : LexerTables → LogParser → List Scanner → List Token → Bool}
    (h : checkCut text cut calls P = true) :
    ∃ t p resumed tokens, letterSchema.generate id 40 = .ok t ∧
      (LogParser.new t).reset t = .ok p ∧
      scanPieces t 20 calls [bufferOf (sourceOf text text.length true)]
        { lexer := p.lexer, input := bufferOf (sourceOf text cut false) } =
        .ok (resumed, tokens) ∧
      P t p resumed tokens = true := by
  unfold checkCut at h
  split at h
  · rename_i t p resumed tokens hscan
    obtain ⟨t', ht, hscan⟩ := exists_of_bind_eq_ok hscan
    obtain ⟨p', hreset, hscan⟩ := exists_of_bind_eq_ok hscan
    obtain ⟨⟨resumed', tokens'⟩, hpieces, hscan⟩ := exists_of_bind_eq_ok hscan
    cases hscan
    exact ⟨t, p, resumed, tokens, ht, hreset, hpieces, h⟩
  · cases h

theorem delivered_bufferOf (text : List UInt8) {cut : Nat} (hcut : cut ≤ text.length)
    (hsize : text.length < 2 ^ 31) :
    Delivered (sourceOf text text.length true) cut [bufferOf (sourceOf text text.length true)] :=
  ⟨_, ⟨Nat.le_refl _, fun _ _ => rfl, fun _ => rfl⟩, hcut, holds_bufferOf hsize, rfl, trivial⟩

/-- What the lexer makes of the whole text. -/
def wholeSpans (t : LexerTables) (p : LogParser) (text : List UInt8) (calls : Nat) :
    Option (List Span) :=
  match scanPieces t 20 calls []
    { lexer := p.lexer, input := bufferOf (sourceOf text text.length true) } with
  | .ok ([], tokens) => some (tokens.map Token.span)
  | _ => none

theorem exists_of_wholeSpans {p : LogParser} {text : List UInt8} {calls : Nat}
    {spans : List Span} (h : wholeSpans t p text calls = some spans) :
    ∃ tokens, scanPieces t 20 calls []
        { lexer := p.lexer, input := bufferOf (sourceOf text text.length true) } =
        .ok ([], tokens) ∧
      tokens.map Token.span = spans := by
  unfold wholeSpans at h
  split at h
  · rename_i tokens hscan
    exact ⟨tokens, hscan, Option.some.inj h⟩
  · cases h

/-- The text `ab` comes in two pieces of one byte. -/
theorem scanPieces_whole_letters :
    ∃ t p resumed tokens tokens', letterSchema.generate id 40 = .ok t ∧
      (LogParser.new t).reset t = .ok p ∧
      scanPieces t 20 3 [bufferOf (sourceOf [97, 98] 2 true)]
        { lexer := p.lexer, input := bufferOf (sourceOf [97, 98] 1 false) } =
        .ok (resumed, tokens) ∧
      scanPieces t 20 tokens.length []
        { lexer := p.lexer, input := bufferOf (sourceOf [97, 98] 2 true) } = .ok ([], tokens') ∧
      tokens'.map Token.span = tokens.map Token.span ∧ tokens.length = 2 := by
  have hcheck : checkCut [97, 98] 1 3 (fun t _ resumed tokens => tokens.length = 2 ∧
      resumed.all fun r => r.input.storage.pos = 1 ∧ ¬ t.isFirstCharOfAVariable 98 ∧
        ¬ t.isDelimiter 98) = true := by
    decide +kernel
  obtain ⟨t, p, resumed, tokens, ht, hreset, hscan, hcheck⟩ := exists_of_checkCut hcheck
  obtain ⟨hlength, hresumed⟩ := of_decide_eq_true hcheck
  have hfuel : 2 * (sourceOf [97, 98] 2 true).size + 1 < 20 := by decide
  have hwhole : (bufferOf (sourceOf [97, 98] 2 true)).Holds (sourceOf [97, 98] 2 true) :=
    holds_bufferOf (by decide)
  have hfirst : (bufferOf (sourceOf [97, 98] 1 false)).Holds (sourceOf [97, 98] 1 false) :=
    holds_bufferOf (by decide)
  have hpiece := pieceOf_sourceOf [97, 98] (by decide : 1 ≤ 2)
  have hinputs := delivered_bufferOf [97, 98] (by decide : 1 ≤ 2) (by decide)
  obtain ⟨resumed', tokens', hscan', hsame⟩ := scanPieces_whole (fun _ => .refl _) ht hreset rfl
    hfuel hwhole hfirst hpiece rfl hinputs 3
  have heq := hscan'.symm.trans hscan
  cases heq
  have halike : ∀ r ∈ resumed, BehindSkip t (ofScanner r) →
      ResumesAlike t (sourceOf [97, 98] 2 true) r.input.storage.pos := by
    intro r hr _
    obtain ⟨hpos, hno, hdelimiter⟩ := of_decide_eq_true (List.all_eq_true.1 hresumed r hr)
    rw [hpos]
    exact .inr (.inr (.inl ⟨hno, hdelimiter⟩))
  obtain ⟨tokens'', htokens, hspans⟩ := hsame halike
  exact ⟨t, p, resumed, tokens, tokens'', ht, hreset, hscan, htokens, hspans, hlength⟩

/-- The text `a b` in pieces of one and two bytes is one variable, and not a
letter and a variable. -/
theorem not_scanPieces_whole_letters :
    ∃ t p resumed tokens tokens', letterSchema.generate id 40 = .ok t ∧
      (LogParser.new t).reset t = .ok p ∧
      (bufferOf (sourceOf [97, 32, 98] 1 false)).Holds (sourceOf [97, 32, 98] 1 false) ∧
      (sourceOf [97, 32, 98] 1 false).PieceOf (sourceOf [97, 32, 98] 3 true) ∧
      Delivered (sourceOf [97, 32, 98] 3 true) 1 [bufferOf (sourceOf [97, 32, 98] 3 true)] ∧
      scanPieces t 20 2 [bufferOf (sourceOf [97, 32, 98] 3 true)]
        { lexer := p.lexer, input := bufferOf (sourceOf [97, 32, 98] 1 false) } =
        .ok (resumed, tokens) ∧
      scanPieces t 20 tokens.length []
        { lexer := p.lexer, input := bufferOf (sourceOf [97, 32, 98] 3 true) } =
        .ok ([], tokens') ∧
      tokens.map Token.span = [⟨0, 3, 0, [7]⟩] ∧
      tokens'.map Token.span = [⟨0, 1, 0, [1]⟩] := by
  have hcheck : checkCut [97, 32, 98] 1 2 (fun t p _ tokens =>
      tokens.map Token.span = [⟨0, 3, 0, [7]⟩] ∧
        wholeSpans t p [97, 32, 98] 1 = some [⟨0, 1, 0, [1]⟩]) = true := by
    decide +kernel
  obtain ⟨t, p, resumed, tokens, ht, hreset, hscan, hcheck⟩ := exists_of_checkCut hcheck
  obtain ⟨hspans, hwhole⟩ := of_decide_eq_true hcheck
  obtain ⟨tokens', hscan', hspans'⟩ := exists_of_wholeSpans hwhole
  have hlength : tokens.length = 1 := by
    have hlength := congrArg List.length hspans
    rwa [List.length_map] at hlength
  rw [← hlength] at hscan'
  exact ⟨t, p, resumed, tokens, tokens', ht, hreset, holds_bufferOf (by decide),
    pieceOf_sourceOf [97, 32, 98] (by decide),
    delivered_bufferOf [97, 32, 98] (by decide) (by decide), hscan, hscan', hspans, hspans'⟩

end Scanner

end LogSurgeon
