import LogSurgeon.EventTexts
import LogSurgeon.LexerPieces
import Mathlib.Algebra.GroupWithZero.Nat

/-!
# Line numbers

`m_line` counts the newlines up to the position.  A match keeps the line of its
end, and the lexer goes back to both together.  When there is no match, the next
call goes back to the first delimiter and keeps the line, so it counts the
newlines behind the delimiter a second time.

* `Counted` is the invariant of the loop, and `Settled` holds between two calls:
  the line is the number of newlines, and `drift` more.
* `rewound` is what a call adds to `drift`.
* `countsLines_iff` is the result for the calls of a new lexer.
-/

namespace LogSurgeon

/-! ## Counting newlines -/

namespace Source

/-- The newlines before the position. -/
def newlines (src : Source) (p : Nat) : Nat := (src.word 0 p).count 10

variable {src : Source} {p q : Nat}

theorem newlines_zero : src.newlines 0 = 0 := by simp [newlines]

theorem newlines_add (h : p ≤ q) : src.newlines q = src.newlines p + (src.word p q).count 10 := by
  have hword := src.word_append (Nat.zero_le p) h
  unfold newlines
  rw [← hword, List.count_append]

theorem newlines_succ (p : Nat) :
    src.newlines (p + 1) = src.newlines p + if src.bytes p = 10 then 1 else 0 := by
  rw [newlines_add (Nat.le_succ p), word_succ src (Nat.le_refl p), word_self, List.nil_append,
    List.count_singleton]
  simp

theorem newlines_eq (h : p ≤ q) (hno : ∀ i, p ≤ i → i < q → src.bytes i ≠ 10) :
    src.newlines q = src.newlines p := by
  rw [newlines_add h]
  have hzero : (src.word p q).count 10 = 0 := by
    apply List.count_eq_zero.2
    intro hmem
    obtain ⟨i, hle, hlt, hbyte⟩ := mem_word.1 hmem
    exact hno i hle hlt hbyte
  omega

end Source

/-- The types are those of a match, and not of text or of the end of the input. -/
def IsVariable (typeIds : List Nat) : Prop :=
  typeIds ≠ cTokenUncaughtStringTypes ∧ typeIds ≠ cTokenEndTypes

instance (typeIds : List Nat) : Decidable (IsVariable typeIds) :=
  inferInstanceAs (Decidable (_ ∧ _))

namespace Cursor

variable {t : LexerTables} {src : Source} {opening : Option Opening} {c c' : Cursor} {drift : Nat}

/-! ## The loop -/

theorem line_readChar (t : LexerTables) (src : Source) (c : Cursor) :
    (c.readChar t src).line = if src.charAt c.pos = 10 then c.line + 1 else c.line := by
  have hline : ∀ d : Cursor, (d.noteDelimiter t (src.charAt c.pos) c.pos).line = d.line := by
    intro d
    unfold noteDelimiter
    split <;> rfl
  have hline' : ∀ d : Cursor, (d.recordMatch t src (src.charAt c.pos) c.pos).line = d.line := by
    intro d
    unfold recordMatch
    split <;> rfl
  unfold readChar countLine
  dsimp only
  split
  · show (recordMatch t src _ _ _).line + 1 = _
    rw [hline', hline]
    rfl
  · show (recordMatch t src _ _ _).line = _
    rw [hline', hline]
    rfl

theorem matchLine_readChar (t : LexerTables) (src : Source) (c : Cursor) :
    (c.readChar t src).matchLine =
      if (t.isDelimiter (src.charAt c.pos).toNat ∨ c.pos = src.size) ∧ c.typeIds t ≠ [] then c.line
      else c.matchLine := by
  have htypes : typeIds t ((c.getNextCharacter src).noteDelimiter t (src.charAt c.pos) c.pos) =
      c.typeIds t := by
    unfold typeIds
    rw [state_noteDelimiter]
    rfl
  have hcount : ∀ d : Cursor, (d.countLine (src.charAt c.pos)).matchLine = d.matchLine := by
    intro d
    unfold countLine
    split <;> rfl
  unfold readChar
  dsimp only
  rw [hcount]
  show (recordMatch t src _ _ _).matchLine = _
  unfold recordMatch
  rw [htypes]
  split
  · show (noteDelimiter t _ _ _).line = _
    unfold noteDelimiter
    split <;> rfl
  · unfold noteDelimiter
    split <;> rfl

/-- The lines of the position and of the match are ahead by `drift`. -/
structure Counted (src : Source) (drift : Nat) (c : Cursor) : Prop where
  line : c.line = src.newlines c.pos + drift
  matched : ∀ m ids, c.matched = some (m, ids) → c.matchLine = src.newlines m + drift

theorem Counted.readChar (h : c.Counted src drift) (hpos : c.pos ≤ src.size) :
    (c.readChar t src).Counted src drift := by
  constructor
  · rw [line_readChar, pos_readChar, h.line]
    rcases Nat.lt_or_eq_of_le hpos with hlt | heq
    · rw [Source.charAt_of_lt hlt, if_pos hlt, Source.newlines_succ]
      split <;> omega
    · have hchar : ¬ src.charAt c.pos = 10 := by
        rw [heq, Source.charAt_size]
        decide
      rw [if_neg hchar, if_neg (by omega)]
  · intro m ids hmatched
    rw [matched_readChar] at hmatched
    rw [matchLine_readChar]
    split at hmatched
    · rename_i hrecord
      cases hmatched
      rw [if_pos hrecord]
      exact h.line
    · rename_i hrecord
      rw [if_neg hrecord]
      exact h.matched m ids hmatched

/-- No newline is skipped. -/
theorem Scanning.no_newline_skip (ht : t.WellFormed) (hnewline : t.isDelimiter 10)
    (h : Scanning t src opening c) (hread : readsFrom opening = 0)
    (hstart : ¬ (src.charAt c.pos = 10 ∧ (c.readChar t src).StartsAtNewline c.pos))
    (hmatched : (c.readChar t src).matched = none)
    (hfirst : (c.readChar t src).firstDelimiterPos = none) {q : Nat}
    (hskip : SkipsTo t src c.pos q) :
    src.charAt c.pos ≠ 10 ∧ ∀ p, c.pos ≤ p → p < q → src.bytes p ≠ 10 := by
  have hplain := h.plainText_skip ht (matched_of_matched_readChar hmatched)
    (h.firstDelimiterPos_readChar_none hfirst).1 hskip
  constructor
  · intro hchar
    exact hstart ⟨hchar, Or.inl hfirst, hmatched⟩
  · intro p hle hlt
    refine hplain.newline hnewline p ?_ ((h.last_le.trans h.start_le).trans hle) hlt
    omega

/-- A step that goes on keeps the lines. -/
theorem Counted.step (ht : t.WellFormed) (hnewline : t.isDelimiter 10)
    (hread : readsFrom opening = 0) (hscanning : Scanning t src opening c)
    (h : c.Counted src drift) (hstep : c.step t src = (c', none)) : c'.Counted src drift := by
  have hnext := h.readChar (t := t) hscanning.pos_le
  rcases step_cases hstep with ⟨hchar, hstart, rfl⟩ |
    ⟨hstart, ⟨hne, -, rfl⟩ | ⟨-, hmatched, hfirst, -, rfl⟩⟩
  · constructor
    · exact hnext.line
    · intro m ids hmatched
      rw [matched_startAtNewline] at hmatched
      cases hmatched
      exact hnext.line
  · exact hnext
  · obtain ⟨hchar, hno⟩ := hscanning.no_newline_skip ht hnewline hread hstart hmatched hfirst
      (skipTo_spec t hscanning.pos_le)
    have hskip := skipTo_spec t hscanning.pos_le
    constructor
    · show (c.readChar t src).line = _
      rw [line_readChar, if_neg hchar, h.line, ← Source.newlines_eq hskip.le hno]
    · intro m ids hm
      have hm : (c.readChar t src).matched = some (m, ids) := hm
      rw [hmatched] at hm
      cases hm

/-! ## Between two calls -/

/-- What holds of the lines between two calls. -/
structure Settled (src : Source) (drift : Nat) (c : Cursor) : Prop where
  line : c.line = src.newlines c.pos + drift
  matched : ∀ m ids, c.matched = some (m, ids) → IsVariable ids →
    c.matchLine = src.newlines m + drift
  rewinds : ∀ f, c.firstDelimiterPos = some f → f ≤ c.pos ∨ c.matched ≠ none

/-- A step that returns a token leaves the lines as they are. -/
theorem Counted.finish (hscanning : Scanning t src opening c) (h : c.Counted src drift)
    {span : Span} (hstep : c.step t src = (c', some (.ok span))) :
    c'.Settled src drift ∧
      (IsVariable span.typeIds → span.lineNum = src.newlines span.endPos + drift) := by
  obtain ⟨-, -, hfinishes⟩ := step_ok hstep
  have hnext := h.readChar (t := t) hscanning.pos_le
  have hdelimiter : ∀ f, (c.readChar t src).firstDelimiterPos = some f →
      f ≤ (c.readChar t src).pos := by
    intro f hf
    obtain ⟨-, hle, -⟩ := hscanning.firstDelimiterPos_readChar hf
    rw [pos_readChar]
    split <;> omega
  generalize c.readChar t src = d at hfinishes hnext hdelimiter
  cases hfinishes with
  | @beforeMatch m ids hmatched hne =>
    refine ⟨⟨hnext.matched m ids hmatched, fun m' ids' hm _ => ?_, fun f _ => ?_⟩, fun hvar => ?_⟩
    · exact hnext.matched m' ids' hm
    · exact Or.inr fun hnone => absurd (hmatched.symm.trans hnone) (Option.some_ne_none _)
    · exact absurd rfl hvar.1
  | @«match» m ids hmatched heq =>
    have hline := hnext.matched m ids hmatched
    refine ⟨⟨hline, fun m' ids' hm => ?_, fun f hf => ?_⟩, fun _ => hline⟩
    · cases hm
    · cases hf
  | lastText hmatched hend hpos hne hfirst =>
    refine ⟨⟨hnext.line, fun m' ids' hm hvar => ?_, fun f hf => ?_⟩, fun hvar => ?_⟩
    · cases hm
      exact absurd rfl hvar.2
    · exact Or.inl (hdelimiter f hf)
    · exact absurd rfl hvar.1
  | input hmatched hend hpos heq =>
    refine ⟨⟨hnext.line, fun m' ids' hm _ => ?_, fun f hf => ?_⟩, fun hvar => ?_⟩
    · exact hnext.matched m' ids' hm
    · exact Or.inl (hdelimiter f hf)
    · exact absurd rfl hvar.2
  | text hmatched hfirst hne =>
    refine ⟨⟨hnext.line, fun m' ids' hm _ => ?_, fun f hf => ?_⟩, fun hvar => ?_⟩
    · exact hnext.matched m' ids' hm
    · exact Or.inl (hdelimiter f hf)
    · exact absurd rfl hvar.1

theorem Counted.loops (ht : t.WellFormed) (hnewline : t.isDelimiter 10)
    (hread : readsFrom opening = 0) (hscanning : Scanning t src opening c)
    (h : c.Counted src drift) {span : Span} (hloops : Loops t src c c' (.ok span)) :
    c'.Settled src drift ∧
      (IsVariable span.typeIds → span.lineNum = src.newlines span.endPos + drift) := by
  generalize hresult : (Except.ok span : Result) = result at hloops
  induction hloops with
  | stop hstep =>
    rw [← hresult] at hstep
    exact h.finish hscanning hstep
  | next hstep _ ih =>
    exact ih (hscanning.step ht hstep) (h.step ht hnewline hread hscanning hstep) hresult

/-- The newlines that the next call counts a second time. -/
def rewound (src : Source) (c : Cursor) : Nat :=
  if c.askedForMoreData = false ∧ c.matched = none then
    c.firstDelimiterPos.elim 0 fun f => (src.word f c.pos).count 10
  else 0

/-- The call goes back to the first delimiter with the line of the position. -/
theorem Settled.counted_begin (h : c.Settled src drift) (hasked : c.askedForMoreData = false)
    (hmatched : c.matched = none) : (c.begin t).Counted src (drift + c.rewound src) := by
  have hrewound : c.rewound src =
      c.firstDelimiterPos.elim 0 fun f => (src.word f c.pos).count 10 :=
    if_pos ⟨hasked, hmatched⟩
  constructor
  · show c.line = src.newlines (c.firstDelimiterPos.getD c.pos) + _
    rw [hrewound, h.line]
    cases hfirst : c.firstDelimiterPos with
    | none =>
      show _ = src.newlines c.pos + (drift + 0)
      omega
    | some f =>
      have hle := (h.rewinds f hfirst).resolve_right (not_not.2 hmatched)
      show _ = src.newlines f + (drift + (src.word f c.pos).count 10)
      rw [Source.newlines_add hle]
      omega
  · intro m ids hm
    have hm : c.matched = some (m, ids) := hm
    rw [hmatched] at hm
    cases hm

/-- What a call does to the lines. -/
theorem At.scans_line (ht : t.WellFormed) (hnewline : t.isDelimiter 10) {q : Nat}
    (hat : c.At t src opening q) (hread : readsFrom opening = 0) (h : c.Settled src drift)
    {span : Span} (hscans : Scans t src c c' (.ok span)) :
    c'.Settled src (drift + c.rewound src) ∧
      (IsVariable span.typeIds →
        span.lineNum = src.newlines span.endPos + (drift + c.rewound src)) := by
  cases hat with
  | @opened o hopened =>
    have hzero : c.rewound src = 0 := by
      unfold rewound
      rw [if_neg]
      rw [hopened.asked]
      exact fun hno => Bool.noConfusion hno.1
    rw [scans_of_asked hopened.asked] at hscans
    have hcounted : ({ c with askedForMoreData := false } : Cursor).Counted src drift := by
      refine ⟨h.line, fun m ids hm => ?_⟩
      have hm : c.matched = some (m, ids) := hm
      rw [hopened.matched] at hm
      cases hm
    rw [hzero]
    exact hcounted.loops ht hnewline hread hopened.scanning hscans
  | rested hrested =>
    have hasked : ¬ c.askedForMoreData = true := by
      rw [hrested.notAsked]
      exact Bool.false_ne_true
    cases hmatched : c.matched with
    | none =>
      rw [scans_of_begin hasked hmatched] at hscans
      exact (h.counted_begin hrested.notAsked hmatched).loops ht hnewline rfl
        (hrested.scanning_begin hmatched) hscans
    | some pair =>
      obtain ⟨m, ids⟩ := pair
      have hzero : c.rewound src = 0 := by
        unfold rewound
        rw [if_neg]
        rw [hmatched]
        exact fun hno => Option.some_ne_none _ hno.2
      rw [scans_of_matched hasked hmatched] at hscans
      obtain ⟨rfl, hresult⟩ := hscans
      cases hresult
      rw [hzero]
      refine ⟨⟨h.line, fun m' ids' hm => ?_, fun f hf => ?_⟩, fun hvar => ?_⟩
      · cases hm
      · cases hf
      · exact h.matched m ids hmatched hvar

end Cursor

/-! ## The calls of a lexer -/

namespace Scanner

open Cursor

variable {t : LexerTables} {src : Source} {opening : Option Opening} {s : Scanner}
  {fuel drift : Nat}

/-- The calls of `scan` on a text that is all there: the scanner before each, and
the token that it returns. -/
def scanCalls (t : LexerTables) (fuel : Nat) : Nat → Scanner →
    Except Fault (List (Scanner × Token))
  | 0, _ => .ok []
  | calls + 1, s => do
    match ← s.scan t fuel with
    | (_, .error _) => return []
    | (s', .ok token) => return (s, token) :: (← s'.scanCalls t fuel calls)

/-- The next call rewinds to the first delimiter, with a newline between that and
the position. -/
def RewindsOverNewline (src : Source) (s : Scanner) : Prop :=
  s.lexer.askedForMoreData = false ∧ s.lexer.isMatch = false ∧
    ∃ f, s.lexer.firstDelimiterPos = some f ∧
      ∃ i, f ≤ i ∧ i < s.input.storage.pos ∧ src.bytes i = 10

theorem rewound_eq_zero_iff : (ofScanner s).rewound src = 0 ↔ ¬ s.RewindsOverNewline src := by
  have hmatched : (ofScanner s).matched = none ↔ s.lexer.isMatch = false := by
    unfold ofScanner
    cases s.lexer.isMatch <;> simp
  unfold Cursor.rewound RewindsOverNewline
  by_cases hbegins : (ofScanner s).askedForMoreData = false ∧ (ofScanner s).matched = none
  · have hasked : s.lexer.askedForMoreData = false := hbegins.1
    have hmatch : s.lexer.isMatch = false := hmatched.1 hbegins.2
    rw [if_pos hbegins]
    show s.lexer.firstDelimiterPos.elim 0 _ = 0 ↔ _
    cases hf : s.lexer.firstDelimiterPos with
    | none => simp
    | some f =>
      show (src.word f s.input.storage.pos).count 10 = 0 ↔ _
      rw [List.count_eq_zero, Source.mem_word]
      simp [hasked, hmatch]
  · rw [if_neg hbegins]
    exact iff_of_true rfl fun hrewinds => hbegins ⟨hrewinds.1, hmatched.2 hrewinds.2.1⟩

/-- The line number of a variable token is too high by the newlines that the
calls so far have counted twice. -/
theorem Resting.scanCalls_line (ht : t.WellFormed) (hnewline : t.isDelimiter 10)
    (hfinished : src.finished = true) (hfuel : 2 * src.size + 1 < fuel) (calls : Nat) {q : Nat}
    (h : s.Resting t src) (hat : (ofScanner s).At t src opening q)
    (hread : readsFrom opening = 0) (hsettled : (ofScanner s).Settled src drift) :
    ∃ run, s.scanCalls t fuel calls = .ok run ∧
      ∀ before call behind, run = before ++ call :: behind →
        IsVariable (call.2.typeIds.getD []) →
        call.2.lineNum = src.newlines call.2.endPos +
          (drift + ((before ++ [call]).map fun earlier => (ofScanner earlier.1).rewound src).sum) := by
  induction calls generalizing s opening q drift with
  | zero =>
    refine ⟨[], rfl, fun before call behind hrun => ?_⟩
    exact absurd hrun.symm (List.append_ne_nil_of_right_ne_nil _ (List.cons_ne_nil _ _))
  | succ calls ih =>
    obtain ⟨s', result, result', hscan, hresting, hscans, hdelivers⟩ := scan_refines ht h hfuel
    cases result' with
    | error err => exact absurd hfinished hscans.error.2
    | ok span =>
      cases result with
      | error err => exact hdelivers.elim
      | ok token =>
        have hcovers : token.Covers t src span := hdelivers
        obtain ⟨hsettled', hline⟩ := hat.scans_line ht hnewline hread hsettled hscans
        obtain ⟨run, hrun, hlines⟩ := ih hresting (hat.scans ht hscans).2 rfl hsettled'
        refine ⟨(s, token) :: run, ?_, ?_⟩
        · unfold scanCalls
          rw [hscan]
          simp only [bind, Except.bind, hrun]
          rfl
        · intro before call behind hsplit hvar
          cases before with
          | nil =>
            cases hsplit
            rw [hcovers.typeIds] at hvar
            rw [hcovers.lineNum, hcovers.endPos]
            simpa using hline hvar
          | cons first before =>
            rw [List.cons_append] at hsplit
            obtain ⟨hfirst, hbehind⟩ := List.cons.inj hsplit
            rw [hlines before call behind hbehind hvar, ← hfirst]
            simp only [List.cons_append, List.map_cons, List.sum_cons]
            omega

/-- Every variable token has the number of newlines before its end. -/
def CountsLines (src : Source) (run : List (Scanner × Token)) : Prop :=
  ∀ call ∈ run, IsVariable (call.2.typeIds.getD []) →
    call.2.lineNum = src.newlines call.2.endPos

/-- No call up to a variable token rewinds over a newline. -/
def KeepsNewlines (src : Source) (run : List (Scanner × Token)) : Prop :=
  ∀ before call behind, run = before ++ call :: behind →
    IsVariable (call.2.typeIds.getD []) →
    ∀ earlier ∈ before ++ [call], ¬ earlier.1.RewindsOverNewline src

/-- The line numbers of a new lexer are right exactly when no call up to a variable
token rewinds over a newline. -/
theorem countsLines_iff {schema : SchemaAST}
    {regMapOrder : List (Nat × Nat) → List (Nat × Nat)} {steps : Nat}
    (horder : ∀ regMap, (regMapOrder regMap).Perm regMap)
    (hgenerate : schema.generate regMapOrder steps = .ok t) {p : LogParser}
    (hreset : (LogParser.new t).reset t = .ok p) (hdelimiter : 10 ∈ schema.delimiterList)
    {input : ParserInputBuffer} (hinput : input.Holds src) (hpos : input.storage.pos = 0)
    (hfinished : src.finished = true) (hfuel : 2 * src.size + 1 < fuel) (calls : Nat) :
    ∃ run, scanCalls t fuel calls { lexer := p.lexer, input := input } = .ok run ∧
      (CountsLines src run ↔ KeepsNewlines src run) := by
  have hof := LexerTables.ofSchema_generate horder hgenerate
  have hnewline : t.isDelimiter 10 := by
    rw [LexerTables.mem_delimiterList] at hdelimiter
    rw [hof.isDelimiter]
    exact hdelimiter.2
  obtain ⟨hresting, o, hopened⟩ := opened_of_reset hof.toWellFormed hreset hinput
  have hoffset : o.offset = 0 := hopened.pos.symm.trans hpos
  have hsettled : (ofScanner { lexer := p.lexer, input := input }).Settled src 0 := by
    obtain ⟨lexer, hlexer, hp⟩ := exists_of_bind_eq_ok hreset
    obtain ⟨state, -, hlexer⟩ := exists_of_bind_eq_ok hlexer
    cases hp
    cases hlexer
    refine ⟨?_, fun m ids hm => ?_, fun f hf => ?_⟩
    · show 0 = src.newlines input.storage.pos + 0
      rw [hpos, Source.newlines_zero]
    · cases hm
    · cases hf
  obtain ⟨run, hrun, hlines⟩ := hresting.scanCalls_line hof.toWellFormed hnewline hfinished hfuel
    calls (.opened hopened) hoffset hsettled
  refine ⟨run, hrun, ?_, ?_⟩
  · intro hcounts before call behind hsplit hvar earlier hearlier
    have hmem : call ∈ run := by
      rw [hsplit]
      exact List.mem_append_right before List.mem_cons_self
    have hline := hlines before call behind hsplit hvar
    rw [hcounts call hmem hvar] at hline
    apply rewound_eq_zero_iff.1
    have hsum : ((before ++ [call]).map fun earlier => (ofScanner earlier.1).rewound src).sum = 0 := by
      omega
    exact List.sum_eq_zero_iff.1 hsum _ (List.mem_map.2 ⟨earlier, hearlier, rfl⟩)
  · intro hkeeps call hmem hvar
    obtain ⟨before, behind, hsplit⟩ := List.append_of_mem hmem
    rw [hlines before call behind hsplit hvar]
    have hsum : ((before ++ [call]).map fun earlier => (ofScanner earlier.1).rewound src).sum = 0 := by
      apply List.sum_eq_zero_iff.2
      intro n hn
      obtain ⟨earlier, hearlier, rfl⟩ := List.mem_map.1 hn
      exact rewound_eq_zero_iff.2 (hkeeps before call behind hsplit hvar earlier hearlier)
    omega

/-! ### A newline behind a blank -/

/-- What the calls of a new lexer for the letter `b` return. -/
def scanLetters (text : List UInt8) (calls : Nat) :
    Except Fault (LexerTables × LogParser × List (Scanner × Token)) := do
  let t ← letterSchema.generate id 40
  let p ← (LogParser.new t).reset t
  let run ← scanCalls t 20 calls
    { lexer := p.lexer, input := bufferOf (sourceOf text text.length true) }
  return (t, p, run)

/-- Whether the tokens of the calls are the given ones. -/
def checkLetters (text : List UInt8) (spans : List Span) : Bool :=
  match scanLetters text spans.length with
  | .ok (_, _, run) => run.map (fun call => call.2.span) == spans
  | .error _ => false

theorem exists_of_checkLetters {text : List UInt8} {spans : List Span}
    (h : checkLetters text spans = true) :
    ∃ t p run, letterSchema.generate id 40 = .ok t ∧ (LogParser.new t).reset t = .ok p ∧
      scanCalls t 20 spans.length
        { lexer := p.lexer, input := bufferOf (sourceOf text text.length true) } = .ok run ∧
      run.map (fun call => call.2.span) = spans := by
  unfold checkLetters at h
  split at h
  · rename_i t p run hrun
    obtain ⟨t', ht, hrun⟩ := exists_of_bind_eq_ok hrun
    obtain ⟨p', hreset, hrun⟩ := exists_of_bind_eq_ok hrun
    obtain ⟨run', hcalls, hrun⟩ := exists_of_bind_eq_ok hrun
    cases hrun
    exact ⟨t, p, run, ht, hreset, hcalls, beq_iff_eq.1 h⟩
  · cases h

/-- The text `x b`, a newline and ` b`. -/
theorem countsLines_iff_letters :
    ∃ t p run, letterSchema.generate id 40 = .ok t ∧ (LogParser.new t).reset t = .ok p ∧
      scanCalls t 20 5
        { lexer := p.lexer, input := bufferOf (sourceOf [120, 32, 98, 10, 32, 98] 6 true) } =
        .ok run ∧
      run.map (fun call => call.2.span) =
        [⟨0, 1, 0, [1]⟩, ⟨1, 3, 0, [7]⟩, ⟨3, 4, 1, [6]⟩, ⟨4, 6, 1, [7]⟩, ⟨6, 6, 1, [0]⟩] ∧
      (CountsLines (sourceOf [120, 32, 98, 10, 32, 98] 6 true) run ↔
        KeepsNewlines (sourceOf [120, 32, 98, 10, 32, 98] 6 true) run) := by
  have hcheck : checkLetters [120, 32, 98, 10, 32, 98]
      [⟨0, 1, 0, [1]⟩, ⟨1, 3, 0, [7]⟩, ⟨3, 4, 1, [6]⟩, ⟨4, 6, 1, [7]⟩, ⟨6, 6, 1, [0]⟩] = true := by
    decide +kernel
  obtain ⟨t, p, run, hgenerate, hreset, hrun, hspans⟩ := exists_of_checkLetters hcheck
  obtain ⟨run', hrun', hiff⟩ := countsLines_iff (fun _ => .refl _) hgenerate hreset (by decide)
    (holds_bufferOf (by decide) :
      (bufferOf (sourceOf [120, 32, 98, 10, 32, 98] 6 true)).Holds _) rfl rfl
    (by decide : 2 * (sourceOf [120, 32, 98, 10, 32, 98] 6 true).size + 1 < 20) 5
  have hsame : run' = run := Except.ok.inj (hrun'.symm.trans hrun)
  rw [hsame] at hiff
  exact ⟨t, p, run, hgenerate, hreset, hrun, hspans, hiff⟩

/-- The text `x`, a blank, a newline and ` b`: the newline is counted behind the
blank, and again when it is a token.  The variable at the end has line 2. -/
theorem not_countsLines_letters :
    ∃ t p run, letterSchema.generate id 40 = .ok t ∧ (LogParser.new t).reset t = .ok p ∧
      (bufferOf (sourceOf [120, 32, 10, 32, 98] 5 true)).Holds
        (sourceOf [120, 32, 10, 32, 98] 5 true) ∧
      scanCalls t 20 4
        { lexer := p.lexer, input := bufferOf (sourceOf [120, 32, 10, 32, 98] 5 true) } =
        .ok run ∧
      run.map (fun call => call.2.span) =
        [⟨0, 1, 0, [1]⟩, ⟨1, 2, 0, [1]⟩, ⟨2, 3, 2, [6]⟩, ⟨3, 5, 2, [7]⟩] ∧
      (sourceOf [120, 32, 10, 32, 98] 5 true).newlines 5 = 1 ∧
      ¬ CountsLines (sourceOf [120, 32, 10, 32, 98] 5 true) run := by
  have hcheck : checkLetters [120, 32, 10, 32, 98]
      [⟨0, 1, 0, [1]⟩, ⟨1, 2, 0, [1]⟩, ⟨2, 3, 2, [6]⟩, ⟨3, 5, 2, [7]⟩] = true := by
    decide +kernel
  obtain ⟨t, p, run, hgenerate, hreset, hrun, hspans⟩ := exists_of_checkLetters hcheck
  have hlines : (sourceOf [120, 32, 10, 32, 98] 5 true).newlines 5 = 1 := by decide
  refine ⟨t, p, run, hgenerate, hreset, holds_bufferOf (by decide), hrun, hspans, hlines, ?_⟩
  intro hcounts
  have hmem : (⟨3, 5, 2, [7]⟩ : Span) ∈ run.map fun call => call.2.span := by
    rw [hspans]
    decide
  obtain ⟨call, hcall, hspan⟩ := List.mem_map.1 hmem
  have hline := hcounts call hcall (by
    have htypes : call.2.typeIds.getD [] = [7] := congrArg Span.typeIds hspan
    rw [htypes]
    decide)
  have hlineNum : call.2.lineNum = 2 := congrArg Span.lineNum hspan
  have hendPos : call.2.endPos = 5 := congrArg Span.endPos hspan
  rw [hlineNum, hendPos, hlines] at hline
  omega

end Scanner

end LogSurgeon
