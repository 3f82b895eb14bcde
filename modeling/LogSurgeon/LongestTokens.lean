import LogSurgeon.EventTexts
import LogSurgeon.LexerPieces

/-!
# The longest match

The lexer never looks for the longest match at a position.  It notes matches and
delimiters while it reads, and goes back to them.  But where a newline is a
delimiter, every delimiter starts a variable and no match goes on behind a
newline, the tokens that it returns are the longest matches, and the text up to
the next delimiter where there is none (`scanPieces_eq_referenceTokens`).

* `referenceTokens` is the tokenizer that looks for the longest match.
* `Longest` is the invariant of the loop: which matches of the run have been
  noted, and that the text before the run has none.
-/

namespace LogSurgeon

/-! ## The reference tokenizer -/

section Reference

variable (t : LexerTables) (src : Source)

/-- A match of the text from `l` may end at the position.  A newline at `l` is a
match of length one. -/
def mayEnd (l e : Nat) : Bool :=
  e == src.size || t.isDelimiter (src.bytes e).toNat || (e == l + 1 && src.bytes l == 10)

/-- The variables that the text from `l` to `e` matches, for a run of the DFA that
begins in the state `base`. -/
def matchIds (base l e : Nat) : List Nat :=
  if mayEnd t src l e then (t.dfa.run base (src.word l e)).elim [] t.dfa.typeIds else []

/-- The end of the longest match of at most `count` characters. -/
def longestEnd (base l : Nat) : Nat → Option Nat
  | 0 => if matchIds t src base l l ≠ [] then some l else none
  | count + 1 =>
    if matchIds t src base l (l + (count + 1)) ≠ [] then some (l + (count + 1))
    else longestEnd base l count

/-- The first delimiter of the next `count` characters. -/
def nextDelimiter : Nat → Nat → Nat
  | 0, p => p
  | count + 1, p => if t.isDelimiter (src.bytes p).toNat then p else nextDelimiter count (p + 1)

/-- The end and the types of the token from `l`. -/
def referenceToken (base l : Nat) : Nat × List Nat :=
  match longestEnd t src base l (src.size - l) with
  | some e => (e, matchIds t src base l e)
  | none => (nextDelimiter t src (src.size - (l + 1)) (l + 1), cTokenUncaughtStringTypes)

/-- The next `count` tokens: the start, the end and the types of each. -/
def referenceTokens : Nat → Nat → Nat → List (Nat × Nat × List Nat)
  | 0, _, _ => []
  | count + 1, base, l =>
    if l < src.size then
      (l, referenceToken t src base l) ::
        referenceTokens count t.dfa.getRoot (referenceToken t src base l).1
    else []

end Reference

namespace Cursor

variable {t : LexerTables} {src : Source} {opening : Option Opening} {c c' : Cursor}
  {base l e m : Nat} {ids ids' : List Nat}

/-! ## Matches -/

/-- The text from `l` to `e` matches the variables. -/
structure MatchesAt (t : LexerTables) (src : Source) (base l e : Nat) (ids : List Nat) :
    Prop where
  le : l ≤ e
  le_size : e ≤ src.size
  run : ∃ p, t.dfa.run base (src.word l e) = some p ∧ t.dfa.typeIds p = ids
  ne_nil : ids ≠ []
  ends : e = src.size ∨ t.isDelimiter (src.bytes e).toNat ∨ e = l + 1 ∧ src.bytes l = 10

/-- The state in which the run of the DFA at a position begins. -/
def baseOf (t : LexerTables) (opening : Option Opening) (l : Nat) : Nat :=
  if l = 0 then opening.elim t.dfa.getRoot (·.state) else t.dfa.getRoot

theorem baseOf_none (t : LexerTables) (l : Nat) : baseOf t none l = t.dfa.getRoot := by
  unfold baseOf
  split <;> rfl

theorem baseOf_pos (t : LexerTables) (opening : Option Opening) (hl : 0 < l) :
    baseOf t opening l = t.dfa.getRoot := if_neg hl.ne'

/-- The matches from `l`. -/
def Matches (t : LexerTables) (src : Source) (opening : Option Opening) (l e : Nat)
    (ids : List Nat) : Prop := MatchesAt t src (baseOf t opening l) l e ids

/-- The longest match from `l`. -/
structure LongestAt (t : LexerTables) (src : Source) (opening : Option Opening) (l e : Nat)
    (ids : List Nat) : Prop where
  isMatch : Matches t src opening l e ids
  longest : ∀ e' ids', e < e' → ¬ Matches t src opening l e' ids'

/-- What the lexer relies on to find the longest matches: a newline is a
delimiter, a delimiter starts a variable, no match goes on behind a newline, and
the text does not start with a delimiter. -/
structure Regular (t : LexerTables) (src : Source) (opening : Option Opening) : Prop where
  newline : t.isDelimiter 10
  boundary : ∀ b : UInt8, t.isDelimiter b.toNat → t.isFirstCharOfAVariable b.toNat
  inner : ∀ w p, t.dfa.run t.dfa.getRoot w = some p → t.dfa.typeIds p ≠ [] → 10 ∉ w.tail
  first : ∀ o, opening = some o → o.offset = 0 ∧ 0 < src.size ∧
    ¬ t.isDelimiter (src.bytes 0).toNat ∧
    ∀ w p, t.dfa.run o.state w = some p → t.dfa.typeIds p ≠ [] → 10 ∉ w

theorem Regular.none (h : Regular t src opening) : Regular t src none :=
  ⟨h.newline, h.boundary, h.inner, fun o ho => by cases ho⟩

theorem Regular.boundary_iff (h : Regular t src opening) (p : Nat) :
    Boundary t src p ↔ t.isDelimiter (src.bytes p).toNat :=
  and_iff_right_of_imp (h.boundary _)

theorem Regular.readsFrom (h : Regular t src opening) : readsFrom opening = 0 := by
  cases opening with
  | none => rfl
  | some o => exact (h.first o rfl).1

/-- A position where the run does not begin in the root has no delimiter. -/
theorem Regular.baseOf_of_delimiter (h : Regular t src opening)
    (hdelimiter : l < src.size → t.isDelimiter (src.bytes l).toNat) :
    baseOf t opening l = t.dfa.getRoot := by
  unfold baseOf
  split
  · rename_i hzero
    cases opening with
    | none => rfl
    | some o =>
      obtain ⟨-, hpos, hno, -⟩ := h.first o rfl
      rw [hzero] at hdelimiter
      exact absurd (hdelimiter hpos) hno
  · rfl

/-- No match goes on behind a newline. -/
theorem Regular.not_newline (h : Regular t src opening) (hmatches : Matches t src opening l e ids)
    {p : Nat} (hlt : l < p) (hp : p < e) : src.bytes p ≠ 10 := by
  intro hnewline
  obtain ⟨q, hrun, hids⟩ := hmatches.run
  have haccepts : t.dfa.typeIds q ≠ [] := by
    rw [hids]
    exact hmatches.ne_nil
  have hmem : ∀ i, i ≤ p → (10 : UInt8) ∈ src.word i e :=
    fun i hi => Source.mem_word.2 ⟨p, hi, hp, hnewline⟩
  by_cases hroot : baseOf t opening l = t.dfa.getRoot
  · rw [hroot] at hrun
    refine h.inner _ _ hrun haccepts ?_
    rw [Source.tail_word]
    exact hmem _ hlt
  · unfold baseOf at hrun hroot
    split at hroot
    · rename_i hzero
      cases opening with
      | none => exact hroot rfl
      | some o =>
        rw [if_pos hzero] at hrun
        exact (h.first o rfl).2.2.2 _ _ hrun haccepts (hmem _ hlt.le)
    · exact hroot rfl

/-- A match from the start is not empty. -/
theorem Regular.lt (ht : t.WellFormed) (h : Regular t src opening)
    (hmatches : Matches t src opening l e ids) (hsize : l < src.size) : l < e := by
  refine Nat.lt_of_le_of_ne hmatches.le ?_
  rintro rfl
  obtain ⟨q, hrun, hids⟩ := hmatches.run
  rw [Source.word_self] at hrun
  have hends := hmatches.ends
  have hdelimiter : t.isDelimiter (src.bytes l).toNat := by
    rcases hends with heq | hdelimiter | ⟨heq, -⟩
    · omega
    · exact hdelimiter
    · omega
  rw [h.baseOf_of_delimiter fun _ => hdelimiter] at hrun
  cases hrun
  exact hmatches.ne_nil (hids.symm.trans ht.root)

/-! ## The loop -/

/-- The invariant of the loop. -/
structure Longest (t : LexerTables) (src : Source) (opening : Option Opening) (c : Cursor) :
    Prop where
  state : c.state = t.dfa.run (baseOf t opening c.startPos) (src.word c.startPos c.pos)
  matched : ∀ m ids, c.matched = some (m, ids) → Matches t src opening c.startPos m ids ∧
    ∀ e ids', m < e → e < c.pos → ¬ Matches t src opening c.startPos e ids'
  unmatched : c.matched = none → ∀ e ids, e < c.pos → ¬ Matches t src opening c.startPos e ids
  newline : c.startPos < c.pos → src.bytes c.startPos = 10 → c.matched ≠ none
  before : c.lastMatchPos < c.startPos → ∀ e ids, ¬ Matches t src opening c.lastMatchPos e ids

/-- A match that ends at the position, behind another one, is noted when the
character is read. -/
theorem Longest.matched_of_matches (h : Longest t src opening c) (hpos : c.pos ≤ src.size)
    (hmatches : Matches t src opening c.startPos c.pos ids)
    (hnewline : ¬ (c.pos = c.startPos + 1 ∧ src.bytes c.startPos = 10)) :
    (c.readChar t src).matched = some (c.pos, c.typeIds t) := by
  obtain ⟨q, hrun, hids⟩ := hmatches.run
  rw [← h.state] at hrun
  have htypes : c.typeIds t = ids := by
    unfold Cursor.typeIds
    rw [hrun]
    exact hids
  have hends := hmatches.ends
  rw [matched_readChar, if_pos]
  refine ⟨?_, htypes ▸ hmatches.ne_nil⟩
  rcases hends with heq | hdelimiter | hno
  · exact Or.inr heq
  · rcases Nat.lt_or_eq_of_le hpos with hlt | heq
    · rw [Source.charAt_of_lt hlt]
      exact Or.inl hdelimiter
    · exact Or.inr heq
  · exact absurd hno hnewline

/-- Without a match behind the character, no match ends up to it. -/
theorem Longest.unmatched_readChar (h : Longest t src opening c) (hpos : c.pos ≤ src.size)
    (hmatched : (c.readChar t src).matched = none) :
    ∀ e ids, e ≤ c.pos → ¬ Matches t src opening c.startPos e ids := by
  intro e ids hle hmatches
  have hnone := matched_of_matched_readChar hmatched
  rcases Nat.lt_or_eq_of_le hle with hlt | rfl
  · exact h.unmatched hnone e ids hlt hmatches
  · rw [h.matched_of_matches hpos hmatches] at hmatched
    · cases hmatched
    · rintro ⟨heq, hnewline⟩
      exact h.newline (by omega) hnewline hnone

/-- The match behind the character is the longest one up to it. -/
theorem Longest.matched_readChar (ht : t.WellFormed) (hreg : Regular t src opening)
    (h : Longest t src opening c) (hscanning : Scanning t src opening c)
    (hmatched : (c.readChar t src).matched = some (m, ids)) :
    Matches t src opening c.startPos m ids ∧
      ∀ e ids', m < e → e ≤ c.pos → ¬ Matches t src opening c.startPos e ids' := by
  have hsize := hscanning.pos_le
  by_cases hrecord : (t.isDelimiter (src.charAt c.pos).toNat ∨ c.pos = src.size) ∧ c.typeIds t ≠ []
  · rw [Cursor.matched_readChar, if_pos hrecord] at hmatched
    cases hmatched
    obtain ⟨hends, haccepts⟩ := hrecord
    refine ⟨⟨hscanning.start_le, hsize, ?_, haccepts, ?_⟩, fun e ids' hlt hle => by omega⟩
    · cases hp : c.state with
      | none =>
        unfold Cursor.typeIds at haccepts
        rw [hp] at haccepts
        exact absurd rfl haccepts
      | some p =>
        refine ⟨p, h.state.symm.trans hp, ?_⟩
        unfold Cursor.typeIds
        rw [hp]
        rfl
    · rcases Nat.lt_or_eq_of_le hsize with hlt | heq
      · rw [Source.charAt_of_lt hlt] at hends
        exact Or.inr (Or.inl (hends.resolve_right hlt.ne))
      · exact Or.inl heq
  · have hold : c.matched = some (m, ids) := by
      rwa [Cursor.matched_readChar, if_neg hrecord] at hmatched
    obtain ⟨hmatches, hlongest⟩ := h.matched m ids hold
    refine ⟨hmatches, fun e ids' hlt hle hother => ?_⟩
    rcases Nat.lt_or_eq_of_le hle with hbefore | rfl
    · exact hlongest e ids' hlt hbefore hother
    · by_cases hnewline : c.pos = c.startPos + 1 ∧ src.bytes c.startPos = 10
      · have hstart := hreg.lt ht hmatches (by omega)
        omega
      · have hnoted := h.matched_of_matches hsize hother hnewline
        rw [hmatched] at hnoted
        cases hnoted
        exact Nat.lt_irrefl _ hlt

/-- Where the run of the DFA ends, no match goes on. -/
theorem Longest.dead (h : Longest t src opening c) (hscanning : Scanning t src opening c)
    (hend : c.pos = src.size ∨ (c.readChar t src).state = none) :
    ∀ e ids, c.pos < e → ¬ Matches t src opening c.startPos e ids := by
  intro e ids hlt hmatches
  have hsize := hmatches.le_size
  have hpos : c.pos < src.size := hlt.trans_le hsize
  obtain ⟨q, hrun, -⟩ := hmatches.run
  have hnone := hend.resolve_left hpos.ne
  rw [run_readChar hscanning.start_le hpos h.state] at hnone
  have hle : c.startPos ≤ c.pos + 1 := hscanning.start_le.trans (Nat.le_succ _)
  rw [← Source.word_append src hle hlt, Dfa.run_append, hnone] at hrun
  cases hrun

/-- Where the run ends without a match, there is none. -/
theorem Longest.none_of_end (h : Longest t src opening c) (hscanning : Scanning t src opening c)
    (hmatched : (c.readChar t src).matched = none)
    (hend : c.pos = src.size ∨ (c.readChar t src).state = none) :
    ∀ e ids, ¬ Matches t src opening c.lastMatchPos e ids := by
  rcases Nat.lt_or_eq_of_le hscanning.last_le with hlt | heq
  · exact h.before hlt
  · rw [heq]
    intro e ids
    rcases Nat.lt_or_ge c.pos e with hlt | hge
    · exact h.dead hscanning hend e ids hlt
    · exact h.unmatched_readChar hscanning.pos_le hmatched e ids hge

/-- Where the run ends with a match, it is the longest one. -/
theorem Longest.longestAt_of_end (ht : t.WellFormed) (hreg : Regular t src opening)
    (h : Longest t src opening c) (hscanning : Scanning t src opening c)
    (hmatched : (c.readChar t src).matched = some (m, ids))
    (hend : c.pos = src.size ∨ (c.readChar t src).state = none) :
    LongestAt t src opening c.startPos m ids := by
  obtain ⟨hmatches, hlongest⟩ := h.matched_readChar ht hreg hscanning hmatched
  refine ⟨hmatches, fun e ids' hlt => ?_⟩
  rcases Nat.lt_or_ge c.pos e with hlt' | hge
  · exact h.dead hscanning hend e ids' hlt'
  · exact hlongest e ids' hlt hge

/-- A newline matches its rule. -/
theorem exists_run_newline (ht : t.WellFormed) {p : Nat} (hbyte : src.bytes p = 10) :
    ∃ q ids, t.dfa.run t.dfa.getRoot (src.word p (p + 1)) = some q ∧
      t.dfa.typeIds q = SymbolId.tokenNewline.toNat :: ids ∧
      (c.root t).nextState t 10 = some q := by
  obtain ⟨transition, ids, htransition, hids⟩ := ht.newline
  have hread : t.dfa.transition? t.dfa.getRoot (10 : UInt8).toNat = some transition := htransition
  refine ⟨transition.destState, ids, ?_, hids, ?_⟩
  · rw [Source.word_succ src (Nat.le_refl _), Source.word_self, List.nil_append, hbyte,
      Dfa.run_cons, hread]
    rfl
  · show (t.dfa.transition? t.dfa.getRoot (10 : UInt8).toNat).map _ = _
    rw [hread]
    rfl

theorem Longest.startAtNewline (ht : t.WellFormed) (hreg : Regular t src opening)
    (h : Longest t src opening c) (hscanning : Scanning t src opening c)
    (hchar : src.charAt c.pos = 10) (hstart : (c.readChar t src).StartsAtNewline c.pos) :
    Longest t src opening ((c.readChar t src).startAtNewline t 10 c.pos) := by
  obtain ⟨hlt, hbyte⟩ := lt_size_of_newline hscanning hchar
  have hunmatched := h.unmatched_readChar hscanning.pos_le hstart.2
  have hpos : (c.readChar t src).pos = c.pos + 1 := by rw [pos_readChar, if_pos hlt]
  have hlast := lastMatchPos_readChar t src c
  generalize c.readChar t src = d at hpos hlast
  obtain ⟨q, ids, hrun, hids, hnext⟩ := @exists_run_newline t src d ht _ hbyte
  have hbase : baseOf t opening c.pos = t.dfa.getRoot := by
    refine hreg.baseOf_of_delimiter fun _ => ?_
    rw [hbyte]
    exact hreg.newline
  constructor
  · rw [state_startAtNewline, startPos_startAtNewline, pos_startAtNewline, hnext, hpos, hbase, hrun]
  · intro m ids' hmatched
    rw [matched_startAtNewline, hnext, hpos] at hmatched
    cases hmatched
    rw [startPos_startAtNewline, pos_startAtNewline, hpos]
    refine ⟨⟨Nat.le_succ _, hlt, ?_, ?_, Or.inr (Or.inr ⟨rfl, hbyte⟩)⟩,
      fun e ids' hlt' hlt'' => by omega⟩
    · rw [hbase]
      exact ⟨q, hrun, rfl⟩
    · rw [Option.elim_some, hids]
      exact List.cons_ne_nil _ _
  · intro hmatched
    cases hmatched
  · intro _ _ hmatched
    cases hmatched
  · intro hbefore e ids'
    rw [startPos_startAtNewline, lastMatchPos_startAtNewline, hlast] at hbefore
    rw [lastMatchPos_startAtNewline, hlast]
    rcases Nat.lt_or_eq_of_le hscanning.last_le with hlt' | heq
    · exact h.before hlt' e ids'
    · rw [heq] at hbefore ⊢
      intro hmatches
      rcases Nat.lt_or_ge c.pos e with hlt' | hge
      · exact hreg.not_newline hmatches hbefore hlt' hbyte
      · exact hunmatched e ids' hge hmatches

theorem Longest.readChar (ht : t.WellFormed) (hreg : Regular t src opening)
    (h : Longest t src opening c) (hscanning : Scanning t src opening c)
    (hstart : ¬ (src.charAt c.pos = 10 ∧ (c.readChar t src).StartsAtNewline c.pos))
    (hne : c.pos ≠ src.size) : Longest t src opening (c.readChar t src) := by
  have hlt : c.pos < src.size := Nat.lt_of_le_of_ne hscanning.pos_le hne
  have hpos : (c.readChar t src).pos = c.pos + 1 := by rw [pos_readChar, if_pos hlt]
  constructor
  · rw [startPos_readChar, hpos]
    exact run_readChar hscanning.start_le hlt h.state
  · intro m ids hmatched
    obtain ⟨hmatches, hlongest⟩ := h.matched_readChar ht hreg hscanning hmatched
    rw [startPos_readChar, hpos]
    exact ⟨hmatches, fun e ids' hm he => hlongest e ids' hm (Nat.le_of_lt_succ he)⟩
  · intro hmatched e ids he
    rw [hpos] at he
    rw [startPos_readChar]
    exact h.unmatched_readChar hscanning.pos_le hmatched e ids (Nat.le_of_lt_succ he)
  · intro hbefore hnewline hmatched
    rw [startPos_readChar] at hnewline
    rw [startPos_readChar, hpos] at hbefore
    rcases Nat.lt_or_eq_of_le (Nat.le_of_lt_succ hbefore) with hlt' | heq
    · exact h.newline hlt' hnewline (matched_of_matched_readChar hmatched)
    · -- a delimiter before the newline would lie in the text before the run
      have hread : readsFrom opening ≤ c.startPos := by
        rw [hreg.readsFrom]
        exact Nat.zero_le _
      obtain ⟨f, hf, hlt'⟩ := hscanning.newline_readChar hstart hreg.newline hmatched hlt hread
        hscanning.last_le (by omega) hnewline
      obtain ⟨hlast, -, hdelimiter, -⟩ := hscanning.firstDelimiterPos_readChar hf
      obtain ⟨-, hplain⟩ := hscanning.beforeStart (hlast.trans hlt')
      refine hplain.unbroken f ?_ hlast hlt' ((hreg.boundary_iff f).2 ?_)
      · rw [hreg.readsFrom]
        exact Nat.zero_le _
      · exact hdelimiter.resolve_left (by omega)
  · rw [lastMatchPos_readChar, startPos_readChar]
    exact h.before

theorem Longest.skip (hreg : Regular t src opening) (h : Longest t src opening c)
    (hscanning : Scanning t src opening c) (hmatched : (c.readChar t src).matched = none)
    (hend : c.pos = src.size ∨ (c.readChar t src).state = none) {q : Nat}
    (hskip : SkipsTo t src c.pos q) :
    Longest t src opening { (c.readChar t src).root t with pos := q, startPos := q } := by
  have hbase : baseOf t opening q = t.dfa.getRoot :=
    hreg.baseOf_of_delimiter fun hlt => (hskip.stops hlt).2
  have hnone := h.none_of_end hscanning hmatched hend
  constructor
  · show some t.dfa.getRoot = t.dfa.run (baseOf t opening q) (src.word q q)
    rw [hbase, Source.word_self]
    rfl
  · intro m ids hm
    have hm : (c.readChar t src).matched = some (m, ids) := hm
    rw [hmatched] at hm
    cases hm
  · intro _ e ids he hmatches
    have hle : q ≤ e := hmatches.le
    have he : e < q := he
    omega
  · intro hlt
    exact absurd hlt (Nat.lt_irrefl q)
  · intro _
    show ∀ e ids, ¬ Matches t src opening (c.readChar t src).lastMatchPos e ids
    rw [lastMatchPos_readChar]
    exact hnone

/-- A step of the loop keeps its invariant. -/
theorem Longest.step (ht : t.WellFormed) (hreg : Regular t src opening)
    (h : Longest t src opening c) (hscanning : Scanning t src opening c)
    (hstep : c.step t src = (c', none)) : Longest t src opening c' := by
  rcases step_cases hstep with ⟨hchar, hstart, rfl⟩ |
    ⟨hstart, ⟨hne, -, rfl⟩ | ⟨hend, hmatched, -, -, rfl⟩⟩
  · exact h.startAtNewline ht hreg hscanning hchar hstart
  · exact h.readChar ht hreg hscanning hstart hne
  · exact h.skip hreg hscanning hmatched hend (skipTo_spec t hscanning.pos_le)

/-! ## Tokens -/

/-- The token from `l` that the reference tokenizer returns, or the end of the
input. -/
inductive IsReference (t : LexerTables) (src : Source) (opening : Option Opening) (l : Nat) :
    Span → Prop where
  | longest {e line : Nat} {ids : List Nat} (hlongest : LongestAt t src opening l e ids) :
      IsReference t src opening l ⟨l, e, line, ids⟩
  | text {d line : Nat} (hnone : ∀ e ids, ¬ Matches t src opening l e ids) (hlt : l < d)
      (hle : d ≤ src.size) (hends : d = src.size ∨ t.isDelimiter (src.bytes d).toNat)
      (hfirst : ∀ p, l < p → p < d → ¬ t.isDelimiter (src.bytes p).toNat) :
      IsReference t src opening l ⟨l, d, line, cTokenUncaughtStringTypes⟩
  | input {line : Nat} (hend : l = src.size) :
      IsReference t src opening l ⟨l, l, line, cTokenEndTypes⟩

/-- A match that is kept for the next call is the longest one, or the end of the
input. -/
def KeepsLongest (t : LexerTables) (src : Source) (c : Cursor) : Prop :=
  ∀ m ids, c.matched = some (m, ids) → LongestAt t src none c.startPos m ids ∨
    c.startPos = src.size ∧ m = src.size ∧ ids = cTokenEndTypes

theorem keepsLongest_of_none (h : c.matched = none) : c.KeepsLongest t src := by
  intro m ids hm
  rw [h] at hm
  cases hm

/-- Behind the first position, the opening does not count. -/
theorem LongestAt.of_pos (h : LongestAt t src opening l e ids) (hl : 0 < l) :
    LongestAt t src none l e ids := by
  have hsame : ∀ e ids, Matches t src none l e ids ↔ Matches t src opening l e ids := by
    intro e ids
    unfold Matches
    rw [baseOf_none, baseOf_pos t opening hl]
  exact ⟨(hsame e ids).2 h.isMatch, fun e' ids' hlt hmatches =>
    h.longest e' ids' hlt ((hsame e' ids').1 hmatches)⟩

/-- The text before the run ends at the first delimiter. -/
theorem isReference_before (hreg : Regular t src opening) (h : Longest t src opening c)
    (hscanning : Scanning t src opening c) (hlt : c.lastMatchPos < c.startPos) (line : Nat) :
    IsReference t src opening c.lastMatchPos
      ⟨c.lastMatchPos, c.startPos, line, cTokenUncaughtStringTypes⟩ := by
  obtain ⟨hends, hplain⟩ := hscanning.beforeStart hlt
  refine .text (h.before hlt) hlt (hscanning.start_le.trans hscanning.pos_le) ?_
    fun p hlast hp hdelimiter => hplain.unbroken p ?_ hlast hp ((hreg.boundary_iff p).2 hdelimiter)
  · rcases hends with hsize | hdelimiter | hnewline
    · exact Or.inl hsize
    · exact Or.inr hdelimiter
    · rw [hnewline]
      exact Or.inr hreg.newline
  · rw [hreg.readsFrom]
    exact Nat.zero_le p

/-- A step that returns a token returns that of the reference. -/
theorem Longest.finish (ht : t.WellFormed) (hreg : Regular t src opening)
    (h : Longest t src opening c) (hscanning : Scanning t src opening c) {span : Span}
    (hstep : c.step t src = (c', some (.ok span))) :
    IsReference t src opening c.lastMatchPos span ∧ c'.KeepsLongest t src := by
  obtain ⟨-, hend, hfinishes⟩ := step_ok hstep
  have hlongest : ∀ {m ids}, (c.readChar t src).matched = some (m, ids) →
      LongestAt t src opening c.startPos m ids := fun hmatched =>
    h.longestAt_of_end ht hreg hscanning hmatched hend
  have hnone := fun hmatched => h.none_of_end hscanning hmatched hend
  have hfirst := @Scanning.firstDelimiterPos_readChar _ _ _ _ hscanning
  have hbefore : c.lastMatchPos ≠ c.startPos → c.lastMatchPos < c.startPos :=
    Nat.lt_of_le_of_ne hscanning.last_le
  have htext := fun hne => isReference_before hreg h hscanning (hbefore hne)
  have hlast := lastMatchPos_readChar t src c
  have hstart := startPos_readChar t src c
  have hpos := pos_readChar t src c
  generalize c.readChar t src = d at hfinishes hlongest hnone hfirst hlast hstart hpos hend
  cases hfinishes with
  | @beforeMatch m ids hmatched hne =>
    rw [hlast, hstart] at hne ⊢
    refine ⟨htext hne _, fun m' ids' hmatched' => Or.inl ?_⟩
    have hmatched' : d.matched = some (m', ids') := hmatched'
    show LongestAt t src none c.startPos m' ids'
    exact (hlongest hmatched').of_pos (Nat.zero_lt_of_lt (hbefore hne))
  | @«match» m ids hmatched heq =>
    rw [hlast, hstart] at heq
    rw [hstart, heq]
    exact ⟨.longest (hlongest hmatched), keepsLongest_of_none rfl⟩
  | lastText hmatched hsize hpos' hne hno =>
    have hstop : d.startPos = src.size := by
      rw [← hpos', hpos, hsize, if_neg (Nat.lt_irrefl _)]
    rw [hlast, hstart] at hne
    refine ⟨?_, fun m ids hm => Or.inr ?_⟩
    · rw [hlast, hstart]
      exact htext hne _
    · cases hm
      exact ⟨hstop, hpos'.trans hstop, rfl⟩
  | input hmatched hsize hpos' heq =>
    have hstop : c'.startPos = src.size := by
      rw [← hpos', hpos, hsize, if_neg (Nat.lt_irrefl _)]
    rw [hlast] at heq
    refine ⟨?_, keepsLongest_of_none hmatched⟩
    rw [heq, hpos']
    exact .input hstop
  | text hmatched hf hne =>
    obtain ⟨hlt, hle, hends, hunbroken⟩ := hfirst hf
    refine ⟨?_, keepsLongest_of_none hmatched⟩
    rw [hlast]
    refine .text (hnone hmatched) hlt (hle.trans hscanning.pos_le) hends
      fun p hp hp' hdelimiter => hunbroken p ?_ hp hp' ((hreg.boundary_iff p).2 hdelimiter)
    rw [hreg.readsFrom]
    exact Nat.zero_le p

theorem Longest.loops (ht : t.WellFormed) (hreg : Regular t src opening)
    (h : Longest t src opening c) (hscanning : Scanning t src opening c) {span : Span}
    (hloops : Loops t src c c' (.ok span)) :
    IsReference t src opening c.lastMatchPos span ∧ c'.KeepsLongest t src := by
  generalize hresult : (Except.ok span : Result) = result at hloops
  induction hloops with
  | stop hstep =>
    rw [← hresult] at hstep
    exact h.finish ht hreg hscanning hstep
  | @next c c' c'' result hstep _ ih =>
    have hlast : c'.lastMatchPos = c.lastMatchPos := by
      rcases step_cases hstep with ⟨-, -, rfl⟩ | ⟨-, ⟨-, -, rfl⟩ | ⟨-, -, -, -, rfl⟩⟩
      · exact lastMatchPos_readChar t src c
      · exact lastMatchPos_readChar t src c
      · exact lastMatchPos_readChar t src c
    rw [← hlast]
    exact ih (h.step ht hreg hscanning hstep) (hscanning.step ht hstep) hresult

/-! ## Calls -/

/-- The loop starts where the last token ended. -/
theorem longest_begin (h : c.Rested t src) (hmatched : c.matched = none) :
    Longest t src none (c.begin t) := by
  have hstart : (c.begin t).startPos = (c.begin t).pos := rfl
  have hlast : (c.begin t).lastMatchPos = (c.begin t).startPos := (h.idle hmatched).1.symm
  constructor
  · rw [hstart, baseOf_none, Source.word_self]
    rfl
  · intro m ids hm
    have hm : c.matched = some (m, ids) := hm
    rw [hmatched] at hm
    cases hm
  · intro _ e ids he hmatches
    have hle := hmatches.le
    omega
  · intro hlt
    omega
  · intro hlt
    omega

/-- A call between two tokens returns that of the reference. -/
theorem Rested.scans_longest (ht : t.WellFormed) (hreg : Regular t src none) (h : c.Rested t src)
    (hkeeps : c.KeepsLongest t src) {span : Span} (hscans : Scans t src c c' (.ok span)) :
    IsReference t src none c.emitted span ∧ c'.KeepsLongest t src := by
  have hasked : ¬ c.askedForMoreData = true := by
    rw [h.notAsked]
    exact Bool.false_ne_true
  cases hmatched : c.matched with
  | none =>
    rw [scans_of_begin hasked hmatched] at hscans
    rw [emitted_of_none hmatched]
    exact (longest_begin h hmatched).loops ht hreg (h.scanning_begin hmatched) hscans
  | some pair =>
    obtain ⟨m, ids⟩ := pair
    rw [scans_of_matched hasked hmatched] at hscans
    rw [emitted_of_matched hmatched]
    obtain ⟨rfl, hresult⟩ := hscans
    cases hresult
    refine ⟨?_, keepsLongest_of_none rfl⟩
    show IsReference t src none c.startPos ⟨c.startPos, m, c.matchLine, ids⟩
    rcases hkeeps m ids hmatched with hlongest | ⟨hstart, rfl, rfl⟩
    · exact .longest hlongest
    · rw [hstart]
      exact .input rfl

/-- The first call returns the token of the reference. -/
theorem Opened.scans_longest (ht : t.WellFormed) {o : Opening} (hreg : Regular t src (some o))
    (h : c.Opened t src o) {span : Span} (hscans : Scans t src c c' (.ok span)) :
    IsReference t src (some o) 0 span ∧ c'.KeepsLongest t src := by
  rw [scans_of_asked h.asked] at hscans
  obtain ⟨hoffset, -⟩ := hreg.first o rfl
  have hlongest : Longest t src (some o) { c with askedForMoreData := false } := by
    have hpos : c.pos = c.startPos := h.pos.trans (hoffset.trans h.startPos.symm)
    constructor
    · show c.state = t.dfa.run (baseOf t (some o) c.startPos) (src.word c.startPos c.pos)
      rw [hpos, Source.word_self, h.state, h.startPos]
      rfl
    · intro m ids hm
      have hm : c.matched = some (m, ids) := hm
      rw [h.matched] at hm
      cases hm
    · intro _ e ids he hmatches
      have hle : c.startPos ≤ e := hmatches.le
      have he : e < c.pos := he
      omega
    · intro hlt
      have hlt : c.startPos < c.pos := hlt
      omega
    · intro hlt
      have hlt : c.lastMatchPos < c.startPos := hlt
      rw [h.lastMatchPos, h.startPos] at hlt
      cases hlt
  have hreference := hlongest.loops ht hreg h.scanning hscans
  have hlast : ({ c with askedForMoreData := false } : Cursor).lastMatchPos = 0 := h.lastMatchPos
  rwa [hlast] at hreference

/-- A call returns the token of the reference, and the next one starts behind it. -/
theorem At.scans_longest (ht : t.WellFormed) {q : Nat} (hreg : Regular t src opening)
    (h : c.At t src opening q) (hkeeps : c.KeepsLongest t src) {span : Span}
    (hscans : Scans t src c c' (.ok span)) :
    IsReference t src opening q span ∧ c'.KeepsLongest t src := by
  cases h with
  | opened h => exact h.scans_longest ht hreg hscans
  | rested h => exact h.scans_longest ht hreg hkeeps hscans

/-! ## The reference is computed -/

theorem MatchesAt.matchIds_eq (h : MatchesAt t src base l e ids) :
    matchIds t src base l e = ids := by
  obtain ⟨p, hrun, hids⟩ := h.run
  have hends : mayEnd t src l e = true := by
    have hends := h.ends
    unfold mayEnd
    simpa [or_assoc] using hends
  unfold matchIds
  rw [if_pos hends, hrun]
  exact hids

theorem matchesAt_matchIds (hle : l ≤ e) (hsize : e ≤ src.size)
    (hne : matchIds t src base l e ≠ []) :
    MatchesAt t src base l e (matchIds t src base l e) := by
  by_cases hends : mayEnd t src l e = true
  · unfold matchIds at hne ⊢
    rw [if_pos hends] at hne ⊢
    cases hrun : t.dfa.run base (src.word l e) with
    | none =>
      rw [hrun] at hne
      exact absurd rfl hne
    | some p =>
      rw [hrun] at hne
      refine ⟨hle, hsize, ⟨p, hrun, rfl⟩, hne, ?_⟩
      unfold mayEnd at hends
      simpa [or_assoc] using hends
  · unfold matchIds at hne
    rw [if_neg hends] at hne
    exact absurd rfl hne

theorem longestEnd_of_matchesAt (h : MatchesAt t src base l e ids)
    (hlongest : ∀ e' ids', e < e' → ¬ MatchesAt t src base l e' ids') {count : Nat}
    (hle : e ≤ l + count) (hcount : l + count ≤ src.size) :
    longestEnd t src base l count = some e := by
  have hne : matchIds t src base l e ≠ [] := by
    rw [h.matchIds_eq]
    exact h.ne_nil
  induction count with
  | zero =>
    have heq : e = l := Nat.le_antisymm hle h.le
    rw [heq] at hne ⊢
    exact if_pos hne
  | succ count ih =>
    unfold longestEnd
    by_cases heq : e = l + (count + 1)
    · rw [← heq]
      exact if_pos hne
    · have hlt : e < l + (count + 1) := Nat.lt_of_le_of_ne hle heq
      rw [if_neg]
      · exact ih (by omega) (by omega)
      · intro hmatches
        exact hlongest _ _ hlt (matchesAt_matchIds (Nat.le_add_right _ _) hcount hmatches)

theorem longestEnd_eq_none (h : ∀ e ids, ¬ MatchesAt t src base l e ids) {count : Nat}
    (hcount : l + count ≤ src.size) : longestEnd t src base l count = none := by
  induction count with
  | zero =>
    refine if_neg ?_
    intro hmatches
    exact h _ _ (matchesAt_matchIds (Nat.le_refl l) hcount hmatches)
  | succ count ih =>
    unfold longestEnd
    rw [if_neg]
    · exact ih (by omega)
    · intro hmatches
      exact h _ _ (matchesAt_matchIds (Nat.le_add_right _ _) hcount hmatches)

theorem nextDelimiter_eq {count p d : Nat} (hle : p ≤ d) (hd : d ≤ p + count)
    (hends : d < p + count → t.isDelimiter (src.bytes d).toNat)
    (hfirst : ∀ i, p ≤ i → i < d → ¬ t.isDelimiter (src.bytes i).toNat) :
    nextDelimiter t src count p = d := by
  induction count generalizing p with
  | zero => exact Nat.le_antisymm hle hd
  | succ count ih =>
    unfold nextDelimiter
    rcases Nat.lt_or_eq_of_le hle with hlt | rfl
    · rw [if_neg (hfirst p (Nat.le_refl p) hlt)]
      refine ih hlt (by omega) (fun hlt' => hends (by omega)) ?_
      intro i hi
      exact hfirst i (by omega)
    · exact if_pos (hends (by omega))

/-- Before the end of the text, the reference token is the computed one. -/
theorem IsReference.eq_referenceToken {span : Span} (h : IsReference t src opening l span)
    (hlt : l < src.size) :
    (span.startPos, span.endPos, span.typeIds) = (l, referenceToken t src (baseOf t opening l) l) := by
  have hcount : l + (src.size - l) = src.size := by omega
  unfold referenceToken
  cases h with
  | @longest e line ids hlongest =>
    have hmatches : MatchesAt t src (baseOf t opening l) l e ids := hlongest.isMatch
    have hsize := hmatches.le_size
    rw [longestEnd_of_matchesAt hmatches hlongest.longest (by omega) hcount.le]
    show _ = (l, e, matchIds t src (baseOf t opening l) l e)
    rw [hmatches.matchIds_eq]
  | @text d line hnone hd hle hends hfirst =>
    rw [longestEnd_eq_none hnone hcount.le]
    have hnext : nextDelimiter t src (src.size - (l + 1)) (l + 1) = d := by
      refine nextDelimiter_eq hd (by omega) (fun hlt => ?_) hfirst
      exact hends.resolve_left (by omega)
    rw [hnext]
  | input hend => omega

/-- At the end of the text, the reference token is the end of the input. -/
theorem IsReference.eq_input (ht : t.WellFormed) {span : Span}
    (h : IsReference t src none src.size span) :
    (span.startPos, span.endPos, span.typeIds) = (src.size, src.size, cTokenEndTypes) := by
  cases h with
  | @longest e line ids hlongest =>
    have hmatches := hlongest.isMatch
    obtain ⟨q, hrun, hids⟩ := hmatches.run
    rw [Nat.le_antisymm hmatches.le_size hmatches.le, baseOf_none, Source.word_self] at hrun
    cases hrun
    exact absurd (hids.symm.trans ht.root) hmatches.ne_nil
  | text _ hd hle => omega
  | input => rfl

/-- The reference token is not empty. -/
theorem IsReference.lt (ht : t.WellFormed) (hreg : Regular t src opening) {span : Span}
    (h : IsReference t src opening l span) (hlt : l < src.size) : l < span.endPos := by
  cases h with
  | longest hlongest => exact hreg.lt ht hlongest.isMatch hlt
  | text _ hd => exact hd
  | input hend => omega

theorem IsReference.le_size {span : Span} (h : IsReference t src opening l span) :
    span.endPos ≤ src.size := by
  cases h with
  | longest hlongest => exact hlongest.isMatch.le_size
  | text _ _ hle => exact hle
  | input hend => exact hend.le

end Cursor

/-- What the reference tokenizer says of a token. -/
def Token.reference (token : Token) : Nat × Nat × List Nat :=
  (token.startPos, token.endPos, token.typeIds.getD [])

theorem Token.Covers.reference_eq {t : LexerTables} {src : Source} {span : Span} {token : Token}
    (h : token.Covers t src span) :
    token.reference = (span.startPos, span.endPos, span.typeIds) := by
  unfold Token.reference
  rw [h.startPos, h.endPos, h.typeIds]
  rfl

namespace Scanner

open Cursor

variable {t : LexerTables} {src : Source} {opening : Option Opening} {s : Scanner} {q fuel : Nat}

/-- A call on a text that is all there returns the token of the reference. -/
theorem Resting.scan_longest (ht : t.WellFormed) (hreg : Regular t src opening)
    (hfinished : src.finished = true) (hfuel : 2 * src.size + 1 < fuel) (h : s.Resting t src)
    (hat : (ofScanner s).At t src opening q) (hkeeps : (ofScanner s).KeepsLongest t src) :
    ∃ s' token span, s.scan t fuel = .ok (s', .ok token) ∧
      token.reference = (span.startPos, span.endPos, span.typeIds) ∧
      IsReference t src opening q span ∧ s'.Resting t src ∧
      (ofScanner s').At t src none span.endPos ∧ (ofScanner s').KeepsLongest t src := by
  obtain ⟨s', result, result', hscan, hresting, hscans, hdelivers⟩ := scan_refines ht h hfuel
  cases result' with
  | error err => exact absurd hfinished hscans.error.2
  | ok span =>
    cases result with
    | error err => exact hdelivers.elim
    | ok token =>
      have hcovers : token.Covers t src span := hdelivers
      obtain ⟨hreference, hkeeps'⟩ := hat.scans_longest ht hreg hkeeps hscans
      exact ⟨s', token, span, hscan, hcovers.reference_eq, hreference, hresting,
        (hat.scans ht hscans).2, hkeeps'⟩

/-- The calls up to the end of the input return the tokens of the reference. -/
theorem Resting.scanPieces_longest (ht : t.WellFormed) (hreg : Regular t src opening)
    (hfinished : src.finished = true) (hfuel : 2 * src.size + 1 < fuel) {count : Nat}
    (h : s.Resting t src) (hat : (ofScanner s).At t src opening q)
    (hkeeps : (ofScanner s).KeepsLongest t src) (hopening : q = src.size → opening = none)
    (hcount : src.size ≤ q + count) :
    ∃ tokens, s.scanPieces t fuel
        ((referenceTokens t src count (baseOf t opening q) q).length + 1) [] = .ok ([], tokens) ∧
      tokens.map Token.reference = referenceTokens t src count (baseOf t opening q) q ++
        [(src.size, src.size, cTokenEndTypes)] := by
  induction count generalizing s q opening with
  | zero =>
    have hq : q = src.size := Nat.le_antisymm hat.le_size hcount
    obtain rfl := hopening hq
    subst hq
    obtain ⟨s', token, span, hscan, htoken, hreference, -⟩ :=
      h.scan_longest ht hreg hfinished hfuel hat hkeeps
    refine ⟨[token], ?_, ?_⟩
    · show scanPieces t fuel 1 [] s = _
      unfold scanPieces
      rw [hscan]
      rfl
    · rw [List.map_cons, htoken, hreference.eq_input ht]
      rfl
  | succ count ih =>
    obtain ⟨s', token, span, hscan, htoken, hreference, hresting, hat', hkeeps'⟩ :=
      h.scan_longest ht hreg hfinished hfuel hat hkeeps
    rcases Nat.lt_or_eq_of_le hat.le_size with hlt | rfl
    · have hspan := hreference.eq_referenceToken hlt
      have hend : span.endPos = (referenceToken t src (baseOf t opening q) q).1 :=
        congrArg (fun r => r.2.1) hspan
      have hle := hreference.lt ht hreg hlt
      obtain ⟨tokens, htokens, hsame⟩ :=
        ih hreg.none hresting hat' hkeeps' (fun _ => rfl) (by omega)
      rw [baseOf_none, hend] at htokens hsame
      have hunfold : referenceTokens t src (count + 1) (baseOf t opening q) q =
          (q, referenceToken t src (baseOf t opening q) q) ::
            referenceTokens t src count t.dfa.getRoot
              (referenceToken t src (baseOf t opening q) q).1 := if_pos hlt
      refine ⟨token :: tokens, ?_, ?_⟩
      · rw [hunfold]
        show scanPieces t fuel (_ + 1) [] s = _
        unfold scanPieces
        rw [hscan]
        simp only [bind, Except.bind, List.length_cons, htokens]
        rfl
      · rw [hunfold, List.map_cons, htoken, hspan, hsame]
        rfl
    · obtain rfl := hopening rfl
      have hunfold : referenceTokens t src (count + 1) (baseOf t none src.size) src.size = [] :=
        if_neg (Nat.lt_irrefl _)
      refine ⟨[token], ?_, ?_⟩
      · rw [hunfold]
        show scanPieces t fuel 1 [] s = _
        unfold scanPieces
        rw [hscan]
        rfl
      · rw [hunfold, List.map_cons, htoken, hreference.eq_input ht]
        rfl

/-- The state behind the start-of-file character reads what the root reads
behind it. -/
theorem run_startOfFile {state : Nat} (hstate : Lexer.startOfFileState t = some state)
    (w : List UInt8) :
    t.dfa.run t.dfa.getRoot (cCharStartOfFile :: w) = t.dfa.run state w := by
  obtain ⟨transition, htransition, rfl⟩ := Option.map_eq_some_iff.1 hstate
  have htransition : t.dfa.transition? t.dfa.getRoot cCharStartOfFile.toNat = some transition :=
    htransition
  rw [Dfa.run_cons, htransition]
  rfl

/-- The calls of a new lexer on a text that is all there return the tokens of
the reference tokenizer, and then the end of the input. -/
theorem scanPieces_eq_referenceTokens {schema : SchemaAST}
    {regMapOrder : List (Nat × Nat) → List (Nat × Nat)} {steps : Nat}
    (horder : ∀ regMap, (regMapOrder regMap).Perm regMap)
    (hgenerate : schema.generate regMapOrder steps = .ok t) {p : LogParser}
    (hreset : (LogParser.new t).reset t = .ok p)
    (hvar : ∃ var ∈ schema.schemaVars, var.name ≠ cTokenHeader)
    (hnewline : 10 ∈ schema.delimiterList)
    (hinner : ∀ w q, t.dfa.run t.dfa.getRoot w = some q → t.dfa.typeIds q ≠ [] → 10 ∉ w.tail)
    {input : ParserInputBuffer} (hinput : input.Holds src) (hpos : input.storage.pos = 0)
    (hfinished : src.finished = true) (hsize : 0 < src.size)
    (hfirst : (src.bytes 0).toNat ∉ schema.delimiterList) (hfuel : 2 * src.size + 1 < fuel) :
    ∃ state tokens, Lexer.startOfFileState t = some state ∧
      scanPieces t fuel ((referenceTokens t src src.size state 0).length + 1) []
        { lexer := p.lexer, input := input } = .ok ([], tokens) ∧
      tokens.map Token.reference =
        referenceTokens t src src.size state 0 ++ [(src.size, src.size, cTokenEndTypes)] := by
  have hof := LexerTables.ofSchema_generate horder hgenerate
  have ht := hof.toWellFormed
  have hdelimiter : ∀ b : UInt8, t.isDelimiter b.toNat ↔ b.toNat ∈ schema.delimiterList := by
    intro b
    rw [LexerTables.mem_delimiterList, hof.isDelimiter]
    exact (and_iff_right b.toNat_lt).symm
  obtain ⟨hresting, o, hopened⟩ := opened_of_reset ht hreset hinput
  have hoffset : o.offset = 0 := hopened.pos.symm.trans hpos
  have hstate : Lexer.startOfFileState t = some o.state := by
    rw [← hopened.state]
    obtain ⟨lexer, hlexer, hp⟩ := exists_of_bind_eq_ok hreset
    obtain ⟨state, hderef, hlexer⟩ := exists_of_bind_eq_ok hlexer
    cases hp
    cases hlexer
    show Lexer.startOfFileState t = some state
    cases hsome : Lexer.startOfFileState t with
    | none =>
      rw [hsome] at hderef
      cases hderef
    | some state' =>
      rw [hsome] at hderef
      cases hderef
      rfl
  have hreg : Regular t src (some o) := by
    refine ⟨(hdelimiter 10).2 hnewline, fun b hb => hof.delimiter hvar _ b.toNat_lt hb, hinner, ?_⟩
    intro o' ho
    cases ho
    refine ⟨hoffset, hsize, fun hb => hfirst ((hdelimiter _).1 hb), fun w q hrun => ?_⟩
    rw [← run_startOfFile hstate] at hrun
    exact hinner _ q hrun
  have hkeeps : (ofScanner { lexer := p.lexer, input := input }).KeepsLongest t src :=
    keepsLongest_of_none hopened.matched
  obtain ⟨tokens, htokens, hsame⟩ := hresting.scanPieces_longest ht hreg hfinished hfuel
    (.opened hopened) hkeeps (fun hzero => by omega) (Nat.le_add_left src.size 0)
  exact ⟨o.state, tokens, hstate, htokens, hsame⟩

/-- No state but the root reads a newline, and no state leads back to it. -/
def readsNewlineFirst (dfa : Dfa) : Bool :=
  (List.range dfa.states.length).all fun p =>
    (p == dfa.getRoot || (dfa.transition? p 10).isNone) &&
      (List.range cSizeOfByte).all fun b =>
        (dfa.transition? p b).all fun transition => transition.destState != dfa.getRoot

theorem not_mem_tail_of_readsNewlineFirst {dfa : Dfa} (h : readsNewlineFirst dfa = true)
    {w : List UInt8} {q : Nat} (hrun : dfa.run dfa.getRoot w = some q) : 10 ∉ w.tail := by
  have hstep : ∀ p (b : UInt8) transition, dfa.transition? p b.toNat = some transition →
      transition.destState ≠ dfa.getRoot ∧ (p ≠ dfa.getRoot → b ≠ 10) := by
    intro p b transition htransition
    have hlt : p < dfa.states.length := by
      by_contra hge
      have hnone : dfa.state? p = none := List.getElem?_eq_none (not_lt.1 hge)
      unfold Dfa.transition? at htransition
      rw [hnone] at htransition
      cases htransition
    have hstate := List.all_eq_true.1 h p (List.mem_range.2 hlt)
    rw [Bool.and_eq_true] at hstate
    obtain ⟨hnewline, hbytes⟩ := hstate
    have hdest := List.all_eq_true.1 hbytes b.toNat (List.mem_range.2 b.toNat_lt)
    rw [htransition] at hdest
    refine ⟨by simpa using hdest, fun hp hb => ?_⟩
    rw [hb] at htransition
    have htransition : dfa.transition? p 10 = some transition := htransition
    rw [htransition] at hnewline
    exact hp (by simpa using hnewline)
  have hrest : ∀ (w : List UInt8) p, p ≠ dfa.getRoot → dfa.run p w = some q → 10 ∉ w := by
    intro w
    induction w with
    | nil => exact fun _ _ _ => List.not_mem_nil
    | cons b w ih =>
      intro p hp hrun
      rw [Dfa.run_cons] at hrun
      obtain ⟨transition, htransition, hrun⟩ := Option.bind_eq_some_iff.1 hrun
      obtain ⟨hdest, hb⟩ := hstep p b transition htransition
      intro hmem
      rcases List.mem_cons.1 hmem with heq | hmem
      · exact hb hp heq.symm
      · exact ih _ hdest hrun hmem
  cases w with
  | nil => exact List.not_mem_nil
  | cons b w =>
    rw [Dfa.run_cons] at hrun
    obtain ⟨transition, htransition, hrun⟩ := Option.bind_eq_some_iff.1 hrun
    exact hrest w _ (hstep _ b transition htransition).1 hrun

/-- What is checked of the lexer of the letter `b` and its reference tokens. -/
def checkReference (text : List UInt8) (tokens : List (Nat × Nat × List Nat)) : Bool :=
  match letterSchema.generate id 40 with
  | .ok t =>
    match (LogParser.new t).reset t, Lexer.startOfFileState t with
    | .ok _, some state => readsNewlineFirst t.dfa &&
        referenceTokens t (sourceOf text text.length true) text.length state 0 == tokens
    | _, _ => false
  | .error _ => false

theorem exists_of_checkReference {text : List UInt8} {tokens : List (Nat × Nat × List Nat)}
    (h : checkReference text tokens = true) :
    ∃ t p state, letterSchema.generate id 40 = .ok t ∧ (LogParser.new t).reset t = .ok p ∧
      Lexer.startOfFileState t = some state ∧ readsNewlineFirst t.dfa = true ∧
      referenceTokens t (sourceOf text text.length true) text.length state 0 = tokens := by
  unfold checkReference at h
  split at h
  · rename_i t hgenerate
    split at h
    · rename_i p state hreset hstate
      rw [Bool.and_eq_true, beq_iff_eq] at h
      exact ⟨t, p, state, hgenerate, hreset, hstate, h⟩
    · cases h
  · cases h

/-- The text `a b` and a newline is a letter, a variable and a newline. -/
theorem scanPieces_eq_referenceTokens_letters :
    ∃ t p tokens, letterSchema.generate id 40 = .ok t ∧ (LogParser.new t).reset t = .ok p ∧
      scanPieces t 20 4 []
        { lexer := p.lexer, input := bufferOf (sourceOf [97, 32, 98, 10] 4 true) } =
        .ok ([], tokens) ∧
      tokens.map Token.reference = [(0, 1, [1]), (1, 3, [7]), (3, 4, [6]), (4, 4, [0])] := by
  have hcheck : checkReference [97, 32, 98, 10] [(0, 1, [1]), (1, 3, [7]), (3, 4, [6])] = true := by
    decide +kernel
  obtain ⟨t, p, state, hgenerate, hreset, hstate, hnewline, hreference⟩ :=
    exists_of_checkReference hcheck
  obtain ⟨state', tokens, hstate', htokens, hsame⟩ := scanPieces_eq_referenceTokens
    (fun _ => .refl _) hgenerate hreset (by decide) (by decide)
    (fun w q hrun _ => not_mem_tail_of_readsNewlineFirst hnewline hrun)
    (holds_bufferOf (by decide) : (bufferOf (sourceOf [97, 32, 98, 10] 4 true)).Holds _) rfl rfl
    (by decide) (by decide) (by decide : 2 * (sourceOf [97, 32, 98, 10] 4 true).size + 1 < 20)
  obtain rfl := Option.some.inj (hstate.symm.trans hstate')
  have hreference : referenceTokens t (sourceOf [97, 32, 98, 10] 4 true)
      (sourceOf [97, 32, 98, 10] 4 true).size state 0 = _ := hreference
  rw [hreference] at htokens hsame
  exact ⟨t, p, tokens, hgenerate, hreset, htokens, hsame⟩

end Scanner

end LogSurgeon
