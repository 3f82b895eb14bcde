import LogSurgeon.LexerPieces
import LogSurgeon.Lib.StackSearch
import LogSurgeon.ScannerStates

/-!
# Scanning with a wildcard

`scanWithWildcard` is `Lexer::scan_with_wildcard`.  At the end of the input a
match is a variable if every completion of the wildcard keeps it one.

* `?` stands for one byte.  The loop over the bytes reads every transition
  without asking whether it exists.
* `*` stands for any bytes that are no delimiters.  The search of
  `Lib.StackSearch` goes through the states behind them.
* The state is kept in `m_prev_state`, which no other call sets.
-/

namespace LogSurgeon

open Lib

def wildcardQuestionMark : UInt8 := 63

def wildcardStar : UInt8 := 42

/-- A scanner with the state of the last suspended call. -/
structure WildcardScanner where
  scanner : Scanner
  prevState : Option Nat := none

/-! ## The completions of a wildcard -/

namespace LexerTables

def isAccepting (t : LexerTables) (p : Nat) : Bool := (t.dfa.state? p).any (·.isAccepting)

/-- The loop over the bytes for `?`. -/
def acceptsBytes (t : LexerTables) (state : Nat) : List Nat → Except Fault Bool
  | [] => .ok true
  | byte :: bytes => do
    let transition ← derefOr .nullPointer (t.dfa.transition? state byte)
    if t.isAccepting transition.destState then t.acceptsBytes state bytes else .ok false

/-- The states behind the bytes that are no delimiters. -/
def wildcardDests (t : LexerTables) (state : Nat) : List (Option Nat) :=
  ((List.range cSizeOfByte).filter fun byte => ¬ t.isDelimiter byte).map fun byte =>
    (t.dfa.transition? state byte).map (·.destState)

/-- Whether the match stays a variable. -/
def acceptsWildcard (t : LexerTables) (fuel : Nat) (wildcard : UInt8) (state : Nat) :
    Except Fault Bool :=
  if wildcard = wildcardQuestionMark then t.acceptsBytes state (List.range cSizeOfByte)
  else if wildcard = wildcardStar then
    derefOr .outOfSteps (StackSearch.loop t.wildcardDests t.isAccepting fuel (.start state))
  else .ok true

/-! ### What they decide -/

/-- The byte leads to an accepting state. -/
def AcceptsByte (t : LexerTables) (state byte : Nat) : Prop :=
  ∃ transition, t.dfa.transition? state byte = some transition ∧
    t.isAccepting transition.destState = true

def AcceptsEveryByte (t : LexerTables) (state : Nat) : Prop :=
  ∀ byte < cSizeOfByte, t.AcceptsByte state byte

/-- Every string without delimiters leads to an accepting state. -/
def AcceptsEveryString (t : LexerTables) (state : Nat) : Prop :=
  ∀ u : List UInt8, (∀ b ∈ u, t.isDelimiter b.toNat = false) →
    ∃ p, t.dfa.run state u = some p ∧ t.isAccepting p = true

/-- What a wildcard asks for. -/
def AcceptsEvery (t : LexerTables) (wildcard : UInt8) (state : Nat) : Prop :=
  (wildcard = wildcardQuestionMark → t.AcceptsEveryByte state) ∧
    (wildcard = wildcardStar → t.AcceptsEveryString state)

/-- A byte without a transition comes behind one that leads to a state which is
not accepting. -/
def GapsAreCovered (t : LexerTables) (state : Nat) : Prop :=
  ∀ byte < cSizeOfByte, t.dfa.transition? state byte = none →
    ∃ byte' < byte, ∃ transition, t.dfa.transition? state byte' = some transition ∧
      t.isAccepting transition.destState = false

section Bytes

variable {t : LexerTables} {state : Nat}

theorem acceptsBytes_cons (byte : Nat) (bytes : List Nat) :
    (t.AcceptsByte state byte ∧
        t.acceptsBytes state (byte :: bytes) = t.acceptsBytes state bytes) ∨
      (∃ transition, t.dfa.transition? state byte = some transition ∧
          t.isAccepting transition.destState = false) ∧
        t.acceptsBytes state (byte :: bytes) = .ok false ∨
      t.dfa.transition? state byte = none ∧
        t.acceptsBytes state (byte :: bytes) = .error .nullPointer := by
  rw [acceptsBytes]
  cases htransition : t.dfa.transition? state byte with
  | none => exact Or.inr (Or.inr ⟨rfl, rfl⟩)
  | some transition =>
    rw [derefOr_some]
    cases haccepting : t.isAccepting transition.destState with
    | false => exact Or.inr (Or.inl ⟨⟨transition, rfl, haccepting⟩, if_neg (by simp [haccepting])⟩)
    | true => exact Or.inl ⟨⟨transition, htransition, haccepting⟩, if_pos haccepting⟩

/-- The first byte that does not lead to an accepting state ends the loop. -/
theorem acceptsBytes_spec (bytes : List Nat) :
    ((∀ byte ∈ bytes, t.AcceptsByte state byte) ∧ t.acceptsBytes state bytes = .ok true) ∨
      ∃ before byte after, bytes = before ++ byte :: after ∧
        (∀ byte' ∈ before, t.AcceptsByte state byte') ∧
        ((∃ transition, t.dfa.transition? state byte = some transition ∧
              t.isAccepting transition.destState = false) ∧
            t.acceptsBytes state bytes = .ok false ∨
          t.dfa.transition? state byte = none ∧
            t.acceptsBytes state bytes = .error .nullPointer) := by
  induction bytes with
  | nil => exact Or.inl ⟨fun byte hbyte => absurd hbyte List.not_mem_nil, rfl⟩
  | cons byte bytes ih =>
    rcases acceptsBytes_cons byte bytes with ⟨hfirst, heq⟩ | hstop
    · rw [heq]
      rcases ih with ⟨hall, hok⟩ | ⟨before, byte', after, rfl, hbefore, hcase⟩
      · exact Or.inl ⟨List.forall_mem_cons.2 ⟨hfirst, hall⟩, hok⟩
      · exact Or.inr ⟨byte :: before, byte', after, rfl,
          List.forall_mem_cons.2 ⟨hfirst, hbefore⟩, hcase⟩
    · exact Or.inr ⟨[], byte, bytes, rfl, fun byte' h => absurd h List.not_mem_nil, hstop⟩

theorem mem_of_range_eq {n b : Nat} {before after : List Nat}
    (h : List.range n = before ++ b :: after) : b < n ∧ ∀ b' < b, b' ∈ before := by
  have hat : ∀ i, (before ++ b :: after)[i]? = if i < n then some i else none := by
    intro i
    rw [← h]
    by_cases hi : i < n
    · rw [List.getElem?_range hi, if_pos hi]
    · rw [if_neg hi, List.getElem?_eq_none (by simpa using hi)]
  have hb := hat before.length
  rw [List.getElem?_append_right le_rfl, Nat.sub_self, List.getElem?_cons_zero] at hb
  split at hb
  · rename_i hlt
    cases hb
    refine ⟨hlt, fun b' hb' => ?_⟩
    have h' := hat b'
    rw [List.getElem?_append_left hb', if_pos (by omega)] at h'
    exact List.mem_of_getElem? h'
  · cases hb

/-- The loop over all bytes. -/
theorem acceptsBytes_range :
    (t.AcceptsEveryByte state ∧
        t.acceptsBytes state (List.range cSizeOfByte) = .ok true) ∨
      ¬ t.AcceptsEveryByte state ∧
        (t.GapsAreCovered state ∧
            t.acceptsBytes state (List.range cSizeOfByte) = .ok false ∨
          ¬ t.GapsAreCovered state ∧
            t.acceptsBytes state (List.range cSizeOfByte) = .error .nullPointer) := by
  rcases @acceptsBytes_spec t state (List.range cSizeOfByte) with
    ⟨hall, hok⟩ | ⟨before, byte, after, hrange, hbefore, hcase⟩
  · exact Or.inl ⟨fun byte hbyte => hall byte (List.mem_range.2 hbyte), hok⟩
  · obtain ⟨hlt, hmem⟩ := mem_of_range_eq hrange
    rcases hcase with ⟨⟨transition, htransition, hrejects⟩, hfalse⟩ | ⟨hnone, herror⟩
    · refine Or.inr ⟨fun hevery => ?_, Or.inl ⟨fun gap hgap hnone => ?_, hfalse⟩⟩
      · obtain ⟨transition', htransition', haccepts⟩ := hevery byte hlt
        obtain rfl := Option.some.inj (htransition.symm.trans htransition')
        rw [hrejects] at haccepts
        cases haccepts
      · refine ⟨byte, ?_, transition, htransition, hrejects⟩
        by_contra hle
        rcases Nat.eq_or_lt_of_le (Nat.le_of_not_lt hle) with rfl | hlt'
        · rw [hnone] at htransition
          cases htransition
        · obtain ⟨transition', htransition', -⟩ := hbefore gap (hmem gap hlt')
          rw [hnone] at htransition'
          cases htransition'
    · refine Or.inr ⟨fun hevery => ?_, Or.inr ⟨fun hcovered => ?_, herror⟩⟩
      · obtain ⟨transition, htransition, -⟩ := hevery byte hlt
        rw [hnone] at htransition
        cases htransition
      · obtain ⟨byte', hlt', transition, htransition, hrejects⟩ := hcovered byte hlt hnone
        obtain ⟨transition', htransition', haccepts⟩ := hbefore byte' (hmem byte' hlt')
        obtain rfl := Option.some.inj (htransition.symm.trans htransition')
        rw [hrejects] at haccepts
        cases haccepts

end Bytes

section Strings

variable {t : LexerTables} {state : Nat}

theorem mem_wildcardDests {o : Option Nat} :
    o ∈ t.wildcardDests state ↔ ∃ byte < cSizeOfByte, t.isDelimiter byte = false ∧
      (t.dfa.transition? state byte).map (·.destState) = o := by
  unfold wildcardDests
  simp [and_assoc]

theorem exists_run_of_reaches {p : Nat} (h : StackSearch.Reaches t.wildcardDests state p) :
    ∃ u : List UInt8, (∀ b ∈ u, t.isDelimiter b.toNat = false) ∧ t.dfa.run state u = some p := by
  induction h with
  | refl => exact ⟨[], fun b hb => absurd hb List.not_mem_nil, rfl⟩
  | tail _ hstep ih =>
    obtain ⟨u, hu, hrun⟩ := ih
    obtain ⟨byte, hbyte, hdelimiter, hdest⟩ := mem_wildcardDests.1 hstep
    obtain ⟨transition, htransition, rfl⟩ := Option.map_eq_some_iff.1 hdest
    have hnat : (UInt8.ofNat byte).toNat = byte := UInt8.toNat_ofNat_of_lt' hbyte
    refine ⟨u ++ [.ofNat byte], fun b hb => ?_, ?_⟩
    · rcases List.mem_append.1 hb with hb | hb
      · exact hu b hb
      · rw [List.mem_singleton.1 hb, hnat]
        exact hdelimiter
    · rw [Dfa.run_append, hrun, Option.bind_some, Dfa.run_cons, hnat, htransition]
      rfl

/-- The search looks at the states behind all strings. -/
theorem complete_iff_acceptsEveryString :
    StackSearch.Complete t.wildcardDests t.isAccepting state ↔ t.AcceptsEveryString state := by
  constructor
  · intro hcomplete u hu
    induction u generalizing state with
    | nil => exact ⟨state, rfl, (hcomplete state .refl).1⟩
    | cons b u ih =>
      cases htransition : t.dfa.transition? state b.toNat with
      | none =>
        refine absurd (mem_wildcardDests.2 ⟨b.toNat, b.toNat_lt, ?_, ?_⟩) (hcomplete state .refl).2
        · exact hu b List.mem_cons_self
        · rw [htransition]
          rfl
      | some transition =>
        have hstep : some transition.destState ∈ t.wildcardDests state := by
          refine mem_wildcardDests.2 ⟨b.toNat, b.toNat_lt, hu b List.mem_cons_self, ?_⟩
          rw [htransition]
          rfl
        rw [Dfa.run_cons, htransition]
        exact ih (fun p hp => hcomplete p (.head hstep hp))
          fun b' hb' => hu b' (List.mem_cons_of_mem b hb')
  · intro hevery p hp
    obtain ⟨u, hu, hrun⟩ := exists_run_of_reaches hp
    refine ⟨?_, fun hnone => ?_⟩
    · obtain ⟨p', hrun', haccepting⟩ := hevery u hu
      rw [hrun] at hrun'
      cases hrun'
      exact haccepting
    · obtain ⟨byte, hbyte, hdelimiter, hdest⟩ := mem_wildcardDests.1 hnone
      have hnat : (UInt8.ofNat byte).toNat = byte := UInt8.toNat_ofNat_of_lt' hbyte
      obtain ⟨p', hrun', -⟩ := hevery (u ++ [.ofNat byte]) (by
        intro b hb
        rcases List.mem_append.1 hb with hb | hb
        · exact hu b hb
        · rw [List.mem_singleton.1 hb, hnat]
          exact hdelimiter)
      rw [Dfa.run_append, hrun, Option.bind_some, Dfa.run_cons, hnat,
        Option.map_eq_none_iff.1 hdest] at hrun'
      cases hrun'

end Strings

/-! ### The decision -/

section Decision

variable {t : LexerTables} {state : Nat} {wildcard : UInt8}

theorem gapsAreCovered_of_acceptsEveryByte (h : t.AcceptsEveryByte state) :
    t.GapsAreCovered state := by
  intro byte hbyte hnone
  obtain ⟨transition, htransition, -⟩ := h byte hbyte
  rw [hnone] at htransition
  cases htransition

theorem acceptsWildcard_questionMark (fuel : Nat) :
    t.acceptsWildcard fuel wildcardQuestionMark state =
      t.acceptsBytes state (List.range cSizeOfByte) := if_pos rfl

theorem acceptsWildcard_star (fuel : Nat) :
    t.acceptsWildcard fuel wildcardStar state =
      derefOr .outOfSteps (StackSearch.loop t.wildcardDests t.isAccepting fuel (.start state)) := by
  unfold acceptsWildcard
  rw [if_neg (by decide), if_pos rfl]

theorem exists_acceptsWildcard (hdfa : t.dfa.WellFormed) (hstate : state < t.dfa.states.length)
    (hwildcard : wildcard = wildcardQuestionMark ∨ wildcard = wildcardStar)
    (hcovered : wildcard = wildcardQuestionMark → t.GapsAreCovered state) :
    ∃ fuel result, t.acceptsWildcard fuel wildcard state = .ok result ∧
      (result = true ↔ t.AcceptsEvery wildcard state) := by
  rcases hwildcard with rfl | rfl
  · have hiff : t.AcceptsEvery wildcardQuestionMark state ↔ t.AcceptsEveryByte state :=
      ⟨fun h => h.1 rfl, fun h => ⟨fun _ => h, fun h => absurd h (by decide)⟩⟩
    rw [hiff]
    rcases @acceptsBytes_range t state with ⟨hevery, hok⟩ | ⟨hnot, ⟨-, hfalse⟩ | ⟨hgap, -⟩⟩
    · exact ⟨0, true, hok, fun _ => hevery, fun _ => rfl⟩
    · exact ⟨0, false, hfalse, (by simp), fun hevery => absurd hevery hnot⟩
    · exact absurd (hcovered rfl) hgap
  · have hiff : t.AcceptsEvery wildcardStar state ↔ t.AcceptsEveryString state :=
      ⟨fun h => h.2 rfl, fun h => ⟨fun h => absurd h (by decide), fun _ => h⟩⟩
    obtain ⟨fuel, result, hloop, hresult⟩ :=
      @StackSearch.loop_spec Nat _ t.wildcardDests t.isAccepting state _ _ _
        (Finset.range t.dfa.states.length) (Finset.mem_range.2 hstate) (by
          intro p _ q hq
          obtain ⟨byte, -, -, hdest⟩ := mem_wildcardDests.1 hq
          obtain ⟨transition, htransition, rfl⟩ := Option.map_eq_some_iff.1 hdest
          exact Finset.mem_range.2 (hdfa.dest _ _ _ htransition))
    refine ⟨fuel, result, ?_, hresult.trans (complete_iff_acceptsEveryString.trans hiff.symm)⟩
    rw [acceptsWildcard_star, hloop]
    rfl

theorem acceptsWildcard_of_gap (hgap : ¬ t.GapsAreCovered state) (fuel : Nat) :
    t.acceptsWildcard fuel wildcardQuestionMark state = .error .nullPointer := by
  rw [acceptsWildcard_questionMark]
  rcases @acceptsBytes_range t state with ⟨hevery, -⟩ | ⟨-, ⟨hcovered, -⟩ | ⟨-, herror⟩⟩
  · exact absurd (gapsAreCovered_of_acceptsEveryByte hevery) hgap
  · exact absurd hcovered hgap
  · exact herror

end Decision

end LexerTables

/-! ## The scan -/

namespace Scanner

/-- The token of the match, without registers. -/
def matchToken (s : Scanner) : Token where
  startPos := s.lexer.startPos
  endPos := s.lexer.matchPos
  buffer := s.input.storage.getActiveBuffer
  bufferSize := s.input.storage.size
  lineNum := s.lexer.matchLine
  typeIds := s.lexer.typeIds

/-- The static text up to the position of the input. -/
def staticToken (s : Scanner) : Token :=
  s.newToken s.lexer.lastMatchPos s.input.storage.pos s.lexer.lastMatchLine
    cTokenUncaughtStringTypes

/-- Keeps the match that ends before the character, and starts a match at a
newline. -/
def wildcardChar (t : LexerTables) (nextChar : UInt8) (prevByteBufPos : Nat) (state : DfaState)
    (s : Scanner) : Except Fault Scanner :=
  let s : Scanner :=
    if (t.isDelimiter nextChar.toNat ∨ s.input.logFullyConsumed ∨ ¬ t.hasDelimiters) ∧
        state.isAccepting then
      { s with
        lexer := { s.lexer with
          isMatch := true
          typeIds := some state.matchingVariableIds
          matchPos := prevByteBufPos
          matchLine := s.lexer.line } }
    else s
  if nextChar = 10 then
    let s : Scanner := { s with lexer := { s.lexer with line := s.lexer.line + 1 } }
    if t.hasDelimiters ∧ ¬ s.lexer.isMatch then do
      let transition ← derefOr .nullPointer (t.dfa.transition? t.dfa.getRoot nextChar.toNat)
      let destState ← derefOr .nullPointer (t.dfa.state? transition.destState)
      return { s with
        lexer := { s.lexer with
          isMatch := true
          typeIds := some destState.matchingVariableIds
          startPos := prevByteBufPos
          matchPos := s.input.storage.pos
          matchLine := s.lexer.line } }
    else .ok s
  else .ok s

/-- The input is consumed or the DFA stopped. -/
def wildcardFinish (t : LexerTables) (fuel : Nat) (wildcard : UInt8) (state : Nat) (s : Scanner) :
    Except Fault (Scanner × Token) :=
  if ¬ s.lexer.isMatch ∨ s.lexer.matchPos ≠ s.input.storage.pos then .ok (s, s.staticToken)
  else do
    if ← t.acceptsWildcard fuel wildcard state then
      return ({ lexer := { s.lexer with
                  line := s.lexer.matchLine
                  isMatch := false
                  lastMatchPos := s.lexer.matchPos
                  lastMatchLine := s.lexer.matchLine }
                input := s.input.setPos s.lexer.matchPos }, s.matchToken)
    else return (s, s.staticToken)

end Scanner

namespace WildcardScanner

/-- The loop of `scan_with_wildcard`. -/
def wildcardLoop (t : LexerTables) (wildcard : UInt8) (prevState : Option Nat) :
    Nat → Option Nat → Scanner → Except Fault (WildcardScanner × ScanResult)
  | 0, _, _ => .error .outOfSteps
  | fuel + 1, state, s =>
    match s.input.getNextCharacter with
    | (.error err, input) =>
      .ok ({ scanner := { lexer := { s.lexer with askedForMoreData := true }, input := input }
             prevState := state }, .error err)
    | (.ok nextChar, input) => do
      let p ← derefOr .nullPointer state
      let dfaState ← derefOr .nullPointer (t.dfa.state? p)
      let s ← { s with input := input }.wildcardChar t nextChar s.input.storage.pos dfaState
      match s.input.logFullyConsumed, dfaState.getTransition nextChar.toNat with
      | false, some transition => wildcardLoop t wildcard prevState fuel (some transition.destState) s
      | _, _ => do
        let (s, token) ← s.wildcardFinish t fuel wildcard p
        return ({ scanner := s, prevState := prevState }, .ok token)

def scanWithWildcard (t : LexerTables) (fuel : Nat) (wildcard : UInt8) (s : WildcardScanner) :
    Except Fault (WildcardScanner × ScanResult) :=
  let lexer := s.scanner.lexer
  if lexer.askedForMoreData then
    wildcardLoop t wildcard s.prevState fuel s.prevState
      { s.scanner with lexer := { lexer with askedForMoreData := false } }
  else if lexer.isMatch then
    .ok ({ s with
      scanner := { s.scanner with
        lexer := { lexer with
          isMatch := false
          lastMatchPos := lexer.matchPos
          lastMatchLine := lexer.matchLine } } }, .ok s.scanner.matchToken)
  else
    let pos := s.scanner.input.storage.pos
    wildcardLoop t wildcard s.prevState fuel (some t.dfa.getRoot)
      { s.scanner with
        lexer := { lexer with
          startPos := pos
          matchPos := pos
          matchLine := lexer.line
          typeIds := none } }

end WildcardScanner

/-! ## The end of the input -/

/-- The characters up to the end of a finished input, and the buffer behind the
read of the end. -/
inductive ParserInputBuffer.Rest :
    ParserInputBuffer → List UInt8 → ParserInputBuffer → Prop
  | done {input : ParserInputBuffer} : input.finishedReadingInput = true →
      input.storage.pos = input.posLastReadChar →
      Rest input [] { input with logFullyConsumed := true }
  | read {input input₁ input' : ParserInputBuffer} {c : UInt8} {w : List UInt8} :
      input.getNextCharacter = (.ok c, input₁) → input₁.logFullyConsumed = false →
      Rest input₁ w input' → Rest input (c :: w) input'

/-- A buffer that holds a finished text. -/
theorem ParserInputBuffer.Holds.rest {src : Source} {input : ParserInputBuffer}
    (h : input.Holds src) (hfinished : src.finished = true) :
    ∃ input', input.Rest (subspan src.bytes input.storage.pos (src.size - input.storage.pos))
      input' := by
  induction hn : src.size - input.storage.pos generalizing input with
  | zero =>
    have hpos := h.pos_le
    exact ⟨_, .done (h.finished.trans hfinished) (by rw [h.posLastReadChar]; omega)⟩
  | succ n ih =>
    have hlt : input.storage.pos < src.size := by omega
    obtain ⟨input₁, hnext, hholds, hpos, hconsumed⟩ :=
      h.getNextCharacter fun hend => by omega
    rw [if_pos hlt] at hpos
    rw [Source.charAt_of_lt hlt] at hnext
    have hmore : input₁.logFullyConsumed = false := by
      rw [← Bool.not_eq_true, hconsumed]
      omega
    obtain ⟨input', hrest⟩ := ih hholds (by rw [hpos]; omega)
    rw [hpos] at hrest
    exact ⟨input', .read hnext hmore hrest⟩

namespace Scanner

variable {t : LexerTables} {s s' : Scanner} {wildcard : UInt8}

/-- Where the next tokens start is the same. -/
structure SameStart (s s' : Scanner) : Prop where
  startPos : s'.lexer.startPos = s.lexer.startPos
  lastMatchPos : s'.lexer.lastMatchPos = s.lexer.lastMatchPos
  lastMatchLine : s'.lexer.lastMatchLine = s.lexer.lastMatchLine
  line : s'.lexer.line = s.lexer.line

/-- The scanner has a match of the variables `typeIds` that ends at `matchPos`. -/
structure Matches (s : Scanner) (matchPos matchLine : Nat) (typeIds : List Nat) : Prop where
  isMatch : s.lexer.isMatch = true
  matchPos : s.lexer.matchPos = matchPos
  matchLine : s.lexer.matchLine = matchLine
  typeIds : s.lexer.typeIds = some typeIds

theorem wildcardChar_spec {nextChar : UInt8} (hchar : nextChar ≠ 10) (prevByteBufPos : Nat)
    (state : DfaState) :
    ∃ s', s.wildcardChar t nextChar prevByteBufPos state = .ok s' ∧ s'.input = s.input ∧
      SameStart s s' ∧ (s.input.logFullyConsumed = true → state.isAccepting = true →
        s'.Matches prevByteBufPos s.lexer.line state.matchingVariableIds) := by
  unfold wildcardChar
  dsimp only
  rw [if_neg hchar]
  split
  · exact ⟨_, rfl, rfl, ⟨rfl, rfl, rfl, rfl⟩, fun _ _ => ⟨rfl, rfl, rfl, rfl⟩⟩
  · rename_i hskip
    exact ⟨_, rfl, rfl, ⟨rfl, rfl, rfl, rfl⟩, fun hconsumed haccepting =>
      absurd ⟨Or.inr (Or.inl hconsumed), haccepting⟩ hskip⟩

/-- The match that ends at the end of the input is a variable if the wildcard
asks for accepted completions only. -/
theorem wildcardFinish_of_matches {p matchLine fuel : Nat} {typeIds : List Nat} {result : Bool}
    (hmatches : s.Matches s.input.storage.pos matchLine typeIds)
    (haccepts : t.acceptsWildcard fuel wildcard p = .ok result) :
    ∃ s', s.wildcardFinish t fuel wildcard p =
      .ok (s', if result then s.matchToken else s.staticToken) := by
  unfold wildcardFinish
  rw [if_neg (by simp [hmatches.isMatch, hmatches.matchPos]), haccepts]
  cases result <;> exact ⟨_, rfl⟩

end Scanner

namespace WildcardScanner

variable {t : LexerTables} {wildcard : UInt8} {prevState : Option Nat}

/-- The loop reads the rest of the input and ends in the state of its run. -/
theorem wildcardLoop_of_rest (hdfa : t.dfa.WellFormed) {input input' : ParserInputBuffer}
    {w : List UInt8} (hrest : input.Rest w input') (hnewline : ∀ c ∈ w, c ≠ 10) {s : Scanner}
    (hinput : s.input = input) {p q : Nat} (hp : p < t.dfa.states.length)
    (hrun : t.dfa.run p w = some q) (haccepting : t.isAccepting q = true) :
    ∃ s' : Scanner, s'.input = input' ∧ Scanner.SameStart s s' ∧
      s'.Matches input'.storage.pos s.lexer.line (t.dfa.typeIds q) ∧
      ∀ fuel, wildcardLoop t wildcard prevState fuel (some p) s =
        if w.length < fuel then do
          let (s, token) ← s'.wildcardFinish t (fuel - (w.length + 1)) wildcard q
          return ({ scanner := s, prevState := prevState }, .ok token)
        else .error .outOfSteps := by
  induction hrest generalizing s p with
  | @done input hfinished hend =>
    obtain rfl : p = q := Option.some.inj hrun
    have hstate : t.dfa.state? p = some t.dfa.states[p] := List.getElem?_eq_getElem hp
    have hids : t.dfa.typeIds p = t.dfa.states[p].matchingVariableIds :=
      Dfa.typeIds_of_state? hstate
    have haccepting' : t.dfa.states[p].isAccepting = true := by
      unfold LexerTables.isAccepting at haccepting
      rwa [hstate, Option.any_some] at haccepting
    have hnext : s.input.getNextCharacter = (.ok cCharEOF,
        { input with logFullyConsumed := true }) := by
      rw [hinput]
      exact if_pos ⟨hfinished, hend⟩
    obtain ⟨s', hs', hinput', hsame, hmatches⟩ :=
      @Scanner.wildcardChar_spec t { s with input := { input with logFullyConsumed := true } }
        cCharEOF (by decide) s.input.storage.pos t.dfa.states[p]
    refine ⟨s', hinput', ⟨hsame.1, hsame.2, hsame.3, hsame.4⟩, ?_, fun fuel => ?_⟩
    · rw [hids]
      show s'.Matches input.storage.pos _ _
      rw [← hinput]
      exact hmatches rfl haccepting'
    · cases fuel with
      | zero => rfl
      | succ fuel =>
        have hlt : ([] : List UInt8).length < fuel + 1 := Nat.succ_pos fuel
        rw [if_pos hlt, wildcardLoop, hnext]
        simp only [bind, Except.bind, derefOr_some, hstate, hs', hinput']
        rfl
  | @read input input₁ input' c w hnext hmore _ ih =>
    rw [Dfa.run_cons] at hrun
    obtain ⟨transition, htransition, hrun⟩ := Option.bind_eq_some_iff.1 hrun
    have hstate : t.dfa.state? p = some t.dfa.states[p] := List.getElem?_eq_getElem hp
    have hget : t.dfa.states[p].getTransition c.toNat = some transition := by
      rw [← htransition]
      unfold Dfa.transition?
      rw [hstate]
      rfl
    obtain ⟨s₁, hs₁, hinput₁, hsame₁, -⟩ :=
      @Scanner.wildcardChar_spec t { s with input := input₁ } c (hnewline c List.mem_cons_self)
        s.input.storage.pos t.dfa.states[p]
    obtain ⟨s', hinput', hsame, hmatches, hloop⟩ :=
      ih (fun b hb => hnewline b (List.mem_cons_of_mem c hb)) hinput₁
        (hdfa.dest _ _ _ htransition) hrun
    refine ⟨s', hinput', ⟨hsame.1.trans hsame₁.1, hsame.2.trans hsame₁.2,
      hsame.3.trans hsame₁.3, hsame.4.trans hsame₁.4⟩, ?_, fun fuel => ?_⟩
    · rw [hsame₁.line] at hmatches
      exact hmatches
    · cases fuel with
      | zero => rfl
      | succ fuel =>
        have hnext' : s.input.getNextCharacter = (.ok c, input₁) := by rw [hinput, hnext]
        rw [wildcardLoop, hnext']
        simp only [bind, Except.bind, derefOr_some, hstate, hs₁, hinput₁, hget, hmore]
        rw [hloop fuel, List.length_cons, Nat.add_sub_add_right]
        exact if_congr (Nat.add_lt_add_iff_right).symm rfl rfl

/-! ## A call -/

/-- Where the call starts its token. -/
def startPos (s : WildcardScanner) : Nat :=
  if s.scanner.lexer.askedForMoreData then s.scanner.lexer.startPos
  else s.scanner.input.storage.pos

/-- The call reads from the state `p`: it goes on there, or it starts anew. -/
def StartsAt (t : LexerTables) (s : WildcardScanner) (p : Nat) : Prop :=
  p < t.dfa.states.length ∧
    if s.scanner.lexer.askedForMoreData = true then s.prevState = some p
    else s.scanner.lexer.isMatch = false ∧ p = t.dfa.getRoot

/-- The variable from the start of the call to the end of the input. -/
def variableToken (t : LexerTables) (s : WildcardScanner) (input : ParserInputBuffer) (q : Nat) :
    Token where
  startPos := s.startPos
  endPos := input.storage.pos
  buffer := input.storage.getActiveBuffer
  bufferSize := input.storage.size
  lineNum := s.scanner.lexer.line
  typeIds := some (t.dfa.typeIds q)

/-- The static text from the last match to the end of the input. -/
def staticToken (s : WildcardScanner) (input : ParserInputBuffer) : Token where
  startPos := s.scanner.lexer.lastMatchPos
  endPos := input.storage.pos
  buffer := input.storage.getActiveBuffer
  bufferSize := input.storage.size
  lineNum := s.scanner.lexer.lastMatchLine
  typeIds := some cTokenUncaughtStringTypes

theorem scanWithWildcard_eq {s : WildcardScanner} {p : Nat} (h : s.StartsAt t p) :
    ∃ s₁ : Scanner, s₁.input = s.scanner.input ∧ s₁.lexer.startPos = s.startPos ∧
      s₁.lexer.lastMatchPos = s.scanner.lexer.lastMatchPos ∧
      s₁.lexer.lastMatchLine = s.scanner.lexer.lastMatchLine ∧
      s₁.lexer.line = s.scanner.lexer.line ∧
      ∀ fuel, s.scanWithWildcard t fuel wildcard =
        wildcardLoop t wildcard s.prevState fuel (some p) s₁ := by
  obtain ⟨-, hstart⟩ := h
  unfold scanWithWildcard startPos
  dsimp only
  split at hstart
  · rename_i hasked
    rw [if_pos hasked]
    refine ⟨{ s.scanner with lexer := { s.scanner.lexer with askedForMoreData := false } },
      rfl, rfl, rfl, rfl, rfl, fun fuel => ?_⟩
    rw [if_pos hasked, hstart]
  · rename_i hasked
    obtain ⟨hmatch, rfl⟩ := hstart
    let pos := s.scanner.input.storage.pos
    rw [if_neg hasked]
    refine ⟨{ s.scanner with
        lexer := { s.scanner.lexer with
          startPos := pos
          matchPos := pos
          matchLine := s.scanner.lexer.line
          typeIds := none } }, rfl, rfl, rfl, rfl, rfl, fun fuel => ?_⟩
    rw [if_neg hasked, if_neg (Bool.eq_false_iff.1 hmatch)]

theorem wildcardFinish_of_gap {s : Scanner} {p matchLine fuel : Nat} {typeIds : List Nat}
    (hmatches : s.Matches s.input.storage.pos matchLine typeIds)
    (hgap : ¬ t.GapsAreCovered p) :
    s.wildcardFinish t fuel wildcardQuestionMark p = .error .nullPointer := by
  unfold Scanner.wildcardFinish
  rw [if_neg (by simp [hmatches.isMatch, hmatches.matchPos]),
    LexerTables.acceptsWildcard_of_gap hgap]
  rfl

/-- Behind a gap, `?` reads a missing transition. -/
theorem scanWithWildcard_of_gap (hdfa : t.dfa.WellFormed) {s : WildcardScanner}
    {input' : ParserInputBuffer} {w : List UInt8} (hrest : s.scanner.input.Rest w input')
    (hnewline : ∀ c ∈ w, c ≠ 10) {p q : Nat} (hstart : s.StartsAt t p)
    (hrun : t.dfa.run p w = some q) (haccepting : t.isAccepting q = true)
    (hgap : ¬ t.GapsAreCovered q) {fuel : Nat} (hfuel : w.length < fuel) :
    s.scanWithWildcard t fuel wildcardQuestionMark = .error .nullPointer := by
  obtain ⟨s₁, hinput₁, -, -, -, -, hscan⟩ := @scanWithWildcard_eq t wildcardQuestionMark s p hstart
  rw [← hinput₁] at hrest
  obtain ⟨s', hinput', -, hmatches, hloop⟩ :=
    @wildcardLoop_of_rest t wildcardQuestionMark s.prevState hdfa _ _ _ hrest hnewline s₁ rfl p q
      hstart.1 hrun haccepting
  rw [← hinput'] at hmatches
  rw [hscan, hloop, if_pos hfuel, wildcardFinish_of_gap hmatches hgap]
  rfl

/-- A finished input without newlines whose end the call reaches in the
accepting state `q`: the call decides the wildcard, unless `?` reads a missing
transition. -/
theorem scanWithWildcard_iff (hdfa : t.dfa.WellFormed) {s : WildcardScanner}
    {input' : ParserInputBuffer} {w : List UInt8} (hrest : s.scanner.input.Rest w input')
    (hnewline : ∀ c ∈ w, c ≠ 10) {p q : Nat} (hstart : s.StartsAt t p)
    (hrun : t.dfa.run p w = some q) (haccepting : t.isAccepting q = true)
    (hwildcard : wildcard = wildcardQuestionMark ∨ wildcard = wildcardStar) :
    (∃ fuel s' token, s.scanWithWildcard t fuel wildcard = .ok (s', .ok token) ∧
      (t.AcceptsEvery wildcard q → token = s.variableToken t input' q) ∧
      (¬ t.AcceptsEvery wildcard q → token = s.staticToken input')) ↔
    (wildcard = wildcardQuestionMark → t.GapsAreCovered q) := by
  obtain ⟨s₁, hinput₁, hstartPos, hlastMatchPos, hlastMatchLine, hline, hscan⟩ :=
    @scanWithWildcard_eq t wildcard s p hstart
  rw [← hinput₁] at hrest
  obtain ⟨s', hinput', hsame, hmatches, hloop⟩ :=
    @wildcardLoop_of_rest t wildcard s.prevState hdfa _ _ _ hrest hnewline s₁ rfl p q hstart.1
      hrun haccepting
  have hq : q < t.dfa.states.length := by
    unfold LexerTables.isAccepting at haccepting
    obtain ⟨state, hstate, -⟩ := (Option.any_eq_true _ _).1 haccepting
    exact (List.getElem?_eq_some_iff.1 hstate).1
  constructor
  · rintro ⟨fuel, s'', token, hok, -⟩ rfl
    by_contra hgap
    rw [hscan, hloop] at hok
    split at hok
    · rw [← hinput'] at hmatches
      rw [wildcardFinish_of_gap hmatches hgap] at hok
      cases hok
    · cases hok
  · intro hcovered
    obtain ⟨fuel, result, haccepts, hresult⟩ :=
      LexerTables.exists_acceptsWildcard hdfa hq hwildcard hcovered
    have hmatches' := hmatches
    rw [← hinput'] at hmatches'
    obtain ⟨s'', hfinish⟩ := Scanner.wildcardFinish_of_matches hmatches' haccepts
    refine ⟨w.length + 1 + fuel, { scanner := s'', prevState := s.prevState },
      if result then s'.matchToken else s'.staticToken, ?_, fun hevery => ?_, fun hnot => ?_⟩
    · rw [hscan, hloop, if_pos (by omega), Nat.add_sub_cancel_left, hfinish]
      rfl
    · rw [hresult.2 hevery, if_pos rfl]
      unfold Scanner.matchToken variableToken
      rw [hmatches.matchPos, hmatches.matchLine, hmatches.typeIds, hsame.startPos, hstartPos,
        hinput', hline]
    · rw [if_neg (fun h => hnot (hresult.1 h))]
      unfold Scanner.staticToken Scanner.newToken staticToken
      rw [hsame.lastMatchPos, hlastMatchPos, hsame.lastMatchLine, hlastMatchLine, hinput']

/-! ### The variable `b` -/

open Scanner

/-- The text ` b` for the schema with the variable `b`. -/
structure ReadsLetter (t : LexerTables) (s : WildcardScanner) (input' : ParserInputBuffer)
    (q : Nat) : Prop where
  dfa : t.dfa.WellFormed
  rest : s.scanner.input.Rest [32, 98] input'
  startsAt : s.StartsAt t t.dfa.getRoot
  run : t.dfa.run t.dfa.getRoot [32, 98] = some q
  accepting : t.isAccepting q = true
  noTransition : t.dfa.transition? q 0 = none

theorem ne_newline_of_mem {c : UInt8} (hc : c ∈ [32, 98]) : c ≠ 10 := by
  rcases List.mem_cons.1 hc with rfl | hc
  · decide
  · rw [List.mem_singleton.1 hc]
    decide

theorem exists_readsLetter :
    ∃ t s input' q, letterSchema.generate id 40 = .ok t ∧ ReadsLetter t s input' q := by
  have hcheck : LogParser.checkTables letterSchema (fun t =>
      (t.dfa.run t.dfa.getRoot [32, 98]).any fun q =>
        t.isAccepting q && (t.dfa.transition? q 0).isNone) = true := by decide +kernel
  obtain ⟨t, hgenerate, hrun⟩ := LogParser.exists_of_checkTables hcheck
  obtain ⟨q, hrun, hq⟩ := (Option.any_eq_true _ _).1 hrun
  obtain ⟨haccepting, hnone⟩ := Bool.and_eq_true_iff.1 hq
  have ht := (LexerTables.ofSchema_generate (fun _ => .refl _) hgenerate).toWellFormed
  have hholds : (bufferOf (sourceOf [32, 98] 2 true)).Holds (sourceOf [32, 98] 2 true) :=
    holds_bufferOf (by decide)
  obtain ⟨input', hrest⟩ := hholds.rest rfl
  exact ⟨t, { scanner := { lexer := .new t, input := bufferOf (sourceOf [32, 98] 2 true) } },
    input', q, hgenerate, ht.dfa, hrest, ⟨ht.dfa.root, rfl, rfl⟩, hrun, haccepting,
    Option.isNone_iff_eq_none.1 hnone⟩

/-- With `*` the call decides. -/
theorem scanWithWildcard_iff_star : ∃ t s input' q, letterSchema.generate id 40 = .ok t ∧
    ReadsLetter t s input' q ∧
    ∃ fuel s' token, s.scanWithWildcard t fuel wildcardStar = .ok (s', .ok token) ∧
      (t.AcceptsEvery wildcardStar q → token = s.variableToken t input' q) ∧
      (¬ t.AcceptsEvery wildcardStar q → token = s.staticToken input') := by
  obtain ⟨t, s, input', q, hgenerate, hreads⟩ := exists_readsLetter
  exact ⟨t, s, input', q, hgenerate, hreads,
    (scanWithWildcard_iff hreads.dfa hreads.rest (fun _ => ne_newline_of_mem) hreads.startsAt
      hreads.run hreads.accepting (Or.inr rfl)).2 fun h => absurd h (by decide)⟩

/-- With `?` the call reads the missing transition on byte 0. -/
theorem not_scanWithWildcard : ∃ t s input' q, letterSchema.generate id 40 = .ok t ∧
    ReadsLetter t s input' q ∧ ¬ t.AcceptsEvery wildcardQuestionMark q ∧
    s.scanWithWildcard t 3 wildcardQuestionMark = .error .nullPointer := by
  obtain ⟨t, s, input', q, hgenerate, hreads⟩ := exists_readsLetter
  have hgap : ¬ t.GapsAreCovered q := by
    intro hcovered
    obtain ⟨byte, hlt, -⟩ := hcovered 0 (by decide) hreads.noTransition
    exact absurd hlt (Nat.not_lt_zero byte)
  refine ⟨t, s, input', q, hgenerate, hreads, fun h => hgap ?_, ?_⟩
  · exact LexerTables.gapsAreCovered_of_acceptsEveryByte (h.1 rfl)
  · exact scanWithWildcard_of_gap hreads.dfa hreads.rest (fun _ => ne_newline_of_mem)
      hreads.startsAt hreads.run hreads.accepting hgap (by decide)

end WildcardScanner

end LogSurgeon
