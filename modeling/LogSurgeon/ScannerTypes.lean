import LogSurgeon.Lib.Outcomes
import LogSurgeon.ScannerStates

/-!
# The types of tokens

A token has the types that a state of the DFA matches, the type of the static
text, or the type of the end of the input.  `Scanner.scan_types` says so for a
call of `scan` on any input buffer: the lexer keeps no other types from one call
to the next, and a match of its own has types.
-/

namespace LogSurgeon

open Lib

/-- Types that the lexer gives to a token. -/
def LexerTables.GivesTypes (t : LexerTables) (typeIds : List Nat) : Prop :=
  typeIds = cTokenEndTypes ∨ typeIds = cTokenUncaughtStringTypes ∨
    ∃ state ∈ t.dfa.states, typeIds = state.matchingVariableIds

/-- The lexer keeps types that it gives, and a match has some. -/
structure Lexer.KeepsTypes (t : LexerTables) (lexer : Lexer) : Prop where
  gives : ∀ typeIds, lexer.typeIds = some typeIds → t.GivesTypes typeIds
  matched : lexer.isMatch = true → ∃ typeIds, lexer.typeIds = some typeIds

def Token.HasTypes (t : LexerTables) (token : Token) : Prop :=
  ∃ typeIds, token.typeIds = some typeIds ∧ t.GivesTypes typeIds

theorem Lexer.KeepsTypes.of_some {t : LexerTables} {lexer : Lexer} {typeIds : List Nat}
    (htypes : lexer.typeIds = some typeIds) (h : t.GivesTypes typeIds) : lexer.KeepsTypes t where
  gives typeIds' htypes' := by
    rw [htypes] at htypes'
    cases htypes'
    exact h
  matched _ := ⟨typeIds, htypes⟩

theorem Lexer.KeepsTypes.of_unmatched {t : LexerTables} {lexer : Lexer}
    (htypes : lexer.typeIds = none) (hmatch : lexer.isMatch = false) : lexer.KeepsTypes t where
  gives typeIds htypes' := by
    rw [htypes] at htypes'
    cases htypes'
  matched hmatch' := by
    rw [hmatch] at hmatch'
    cases hmatch'

namespace Scanner

variable {t : LexerTables} {s s' : Scanner} {nextChar : UInt8} {prevByteBufPos fuel : Nat}

/-- What a step leaves behind if it returns, where no index is out of bounds. -/
abbrev Leaves {α : Type} (x : Except Fault α) (P : α → Prop) : Prop :=
  Yields x P fun fault => fault ≠ .outOfBounds

theorem leaves_derefOr {α : Type} {fault : Fault} (h : fault ≠ .outOfBounds) (a : Option α) :
    Leaves (derefOr fault a) fun x => a = some x := by
  cases a with
  | none => exact h
  | some a => exact rfl

/-- The scanners have the same match. -/
structure SameMatch (s s' : Scanner) : Prop where
  typeIds : s'.lexer.typeIds = s.lexer.typeIds
  isMatch : s'.lexer.isMatch = s.lexer.isMatch

theorem SameMatch.keepsTypes (h : SameMatch s s') (hkeeps : s.lexer.KeepsTypes t) :
    s'.lexer.KeepsTypes t := by
  obtain ⟨hgives, hmatched⟩ := hkeeps
  rw [← h.typeIds] at hgives hmatched
  rw [← h.isMatch] at hmatched
  exact ⟨hgives, hmatched⟩

/-- The types of a match, and of what is returned with it. -/
def ReturnsTypes (t : LexerTables) (result : ScanResult) : Prop :=
  ∀ token, result = .ok token → token.HasTypes t

theorem givesTypes_of_current {state : DfaState}
    (h : s.lexer.state.bind t.dfa.state? = some state) :
    t.GivesTypes state.matchingVariableIds := by
  obtain ⟨i, -, hi⟩ := Option.bind_eq_some_iff.1 h
  exact Or.inr (Or.inr ⟨state, List.mem_of_getElem? hi, rfl⟩)

theorem sameMatch_noteDelimiter : SameMatch s (s.noteDelimiter t nextChar prevByteBufPos) := by
  unfold noteDelimiter
  split <;> exact ⟨rfl, rfl⟩

theorem recordMatch_types (h : s.lexer.KeepsTypes t) :
    Leaves (s.recordMatch t nextChar prevByteBufPos) fun s' => s'.lexer.KeepsTypes t := by
  unfold recordMatch
  split
  · refine (leaves_derefOr (by decide) _).bind fun state hstate => ?_
    split
    · refine (leaves_derefOr (by decide) _).bind fun regHandler _ => ?_
      exact .of_some rfl (givesTypes_of_current hstate)
    · exact h
  · exact h

theorem processChar_types :
    Leaves (s.processChar t nextChar prevByteBufPos) (SameMatch s) := by
  unfold processChar
  refine (leaves_derefOr (by decide) _).bind fun state _ => ?_
  split
  · exact ⟨rfl, rfl⟩
  · exact (leaves_derefOr (by decide) _).bind fun regHandler _ => ⟨rfl, rfl⟩

theorem startAtNewline_types :
    Leaves (s.startAtNewline t nextChar prevByteBufPos) fun s' => s'.lexer.KeepsTypes t := by
  unfold startAtNewline
  refine (processChar_types (s := s.root t)).bind fun s₁ _ => ?_
  refine (leaves_derefOr (by decide) _).bind fun state hstate => ?_
  exact .of_some rfl (givesTypes_of_current hstate)

theorem skip_types :
    Leaves (s.skip t fuel nextChar prevByteBufPos) fun r => SameMatch s r.1 := by
  induction fuel generalizing s nextChar prevByteBufPos with
  | zero =>
    unfold skip
    split
    · exact fun h => by cases h
    · exact ⟨rfl, rfl⟩
  | succ fuel ih =>
    unfold skip
    split
    · rcases s.input.getNextCharacter with ⟨err | next, input⟩
      · exact ⟨rfl, rfl⟩
      · exact (ih (s := { s with input := input })).mono (fun r hr => ⟨hr.typeIds, hr.isMatch⟩)
          fun fault hfault => hfault
    · exact ⟨rfl, rfl⟩

theorem hasTypes_newToken (startPos endPos lineNum : Nat) {typeIds : List Nat}
    (h : t.GivesTypes typeIds) : (s.newToken startPos endPos lineNum typeIds).HasTypes t :=
  ⟨typeIds, rfl, h⟩

theorem releaseMatch_types (h : s.lexer.KeepsTypes t) (hmatch : s.lexer.isMatch = true) :
    (s.releaseMatch t).1.lexer.KeepsTypes t ∧ (s.releaseMatch t).2.HasTypes t := by
  obtain ⟨typeIds, htypes⟩ := h.matched hmatch
  exact ⟨⟨h.gives, fun _ => ⟨typeIds, htypes⟩⟩, typeIds, htypes, h.gives typeIds htypes⟩

theorem finishMatch_types (h : s.lexer.KeepsTypes t) (hmatch : s.lexer.isMatch = true) :
    (s.finishMatch t).1.lexer.KeepsTypes t ∧ (s.finishMatch t).2.HasTypes t := by
  unfold finishMatch
  dsimp only
  split
  · exact ⟨⟨h.gives, h.matched⟩, hasTypes_newToken _ _ _ (Or.inr (Or.inl rfl))⟩
  · exact releaseMatch_types ⟨h.gives, h.matched⟩ hmatch

theorem finishInput_types (h : s.lexer.KeepsTypes t) :
    s.finishInput.1.lexer.KeepsTypes t ∧ s.finishInput.2.HasTypes t := by
  unfold finishInput
  split
  · split
    · exact ⟨⟨h.gives, h.matched⟩, hasTypes_newToken _ _ _ (Or.inr (Or.inl rfl))⟩
    · exact ⟨.of_some rfl (Or.inl rfl), hasTypes_newToken _ _ _ (Or.inr (Or.inl rfl))⟩
  · exact ⟨h, hasTypes_newToken _ _ _ (Or.inl rfl)⟩

/-- What a step leaves behind, and what it returns if it ends the call. -/
def StepTypes (t : LexerTables) (r : Scanner × Option ScanResult) : Prop :=
  r.1.lexer.KeepsTypes t ∧ ∀ result, r.2 = some result → ReturnsTypes t result

theorem stepTypes_ok {token : Token} (h : s.lexer.KeepsTypes t) (htoken : token.HasTypes t) :
    StepTypes t (s, some (.ok token)) := by
  refine ⟨h, fun result hresult => ?_⟩
  cases hresult
  intro token' htoken'
  cases htoken'
  exact htoken

theorem stepTypes_error {err : ErrorCode} (h : s.lexer.KeepsTypes t) :
    StepTypes t (s, some (.error err)) := by
  refine ⟨h, fun result hresult => ?_⟩
  cases hresult
  intro token' htoken'
  cases htoken'

theorem stepTypes_none (h : s.lexer.KeepsTypes t) : StepTypes t (s, none) :=
  ⟨h, fun result hresult => by cases hresult⟩

theorem finish_types (h : s.lexer.KeepsTypes t) :
    Leaves (s.finish t fuel nextChar prevByteBufPos) (StepTypes t) := by
  unfold finish
  split
  · rename_i hmatch
    exact stepTypes_ok (finishMatch_types h hmatch).1 (finishMatch_types h hmatch).2
  · split
    · exact stepTypes_ok (finishInput_types h).1 (finishInput_types h).2
    · split
      · exact stepTypes_ok ⟨h.gives, h.matched⟩ (hasTypes_newToken _ _ _ (Or.inr (Or.inl rfl)))
      · refine (skip_types (s := s.root t)).bind fun r hr => ?_
        obtain ⟨s₁, result⟩ := r
        have hs₁ : s₁.lexer.KeepsTypes t := hr.keepsTypes ⟨h.gives, h.matched⟩
        cases result with
        | error err => exact stepTypes_error hs₁
        | ok pos => exact stepTypes_none ⟨hs₁.gives, hs₁.matched⟩

theorem scanChar_types (h : s.lexer.KeepsTypes t) :
    Leaves (s.scanChar t fuel nextChar prevByteBufPos) (StepTypes t) := by
  unfold scanChar
  refine (recordMatch_types (sameMatch_noteDelimiter.keepsTypes h)).bind fun s₁ hs₁ => ?_
  refine processChar_types.bind fun s₂ hsame => ?_
  dsimp only
  generalize hs₃ : (if nextChar = 10 then
    { s₂ with lexer := { s₂.lexer with line := s₂.lexer.line + 1 } } else s₂ : Scanner) = s₃
  have hline : SameMatch s₂ s₃ := by
    rw [← hs₃]
    split <;> exact ⟨rfl, rfl⟩
  have hs₃ := hline.keepsTypes (hsame.keepsTypes hs₁)
  split
  · exact startAtNewline_types.bind fun s₄ hs₄ => stepTypes_none hs₄
  · split
    · exact finish_types hs₃
    · exact stepTypes_none hs₃

theorem scanStep_types (h : s.lexer.KeepsTypes t) :
    Leaves (s.scanStep t fuel) (StepTypes t) := by
  unfold scanStep
  rcases s.input.getNextCharacter with ⟨err | next, input⟩
  · exact stepTypes_error ⟨h.gives, h.matched⟩
  · exact scanChar_types (s := { s with input := input }) h

theorem scanLoop_types (h : s.lexer.KeepsTypes t) :
    Leaves (s.scanLoop t fuel) fun r => r.1.lexer.KeepsTypes t ∧ ReturnsTypes t r.2 := by
  induction fuel generalizing s with
  | zero => exact fun h => by cases h
  | succ fuel ih =>
    unfold scanLoop
    refine (scanStep_types h).bind fun r hr => ?_
    obtain ⟨s₁, result⟩ := r
    cases result with
    | none => exact ih hr.1
    | some result => exact ⟨hr.1, hr.2 result rfl⟩

/-- A call of `scan` on any input buffer. -/
theorem scan_types (h : s.lexer.KeepsTypes t) :
    Leaves (s.scan t fuel) fun r => r.1.lexer.KeepsTypes t ∧ ReturnsTypes t r.2 := by
  unfold scan
  split
  · exact scanLoop_types ⟨h.gives, h.matched⟩
  · split
    · rename_i hmatch
      obtain ⟨hkeeps, htoken⟩ := releaseMatch_types (s := s.root t) ⟨h.gives, h.matched⟩ hmatch
      refine ⟨hkeeps, fun token hresult => ?_⟩
      cases hresult
      exact htoken
    · rename_i hmatch
      exact scanLoop_types (.of_unmatched rfl (Bool.eq_false_iff.2 hmatch))

/-- A scan of a lexer that is ready has no undefined behaviour. -/
theorem scan_yields (ht : t.LeadsOn) (hready : Ready t s.lexer) (h : s.lexer.KeepsTypes t) :
    Yields (s.scan t fuel)
      (fun r => Ready t r.1.lexer ∧ r.1.lexer.KeepsTypes t ∧ ReturnsTypes t r.2)
      Fault.IsDefined := by
  have hstates : Safely (s.scan t fuel) fun r => Ready t r.1.lexer := scan_ready ht hready s.input
  have htypes : Leaves (s.scan t fuel) fun r => r.1.lexer.KeepsTypes t ∧ ReturnsTypes t r.2 :=
    scan_types h
  unfold Safely at hstates
  cases hscan : s.scan t fuel with
  | ok r =>
    rw [hscan] at hstates htypes
    exact ⟨hstates, htypes⟩
  | error fault =>
    rw [hscan] at hstates htypes
    cases fault with
    | thrown => exact Or.inl rfl
    | nullPointer => exact absurd rfl hstates
    | outOfBounds => exact absurd rfl htypes
    | outOfSteps => exact Or.inr rfl

end Scanner

end LogSurgeon
