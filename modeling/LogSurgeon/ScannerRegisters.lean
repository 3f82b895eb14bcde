import LogSurgeon.ScannerFrame

/-!
# The registers of a scan

Scanning sets registers to positions of the storage only.  If no register holds
a position beyond `limit`, the last position of the storage, then this is so
behind a call of `scan`, and in the token that it returns (`scan_registers`).
-/

namespace LogSurgeon

theorem toPosition_le (pos : Nat) : toPosition pos ≤ pos := by
  have hmod : pos % 2 ^ 32 ≤ pos := Nat.mod_le _ _
  unfold toPosition
  split <;> omega

namespace RegisterHandler

theorem within_new (limit : Nat) : new.Within limit :=
  unused_new.within (Int.natCast_nonneg limit)

end RegisterHandler

namespace Dfa

/-- The handler has the registers of the DFA, and none holds a position beyond
the limit. -/
structure RegistersWithin (dfa : Dfa) (limit : Nat) (handler : RegisterHandler) : Prop where
  getNumRegs : handler.getNumRegs = dfa.regHandler.getNumRegs
  within : handler.Within limit

variable {dfa : Dfa} {limit currPos : Nat} {handler handler' : RegisterHandler}
  {ops : List RegisterOperation}

theorem RegistersWithin.hasRegisters (h : dfa.RegistersWithin limit handler) :
    dfa.HasRegisters handler := ⟨h.within.lt_length, h.getNumRegs⟩

theorem registersWithin_newRegHandler (dfa : Dfa) (limit : Nat) :
    dfa.RegistersWithin limit dfa.newRegHandler where
  getNumRegs := (hasRegisters_newRegHandler dfa).getNumRegs
  within := (RegisterHandler.unused_new.addRegisters _).within (Int.natCast_nonneg limit)

theorem RegistersWithin.processRegOps (h : dfa.RegistersWithin limit handler)
    (hops : OpsBelow dfa.regHandler.getNumRegs ops) (hpos : currPos ≤ limit)
    (hprocess : Dfa.processRegOps ops currPos handler = some handler') :
    dfa.RegistersWithin limit handler' := by
  have hle : toPosition currPos ≤ limit := (toPosition_le currPos).trans (Int.ofNat_le.2 hpos)
  rw [← h.getNumRegs] at hops
  obtain ⟨handler₁, hhandler₁, hnum, hwithin⟩ :=
    exists_processRegOps h.within hops hle (Int.natCast_nonneg limit)
  rw [hprocess] at hhandler₁
  cases hhandler₁
  exact ⟨hnum.trans h.getNumRegs, hwithin⟩

end Dfa

namespace Scanner

variable {t : LexerTables} {s s' : Scanner} {fuel prevByteBufPos limit : Nat} {nextChar : UInt8}

/-- The registers of the lexer hold positions up to the limit. -/
def KeepsWithin (t : LexerTables) (limit : Nat) (s : Scanner) : Prop :=
  t.dfa.RegistersWithin limit s.lexer.regHandler

/-- So do those of the token, if there is one. -/
def ReturnsWithin (limit : Nat) (result : ScanResult) : Prop :=
  ∀ token, result = .ok token → token.regHandler.Within limit

theorem returnsWithin_error (limit : Nat) (err : ErrorCode) :
    ReturnsWithin limit (.error err) := by
  intro token htoken
  cases htoken

theorem returnsWithin_ok {token : Token} (h : token.regHandler.Within limit) :
    ReturnsWithin limit (.ok token) := by
  intro token' htoken
  cases htoken
  exact h

theorem returnsWithin_newToken (s : Scanner) (limit startPos endPos lineNum : Nat)
    (typeIds : List Nat) : ReturnsWithin limit (.ok (s.newToken startPos endPos lineNum typeIds)) :=
  returnsWithin_ok (RegisterHandler.within_new limit)

theorem KeepsWithin.noteDelimiter (h : s.KeepsWithin t limit) :
    (s.noteDelimiter t nextChar prevByteBufPos).KeepsWithin t limit := by
  unfold Scanner.noteDelimiter
  split <;> exact h

theorem KeepsWithin.recordMatch (ht : t.WellFormed) (h : s.KeepsWithin t limit)
    (hprev : prevByteBufPos ≤ limit)
    (hrecord : s.recordMatch t nextChar prevByteBufPos = .ok s') : s'.KeepsWithin t limit := by
  unfold Scanner.recordMatch at hrecord
  split at hrecord
  · obtain ⟨state, hstate, hrecord⟩ := exists_of_bind_eq_ok hrecord
    split at hrecord
    · obtain ⟨handler, hhandler, hrecord⟩ := exists_of_bind_eq_ok hrecord
      obtain ⟨p, -, hp⟩ := Option.bind_eq_some_iff.1 (eq_some_of_derefOr hstate)
      cases hrecord
      exact h.processRegOps (ht.registers.accepting p state hp) hprev (eq_some_of_derefOr hhandler)
    · cases hrecord
      exact h
  · cases hrecord
    exact h

theorem KeepsWithin.processChar (ht : t.WellFormed) (h : s.KeepsWithin t limit)
    (hprev : prevByteBufPos ≤ limit)
    (hprocess : s.processChar t nextChar prevByteBufPos = .ok s') : s'.KeepsWithin t limit := by
  unfold Scanner.processChar at hprocess
  obtain ⟨state, hstate, hprocess⟩ := exists_of_bind_eq_ok hprocess
  split at hprocess
  · cases hprocess
    exact h
  · rename_i transition htransition
    obtain ⟨handler, hhandler, hprocess⟩ := exists_of_bind_eq_ok hprocess
    obtain ⟨p, -, hp⟩ := Option.bind_eq_some_iff.1 (eq_some_of_derefOr hstate)
    have hedge : t.dfa.transition? p nextChar.toNat = some transition := by
      unfold Dfa.transition?
      rw [hp]
      exact htransition
    cases hprocess
    exact h.processRegOps (ht.registers.transitions p _ transition hedge) hprev
      (eq_some_of_derefOr hhandler)

theorem KeepsWithin.startAtNewline (ht : t.WellFormed) (h : s.KeepsWithin t limit)
    (hprev : prevByteBufPos ≤ limit)
    (hstart : s.startAtNewline t nextChar prevByteBufPos = .ok s') : s'.KeepsWithin t limit := by
  unfold Scanner.startAtNewline at hstart
  obtain ⟨s₁, hs₁, hstart⟩ := exists_of_bind_eq_ok hstart
  obtain ⟨state, -, hstart⟩ := exists_of_bind_eq_ok hstart
  cases hstart
  have hroot : (s.root t).KeepsWithin t limit := h
  show s₁.KeepsWithin t limit
  exact hroot.processChar ht hprev hs₁

theorem KeepsWithin.skip (h : s.KeepsWithin t limit) {result : Except ErrorCode Nat}
    (hskip : s.skip t fuel nextChar prevByteBufPos = .ok (s', result)) :
    s'.KeepsWithin t limit := by
  induction fuel generalizing s nextChar prevByteBufPos with
  | zero =>
    unfold Scanner.skip at hskip
    split at hskip
    · cases hskip
    · cases hskip
      exact h
  | succ fuel ih =>
    unfold Scanner.skip at hskip
    split at hskip
    · dsimp only at hskip
      split at hskip
      · cases hskip
        exact h
      · rename_i next input hget
        have hread : ({ s with input := input } : Scanner).KeepsWithin t limit := h
        exact ih hread hskip
    · cases hskip
      exact h

/-- A match takes the registers with it. -/
theorem KeepsWithin.releaseMatch (h : s.KeepsWithin t limit) :
    (s.releaseMatch t).1.KeepsWithin t limit ∧
      ReturnsWithin limit (.ok (s.releaseMatch t).2) :=
  ⟨Dfa.registersWithin_newRegHandler t.dfa limit, returnsWithin_ok h.within⟩

theorem KeepsWithin.finishMatch (h : s.KeepsWithin t limit) :
    (s.finishMatch t).1.KeepsWithin t limit ∧
      ReturnsWithin limit (.ok (s.finishMatch t).2) := by
  unfold Scanner.finishMatch
  dsimp only
  split
  · exact ⟨h, returnsWithin_newToken _ _ _ _ _ _⟩
  · have hmoved : Scanner.KeepsWithin t limit
        { lexer := { s.lexer with line := s.lexer.matchLine }
          input := (s.input.setLogFullyConsumed false).setPos s.lexer.matchPos } := h
    exact hmoved.releaseMatch

theorem KeepsWithin.finishInput (h : s.KeepsWithin t limit) :
    s.finishInput.1.KeepsWithin t limit ∧ ReturnsWithin limit (.ok s.finishInput.2) := by
  unfold Scanner.finishInput
  split
  · split
    · exact ⟨h, returnsWithin_newToken _ _ _ _ _ _⟩
    · exact ⟨h, returnsWithin_newToken _ _ _ _ _ _⟩
  · exact ⟨h, returnsWithin_newToken _ _ _ _ _ _⟩

theorem KeepsWithin.finish (h : s.KeepsWithin t limit) {result : Option ScanResult}
    (hfinish : s.finish t fuel nextChar prevByteBufPos = .ok (s', result)) :
    s'.KeepsWithin t limit ∧ ∀ r, result = some r → ReturnsWithin limit r := by
  unfold Scanner.finish at hfinish
  split at hfinish
  · cases hfinish
    refine ⟨h.finishMatch.1, fun r hr => ?_⟩
    cases hr
    exact h.finishMatch.2
  · split at hfinish
    · cases hfinish
      refine ⟨h.finishInput.1, fun r hr => ?_⟩
      cases hr
      exact h.finishInput.2
    · split at hfinish
      · cases hfinish
        refine ⟨h, fun r hr => ?_⟩
        cases hr
        exact returnsWithin_newToken _ _ _ _ _ _
      · obtain ⟨⟨s₁, r₁⟩, hskip, hfinish⟩ := exists_of_bind_eq_ok hfinish
        have hroot : (s.root t).KeepsWithin t limit := h
        have hskipped := hroot.skip hskip
        dsimp only at hfinish
        split at hfinish
        · cases hfinish
          refine ⟨hskipped, fun r hr => ?_⟩
          cases hr
          exact returnsWithin_error limit _
        · cases hfinish
          refine ⟨hskipped, fun r hr => ?_⟩
          cases hr

theorem KeepsWithin.scanChar (ht : t.WellFormed) (h : s.KeepsWithin t limit)
    (hprev : prevByteBufPos ≤ limit) {result : Option ScanResult}
    (hscan : s.scanChar t fuel nextChar prevByteBufPos = .ok (s', result)) :
    s'.KeepsWithin t limit ∧ ∀ r, result = some r → ReturnsWithin limit r := by
  unfold Scanner.scanChar at hscan
  obtain ⟨s₁, hs₁, hscan⟩ := exists_of_bind_eq_ok hscan
  have hrecord := h.noteDelimiter.recordMatch ht hprev hs₁
  obtain ⟨s₂, hs₂, hscan⟩ := exists_of_bind_eq_ok hscan
  have hprocess := hrecord.processChar ht hprev hs₂
  have hcount : Scanner.KeepsWithin t limit (if nextChar = 10 then
      { s₂ with lexer := { s₂.lexer with line := s₂.lexer.line + 1 } } else s₂) := by
    split <;> exact hprocess
  dsimp only at hscan
  generalize (if nextChar = 10 then
    { s₂ with lexer := { s₂.lexer with line := s₂.lexer.line + 1 } } else s₂) = s₃ at hcount hscan
  split at hscan
  · obtain ⟨s₄, hs₄, hscan⟩ := exists_of_bind_eq_ok hscan
    cases hscan
    refine ⟨hcount.startAtNewline ht hprev hs₄, fun r hr => ?_⟩
    cases hr
  · split at hscan
    · exact hcount.finish hscan
    · cases hscan
      refine ⟨hcount, fun r hr => ?_⟩
      cases hr

/-- A step reads at a position of the storage. -/
theorem KeepsWithin.scanStep (ht : t.WellFormed) (h : s.KeepsWithin t limit)
    (hpos : s.input.storage.pos ≤ limit) {result : Option ScanResult}
    (hstep : s.scanStep t fuel = .ok (s', result)) :
    s'.KeepsWithin t limit ∧ ∀ r, result = some r → ReturnsWithin limit r := by
  unfold Scanner.scanStep at hstep
  split at hstep
  · cases hstep
    refine ⟨h, fun r hr => ?_⟩
    cases hr
    exact returnsWithin_error limit _
  · rename_i next input hget
    have hread : ({ s with input := input } : Scanner).KeepsWithin t limit := h
    exact hread.scanChar ht hpos hstep

theorem KeepsWithin.scanLoop (ht : t.WellFormed) (h : s.KeepsWithin t limit) (hwithin : s.Within)
    (hsize : s.input.storage.size = limit + 1) {result : ScanResult}
    (hloop : s.scanLoop t fuel = .ok (s', result)) :
    s'.KeepsWithin t limit ∧ ReturnsWithin limit result := by
  induction fuel generalizing s with
  | zero => cases hloop
  | succ fuel ih =>
    obtain ⟨⟨s₁, r₁⟩, hstep, hloop⟩ := exists_of_bind_eq_ok hloop
    obtain ⟨hframe, -⟩ := scanStep_frame hwithin hstep
    have hpos := hwithin.pos
    obtain ⟨hkeeps, hreturns⟩ := h.scanStep ht (by omega) hstep
    cases r₁ with
    | some r₁ =>
      cases hloop
      exact ⟨hkeeps, hreturns _ rfl⟩
    | none => exact ih hkeeps hframe.within (hframe.input.size.trans hsize) hloop

/-- A call of `scan` leaves registers that hold positions of the storage only,
and so does its token. -/
theorem scan_registers (ht : t.WellFormed) (h : s.KeepsWithin t limit) (hwithin : s.Within)
    (hsize : s.input.storage.size = limit + 1) {result : ScanResult}
    (hscan : s.scan t fuel = .ok (s', result)) :
    s'.KeepsWithin t limit ∧ ReturnsWithin limit result := by
  unfold scan at hscan
  split at hscan
  · have hgo : Scanner.KeepsWithin t limit
        { s with lexer := { s.lexer with askedForMoreData := false } } := h
    exact hgo.scanLoop ht ⟨hwithin.pos, hwithin.startPos, hwithin.lastMatchPos, hwithin.matchPos,
      hwithin.firstDelimiterPos⟩ hsize hscan
  · split at hscan
    · cases hscan
      have hroot : (s.root t).KeepsWithin t limit := h
      exact hroot.releaseMatch
    · have hbegin : (s.begin t).KeepsWithin t limit := h
      obtain ⟨hinput, hwithin'⟩ := begin_frame (t := t) hwithin
      exact hbegin.scanLoop ht hwithin' (hinput.size.trans hsize) hscan

end Scanner

end LogSurgeon
