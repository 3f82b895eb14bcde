import LogSurgeon.LexerTables
import LogSurgeon.LogParser
import LogSurgeon.ReaderParser

/-!
# The states that a scan reads

Between two calls of `scan` a lexer is `Ready`: if it goes on where the input
ended, its state exists.  A call on any input buffer reads existing states only
and leaves a lexer that is ready (`scan_states`).

Only the state behind the start-of-file character need not exist.  It does for
the schemas with a rule (`never_null_iff`).
-/

namespace LogSurgeon

/-! ## Steps that read no null pointer -/

/-- The step reads no null pointer, and what it returns satisfies `Q`. -/
def Safely {α : Type} (x : Except Fault α) (Q : α → Prop) : Prop :=
  match x with
  | .ok a => Q a
  | .error fault => fault ≠ .nullPointer

namespace Safely

variable {α β : Type} {x : Except Fault α} {P Q : α → Prop}

theorem bind {f : α → Except Fault β} {R : β → Prop} (hx : Safely x P)
    (hf : ∀ a, P a → Safely (f a) R) : Safely (x >>= f) R := by
  cases x with
  | ok a => exact hf a hx
  | error fault => exact hx

theorem imp (hx : Safely x P) (h : ∀ a, P a → Q a) : Safely x Q := by
  cases x with
  | ok a => exact h a hx
  | error fault => exact hx

theorem of_thrown (a : Option α) : Safely (derefOr .thrown a) fun _ => True := by
  cases a with
  | none => exact fun h => by cases h
  | some a => trivial

theorem ne_nullPointer (hx : Safely x P) : x ≠ .error .nullPointer := by
  intro h
  rw [h] at hx
  exact hx rfl

theorem of_ok (hx : Safely x P) {a : α} (h : x = .ok a) : P a := by
  rw [h] at hx
  exact hx

end Safely

/-- What a scan relies on: transitions lead to states that exist, and with
delimiters a newline leads on from the root. -/
structure LexerTables.LeadsOn (t : LexerTables) : Prop where
  dfa : t.dfa.WellFormed
  newline : t.hasDelimiters = true →
    ∃ transition, t.dfa.transition? t.dfa.getRoot 10 = some transition

theorem LexerTables.WellFormed.leadsOn {t : LexerTables} (h : t.WellFormed) : t.LeadsOn := by
  obtain ⟨transition, ids, htransition, -⟩ := h.newline
  exact ⟨h.dfa, fun _ => ⟨transition, htransition⟩⟩

namespace Scanner

variable {t : LexerTables} {s s' : Scanner} {nextChar : UInt8} {prevByteBufPos fuel : Nat}

/-! ## The current state exists -/

def Running (t : LexerTables) (s : Scanner) : Prop :=
  ∃ p, s.lexer.state = some p ∧ p < t.dfa.states.length

theorem Running.state? (h : s.Running t) :
    ∃ state, s.lexer.state.bind t.dfa.state? = some state := by
  obtain ⟨p, hp, hlt⟩ := h
  rw [hp]
  exact ⟨_, List.getElem?_eq_getElem hlt⟩

theorem running_root (ht : t.LeadsOn) (s : Scanner) : (s.root t).Running t :=
  ⟨t.dfa.getRoot, rfl, ht.dfa.root⟩

/-- The scanners have the same state, and they ask for more data alike. -/
structure SameState (s s' : Scanner) : Prop where
  state : s'.lexer.state = s.lexer.state
  askedForMoreData : s'.lexer.askedForMoreData = s.lexer.askedForMoreData

theorem SameState.running (h : SameState s s') (hrunning : s.Running t) : s'.Running t := by
  unfold Running
  rw [h.state]
  exact hrunning

theorem sameState_noteDelimiter :
    SameState s (s.noteDelimiter t nextChar prevByteBufPos) := by
  unfold noteDelimiter
  split <;> exact ⟨rfl, rfl⟩

theorem recordMatch_states (h : s.Running t) :
    Safely (s.recordMatch t nextChar prevByteBufPos) (SameState s) := by
  obtain ⟨state, hstate⟩ := h.state?
  unfold recordMatch
  rw [hstate, derefOr_some]
  split
  · show Safely (if state.isAccepting then _ else _) _
    split
    · exact (Safely.of_thrown _).bind fun _ _ => ⟨rfl, rfl⟩
    · exact ⟨rfl, rfl⟩
  · exact ⟨rfl, rfl⟩

/-- The state behind a character is the one of the transition, if there is
one. -/
theorem processChar_states {p : Nat} (hp : s.lexer.state = some p)
    (hlt : p < t.dfa.states.length) :
    Safely (s.processChar t nextChar prevByteBufPos) fun s' =>
      s'.lexer.askedForMoreData = s.lexer.askedForMoreData ∧
        s'.lexer.state = (t.dfa.transition? p nextChar.toNat).map (·.destState) := by
  have hstate : t.dfa.state? p = some t.dfa.states[p] := List.getElem?_eq_getElem hlt
  have hread : Safely (.ok t.dfa.states[p]) fun state =>
      state.getTransition nextChar.toNat = t.dfa.transition? p nextChar.toNat := by
    unfold Dfa.transition?
    rw [hstate]
    rfl
  unfold processChar
  rw [hp, Option.bind_some, hstate, derefOr_some]
  refine hread.bind fun state hnext => ?_
  rw [← hnext]
  cases state.getTransition nextChar.toNat with
  | none => exact ⟨rfl, rfl⟩
  | some transition => exact (Safely.of_thrown _).bind fun _ _ => ⟨rfl, rfl⟩

/-- A newline leads from the root to an existing state. -/
theorem startAtNewline_states (ht : t.LeadsOn) (hdelimiters : t.hasDelimiters = true) :
    Safely (s.startAtNewline t 10 prevByteBufPos) fun s' =>
      s'.lexer.askedForMoreData = s.lexer.askedForMoreData ∧ s'.Running t := by
  obtain ⟨transition, htransition⟩ := ht.newline hdelimiters
  have hdest := ht.dfa.dest _ _ _ htransition
  unfold startAtNewline
  refine (processChar_states (s := s.root t) rfl ht.dfa.root).bind fun s₁ ⟨hasked, hstate⟩ => ?_
  have hnewline : (10 : UInt8).toNat = 10 := rfl
  rw [hnewline, htransition] at hstate
  have hrunning : s₁.Running t := ⟨transition.destState, hstate, hdest⟩
  obtain ⟨state, hstate'⟩ := hrunning.state?
  rw [hstate', derefOr_some]
  exact ⟨hasked, hrunning⟩

/-! ## A step of the loop -/

/-- What a call of `scan` relies on: it goes on with an existing state, or it
starts at the root. -/
def Ready (t : LexerTables) (lexer : Lexer) : Prop :=
  lexer.askedForMoreData = true → ∃ p, lexer.state = some p ∧ p < t.dfa.states.length

theorem ready_of_not_asked {lexer : Lexer} (h : lexer.askedForMoreData = false) :
    Ready t lexer := by
  intro hasked
  rw [h] at hasked
  cases hasked

/-- The loop runs with an existing state, and it has not asked for more data. -/
structure Looping (t : LexerTables) (s : Scanner) : Prop where
  running : s.Running t
  asked : s.lexer.askedForMoreData = false

theorem skip_states (h : s.Looping t) :
    Safely (s.skip t fuel nextChar prevByteBufPos) fun (s', result) =>
      s'.Running t ∧ (∀ pos, result = .ok pos → s'.lexer.askedForMoreData = false) := by
  induction fuel generalizing s nextChar prevByteBufPos with
  | zero =>
    unfold skip
    split
    · exact fun h => by cases h
    · exact ⟨h.running, fun _ _ => h.asked⟩
  | succ fuel ih =>
    unfold skip
    split
    · rcases s.input.getNextCharacter with ⟨err | next, input⟩
      · exact ⟨h.running, fun pos hpos => by cases hpos⟩
      · exact ih (s := { s with input := input }) ⟨h.running, h.asked⟩
    · exact ⟨h.running, fun _ _ => h.asked⟩

/-- What a step leaves behind. -/
def StepStates (t : LexerTables) : Scanner × Option ScanResult → Prop
  | (s, none) => s.Looping t
  | (s, some _) => Ready t s.lexer

theorem asked_finishMatch :
    (s.finishMatch t).1.lexer.askedForMoreData = s.lexer.askedForMoreData := by
  unfold finishMatch
  dsimp only
  split <;> rfl

theorem asked_finishInput :
    s.finishInput.1.lexer.askedForMoreData = s.lexer.askedForMoreData := by
  unfold finishInput
  split
  · split <;> rfl
  · rfl

theorem finish_states (ht : t.LeadsOn) (hasked : s.lexer.askedForMoreData = false) :
    Safely (s.finish t fuel nextChar prevByteBufPos) (StepStates t) := by
  unfold finish
  split
  · exact ready_of_not_asked (asked_finishMatch.trans hasked)
  · split
    · exact ready_of_not_asked (asked_finishInput.trans hasked)
    · split
      · exact ready_of_not_asked hasked
      · have hskip := @skip_states t (s.root t) nextChar prevByteBufPos fuel
          ⟨running_root ht s, hasked⟩
        refine hskip.bind fun ⟨s', result⟩ ⟨hrunning, hok⟩ => ?_
        cases result with
        | error err => exact fun _ => hrunning
        | ok pos => exact ⟨hrunning, hok pos rfl⟩

theorem scanChar_states (ht : t.LeadsOn) (h : s.Looping t) :
    Safely (s.scanChar t fuel nextChar prevByteBufPos) (StepStates t) := by
  unfold scanChar
  have hnoted := @sameState_noteDelimiter t s nextChar prevByteBufPos
  refine (recordMatch_states (hnoted.running h.running)).bind fun s₁ hs₁ => ?_
  have hrunning := hs₁.running (hnoted.running h.running)
  have hasked : s₁.lexer.askedForMoreData = false := by
    rw [hs₁.askedForMoreData, hnoted.askedForMoreData]
    exact h.asked
  obtain ⟨p, hp, hlt⟩ := hrunning
  refine (processChar_states hp hlt).bind fun s₂ ⟨hasked₂, hstate⟩ => ?_
  dsimp only
  generalize hs₃ : (if nextChar = 10 then
    { s₂ with lexer := { s₂.lexer with line := s₂.lexer.line + 1 } } else s₂ : Scanner) = s₃
  have hsame : SameState s₂ s₃ := by
    rw [← hs₃]
    split <;> exact ⟨rfl, rfl⟩
  have hasked₃ : s₃.lexer.askedForMoreData = false := by
    rw [hsame.askedForMoreData, hasked₂, hasked]
  split
  · rename_i hnewline
    rw [hnewline.1]
    refine (startAtNewline_states ht hnewline.2.2.1).bind fun s₄ ⟨hasked₄, hrunning₄⟩ => ?_
    exact ⟨hrunning₄, hasked₄.trans hasked₃⟩
  · split
    · exact finish_states ht hasked₃
    · rename_i hgo
      refine ⟨?_, hasked₃⟩
      have hne : s₃.lexer.state ≠ none := fun hnone => hgo (Or.inr hnone)
      rw [hsame.state, hstate] at hne
      obtain ⟨dest, hdest⟩ := Option.ne_none_iff_exists'.1 hne
      obtain ⟨transition, htransition, rfl⟩ := Option.map_eq_some_iff.1 hdest
      refine ⟨transition.destState, ?_, ht.dfa.dest _ _ _ htransition⟩
      rw [hsame.state, hstate, hdest]

theorem scanStep_states (ht : t.LeadsOn) (h : s.Looping t) :
    Safely (s.scanStep t fuel) (StepStates t) := by
  unfold scanStep
  rcases s.input.getNextCharacter with ⟨err | next, input⟩
  · exact fun _ => h.running
  · exact scanChar_states ht (s := { s with input := input }) ⟨h.running, h.asked⟩

theorem scanLoop_states (ht : t.LeadsOn) (h : s.Looping t) :
    Safely (s.scanLoop t fuel) fun (s', _) => Ready t s'.lexer := by
  induction fuel generalizing s with
  | zero => exact fun h => by cases h
  | succ fuel ih =>
    unfold scanLoop
    refine (scanStep_states ht h).bind fun ⟨s', result⟩ hstates => ?_
    cases result with
    | none => exact ih hstates
    | some result => exact hstates

/-- A call of `scan` on any input buffer. -/
theorem scan_ready (ht : t.LeadsOn) {lexer : Lexer} (h : Ready t lexer)
    (input : ParserInputBuffer) :
    Safely (Scanner.scan t fuel { lexer := lexer, input := input }) fun (s', _) =>
      Ready t s'.lexer := by
  unfold scan
  split
  · rename_i hasked
    exact scanLoop_states ht ⟨h hasked, rfl⟩
  · rename_i hasked
    have hasked : lexer.askedForMoreData = false := Bool.eq_false_iff.2 hasked
    split
    · exact ready_of_not_asked hasked
    · exact scanLoop_states ht ⟨⟨t.dfa.getRoot, rfl, ht.dfa.root⟩, hasked⟩

theorem scan_states (ht : t.WellFormed) {lexer : Lexer} (h : Ready t lexer)
    (input : ParserInputBuffer) :
    Safely (Scanner.scan t fuel { lexer := lexer, input := input }) fun (s', _) =>
      Ready t s'.lexer := scan_ready ht.leadsOn h input

end Scanner

/-! ## The lexers of a log parser -/

namespace Lexer

open Scanner

variable {t : LexerTables}

/-- The lexers that start-up, scanning and growing leave behind, in any order
and on any input buffers. -/
inductive Reachable (t : LexerTables) : Lexer → Prop
  | new : Reachable t (.new t)
  | reset {lexer lexer' : Lexer} {input : ParserInputBuffer} : Reachable t lexer →
      lexer.reset.prependStartOfFileChar t input = .ok lexer' → Reachable t lexer'
  | scan {lexer : Lexer} {s : Scanner} {input : ParserInputBuffer} {fuel : Nat}
      {result : ScanResult} : Reachable t lexer →
      Scanner.scan t fuel { lexer := lexer, input := input } = .ok (s, result) →
      Reachable t s.lexer
  | growStates {lexer : Lexer} (oldStorageSize newStorageSize : Nat) (flipped : Bool) :
      Reachable t lexer → Reachable t (lexer.growStates oldStorageSize newStorageSize flipped)

theorem ready_prependStartOfFileChar (ht : t.WellFormed) {lexer lexer' : Lexer}
    {input : ParserInputBuffer} (h : lexer.prependStartOfFileChar t input = .ok lexer') :
    Ready t lexer' := by
  obtain ⟨p, hp, hlexer⟩ := exists_of_bind_eq_ok h
  cases hlexer
  refine fun _ => ⟨p, rfl, ?_⟩
  unfold startOfFileState at hp
  cases htransition : (t.dfa.state? t.dfa.getRoot).bind fun root =>
      root.getTransition cCharStartOfFile.toNat with
  | none =>
    rw [htransition] at hp
    cases hp
  | some transition =>
    rw [htransition] at hp
    cases hp
    exact ht.dfa.dest _ _ _ htransition

/-- A growth moves positions only. -/
theorem growStates_frame (lexer : Lexer) (oldStorageSize newStorageSize : Nat) (flipped : Bool) :
    (lexer.growStates oldStorageSize newStorageSize flipped).state = lexer.state ∧
      (lexer.growStates oldStorageSize newStorageSize flipped).askedForMoreData =
        lexer.askedForMoreData := by
  constructor <;> simp only [growStates, flipStates, apply_ite Lexer.state,
    apply_ite Lexer.askedForMoreData, ite_self]

theorem Reachable.ready (ht : t.WellFormed) {lexer : Lexer} (h : Reachable t lexer) :
    Ready t lexer := by
  induction h with
  | new => exact ready_of_not_asked rfl
  | reset _ hlexer _ => exact ready_prependStartOfFileChar ht hlexer
  | scan _ hscan ih => exact (scan_states ht ih _).of_ok hscan
  | growStates oldStorageSize newStorageSize flipped _ ih =>
    obtain ⟨hstate, hasked⟩ := growStates_frame _ oldStorageSize newStorageSize flipped
    unfold Ready
    rw [hstate, hasked]
    exact ih

end Lexer

namespace LogParser

theorem reset_iff (t : LexerTables) :
    (∀ p : LogParser, ∃ p', p.reset t = .ok p') ↔ (Lexer.startOfFileState t).isSome := by
  unfold reset Lexer.prependStartOfFileChar
  cases Lexer.startOfFileState t with
  | none =>
    refine ⟨fun h => ?_, fun h => by cases h⟩
    obtain ⟨p', h⟩ := h (.new t)
    cases h
  | some p => exact ⟨fun _ => rfl, fun _ _ => ⟨_, rfl⟩⟩

/-- Start-up and scanning read no null pointer for the schemas with a rule. -/
theorem never_null_iff {schema : SchemaAST} {regMapOrder : List (Nat × Nat) → List (Nat × Nat)}
    {steps : Nat} {t : LexerTables} (horder : ∀ regMap, (regMapOrder regMap).Perm regMap)
    (hgenerate : schema.generate regMapOrder steps = .ok t) :
    ((∀ p : LogParser, ∃ p', p.reset t = .ok p') ∧
      ∀ lexer, Lexer.Reachable t lexer → ∀ input fuel,
        Scanner.scan t fuel { lexer := lexer, input := input } ≠ .error .nullPointer) ↔
    schema.schemaVars ≠ [] := by
  have ht := LexerTables.ofSchema_generate horder hgenerate
  have hstart : (Lexer.startOfFileState t).isSome ↔ schema.schemaVars ≠ [] := by
    unfold Lexer.startOfFileState
    rw [Option.isSome_map]
    exact ht.startOfFile
  rw [reset_iff, hstart]
  refine ⟨fun h => h.1, fun hvars => ⟨hvars, fun lexer hreachable input fuel => ?_⟩⟩
  exact (Scanner.scan_states ht.toWellFormed (hreachable.ready ht.toWellFormed) input).ne_nullPointer

/-! ### Concrete schemas -/

/-- What the tables of a schema satisfy. -/
def checkTables (schema : SchemaAST) (P : LexerTables → Bool) : Bool :=
  match schema.generate id 40 with
  | .ok t => P t
  | .error _ => false

theorem exists_of_checkTables {schema : SchemaAST} {P : LexerTables → Bool}
    (h : checkTables schema P = true) : ∃ t, schema.generate id 40 = .ok t ∧ P t = true := by
  unfold checkTables at h
  split at h
  · rename_i t ht
    exact ⟨t, ht, h⟩
  · cases h

/-- A schema with delimiters only: the lexer is built, and its root has no
transition on the start-of-file character. -/
theorem not_never_null : ∃ t, SchemaAST.generate ⟨[], [[10, 32]]⟩ id 40 = .ok t ∧
    (LogParser.new t).reset t = .error .nullPointer := by
  have hcheck : checkTables ⟨[], [[10, 32]]⟩ (fun t =>
      (Lexer.startOfFileState t).isNone) = true := by decide +kernel
  obtain ⟨t, hgenerate, hnone⟩ := exists_of_checkTables hcheck
  refine ⟨t, hgenerate, ?_⟩
  unfold reset Lexer.prependStartOfFileChar
  rw [Option.isNone_iff_eq_none.1 hnone]
  rfl

/-- One variable is enough. -/
theorem never_null_iff_letter :
    ∃ t, SchemaAST.generate ⟨[⟨"v", .mkLiteral 98⟩], [[10, 32]]⟩ id 40 = .ok t ∧
      (∀ p : LogParser, ∃ p', p.reset t = .ok p') ∧
      ∀ lexer, Lexer.Reachable t lexer → ∀ input fuel,
        Scanner.scan t fuel { lexer := lexer, input := input } ≠ .error .nullPointer := by
  have hcheck : checkTables ⟨[⟨"v", .mkLiteral 98⟩], [[10, 32]]⟩ (fun _ => true) = true := by
    decide +kernel
  obtain ⟨t, hgenerate, -⟩ := exists_of_checkTables hcheck
  exact ⟨t, hgenerate, (never_null_iff (fun _ => .refl _) hgenerate).2 (List.cons_ne_nil _ _)⟩

end LogParser

end LogSurgeon
