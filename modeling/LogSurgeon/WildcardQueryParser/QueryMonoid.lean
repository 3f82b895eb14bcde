import LogSurgeon.Lib.MergedRuns
import LogSurgeon.WildcardQueryParser.QueryInterpretation

/-!
# The monoid of interpretations

An interpretation that calls of the three append functions build is a sequence
of runs of static characters, with variables between them, in which no run is
behind another one.  `runs` gives the `MergedRuns` that the calls make, and
`pieces_interpretation` says that the tokens are its pieces.
-/

namespace LogSurgeon

open Lib

/-- A static token is a run of characters, a variable stands between runs. -/
def QueryToken.piece : QueryToken → List UInt8 ⊕ VariableQueryToken
  | .staticToken token => .inl token.querySubstring
  | .variableToken token => .inr token

theorem QueryToken.piece_injective : Function.Injective QueryToken.piece := by
  intro a b h
  cases a with
  | staticToken a =>
    cases b with
    | staticToken b =>
      cases a
      cases b
      exact congrArg (fun querySubstring => staticToken ⟨querySubstring⟩) (Sum.inl.inj h)
    | variableToken b => cases h
  | variableToken a =>
    cases b with
    | staticToken b => cases h
    | variableToken b => rw [Sum.inr.inj h]

namespace QueryInterpretation

/-- No static token is empty, and none is behind another one. -/
structure Canonical (i : QueryInterpretation) : Prop where
  ne_nil : ∀ token, .staticToken token ∈ i.tokens → token.querySubstring ≠ []
  not_adjacent : i.tokens.IsChain fun a b =>
    ¬ ((∃ token, a = .staticToken token) ∧ ∃ token, b = .staticToken token)

/-- Calls of the append functions, on an interpretation that is empty at
first. -/
inductive Calls where
  | new
  | appendStaticToken (calls : Calls) (querySubstring : List UInt8)
  | appendVariableToken (calls : Calls) (variableType : Nat) (querySubstring : List UInt8)
      (containsWildcard : Bool)
  | appendQueryInterpretation (calls suffix : Calls)
deriving DecidableEq, Repr

namespace Calls

/-- The interpretation that the calls build. -/
def interpretation : Calls → QueryInterpretation
  | new => {}
  | appendStaticToken calls querySubstring =>
    calls.interpretation.appendStaticToken querySubstring
  | appendVariableToken calls variableType querySubstring containsWildcard =>
    calls.interpretation.appendVariableToken variableType querySubstring containsWildcard
  | appendQueryInterpretation calls suffix =>
    calls.interpretation.appendQueryInterpretation suffix.interpretation

/-- The static characters and the variables that the calls append. -/
def flatten : Calls → List (UInt8 ⊕ VariableQueryToken)
  | new => []
  | appendStaticToken calls querySubstring => calls.flatten ++ querySubstring.map .inl
  | appendVariableToken calls variableType querySubstring containsWildcard =>
    calls.flatten ++ [.inr ⟨variableType, querySubstring, containsWildcard⟩]
  | appendQueryInterpretation calls suffix => calls.flatten ++ suffix.flatten

/-- The runs that the calls make. -/
def runs : Calls → MergedRuns UInt8 VariableQueryToken
  | new => 1
  | appendStaticToken calls querySubstring => calls.runs * .ofRun querySubstring
  | appendVariableToken calls variableType querySubstring containsWildcard =>
    calls.runs * .ofSeparator ⟨variableType, querySubstring, containsWildcard⟩
  | appendQueryInterpretation calls suffix => calls.runs * suffix.runs

end Calls

/-! ## The tokens are the pieces -/

def pieces (i : QueryInterpretation) : Pieces UInt8 VariableQueryToken :=
  i.tokens.map QueryToken.piece

theorem pieces_appendQueryInterpretation (i suffix : QueryInterpretation) :
    (i.appendQueryInterpretation suffix).pieces = i.pieces.append suffix.pieces := by
  obtain ⟨tokens⟩ := i
  obtain ⟨suffixTokens⟩ := suffix
  unfold appendQueryInterpretation pieces Pieces.append
  dsimp only
  cases suffixTokens with
  | nil => rfl
  | cons first rest =>
    rw [List.map_cons, List.getLast?_map]
    cases hlast : tokens.getLast? with
    | none => cases first <;> simp [QueryToken.piece]
    | some last =>
      cases last <;> cases first <;>
        simp [QueryToken.piece, StaticQueryToken.append, List.map_dropLast]

theorem pieces_ofStatic (querySubstring : List UInt8) :
    (ofStatic querySubstring).pieces =
      (MergedRuns.ofRun querySubstring : MergedRuns UInt8 VariableQueryToken).pieces := by
  rw [MergedRuns.pieces_ofRun]
  unfold ofStatic appendStaticToken pieces
  split <;> rfl

/-- A static string is appended like an interpretation of its own. -/
theorem appendStaticToken_eq (i : QueryInterpretation) (querySubstring : List UInt8) :
    i.appendStaticToken querySubstring = i.appendQueryInterpretation (ofStatic querySubstring) := by
  unfold ofStatic appendStaticToken appendQueryInterpretation
  by_cases hempty : querySubstring = []
  · rw [if_pos hempty, if_pos hempty]
  · rw [if_neg hempty, if_neg hempty]
    dsimp only [List.getLast?_nil, List.nil_append]
    cases i.tokens.getLast? with
    | none => rfl
    | some last => cases last <;> rfl

/-- So is a variable. -/
theorem appendVariableToken_eq (i : QueryInterpretation) (variableType : Nat)
    (querySubstring : List UInt8) (containsWildcard : Bool) :
    i.appendVariableToken variableType querySubstring containsWildcard =
      i.appendQueryInterpretation (ofVariable variableType querySubstring containsWildcard) := by
  unfold ofVariable appendVariableToken appendQueryInterpretation
  dsimp only [List.nil_append]
  cases i.tokens.getLast? with
  | none => rfl
  | some last => cases last <;> rfl

namespace Calls

/-- The tokens that the calls build are the pieces of their runs. -/
theorem pieces_interpretation (calls : Calls) :
    calls.interpretation.pieces = calls.runs.pieces := by
  induction calls with
  | new => rfl
  | appendStaticToken calls querySubstring ih =>
    rw [interpretation, appendStaticToken_eq, pieces_appendQueryInterpretation, ih,
      pieces_ofStatic]
    rfl
  | appendVariableToken calls variableType querySubstring containsWildcard ih =>
    rw [interpretation, appendVariableToken_eq, pieces_appendQueryInterpretation, ih]
    rfl
  | appendQueryInterpretation calls suffix ih ih' =>
    rw [interpretation, pieces_appendQueryInterpretation, ih, ih']
    rfl

/-- Calls build the same interpretation exactly if they make the same runs. -/
theorem interpretation_inj {calls calls' : Calls} :
    calls.interpretation = calls'.interpretation ↔ calls.runs = calls'.runs := by
  constructor
  · intro h
    apply MergedRuns.ext_of_spell
    rw [← pieces_interpretation, ← pieces_interpretation, h]
  · intro h
    have hpieces : calls.interpretation.pieces = calls'.interpretation.pieces := by
      rw [pieces_interpretation, pieces_interpretation, h]
    have htokens := List.map_injective_iff.2 QueryToken.piece_injective hpieces
    cases hcalls : calls.interpretation
    cases hcalls' : calls'.interpretation
    rw [hcalls, hcalls'] at htokens
    exact congrArg QueryInterpretation.mk htokens

theorem spell_runs (calls : Calls) : calls.runs.pieces.spell = calls.flatten := by
  induction calls with
  | new => rfl
  | appendStaticToken calls querySubstring ih =>
    rw [runs, MergedRuns.spell_mul, MergedRuns.spell_ofRun, ih]
    rfl
  | appendVariableToken calls variableType querySubstring containsWildcard ih =>
    rw [runs, MergedRuns.spell_mul, ih]
    rfl
  | appendQueryInterpretation calls suffix ih ih' =>
    rw [runs, MergedRuns.spell_mul, ih, ih']
    rfl

theorem canonical_interpretation (calls : Calls) : calls.interpretation.Canonical := by
  have hmerged := calls.runs.merged
  rw [← pieces_interpretation] at hmerged
  refine ⟨fun token htoken => ?_, ?_⟩
  · exact hmerged.ne_nil _ (List.mem_map_of_mem (f := QueryToken.piece) htoken)
  · refine (List.isChain_map _).1 hmerged.chain |>.imp fun a b hboth => ?_
    rintro ⟨⟨token, rfl⟩, ⟨token', rfl⟩⟩
    exact hboth ⟨rfl, rfl⟩

end Calls

end QueryInterpretation

end LogSurgeon
