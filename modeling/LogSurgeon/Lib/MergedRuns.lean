import Mathlib.Algebra.FreeMonoid.Basic
import Mathlib.Data.List.Chain
import Mathlib.Data.List.TakeWhile

/-!
# Sequences of runs and separators

A text of letters and separators, with every run of letters as one piece.
`MergedRuns` has these sequences: no run is empty, and no run is behind another
one.  They multiply by appending, where the two runs at the seam become one.

A sequence is given by its text (`spell_injective`), so the multiplication is
that of the free monoid of the letters and separators.
-/

namespace LogSurgeon.Lib

/-- Runs of letters, and separators. -/
abbrev Pieces (α β : Type*) := List (List α ⊕ β)

namespace Pieces

variable {α β : Type*} {pieces pieces' : Pieces α β}

/-- The letters and separators of a piece. -/
def spellPiece : List α ⊕ β → List (α ⊕ β)
  | .inl run => run.map .inl
  | .inr separator => [.inr separator]

def spell (pieces : Pieces α β) : List (α ⊕ β) := pieces.flatMap spellPiece

@[simp] theorem spell_nil : spell ([] : Pieces α β) = [] := rfl

@[simp] theorem spell_cons (piece : List α ⊕ β) (pieces : Pieces α β) :
    spell (piece :: pieces) = spellPiece piece ++ spell pieces := List.flatMap_cons

@[simp] theorem spell_append (pieces pieces' : Pieces α β) :
    spell (pieces ++ pieces') = spell pieces ++ spell pieces' := List.flatMap_append

/-- No run is empty, and no run is behind another one. -/
structure Merged (pieces : Pieces α β) : Prop where
  ne_nil : ∀ run, .inl run ∈ pieces → run ≠ []
  chain : pieces.IsChain fun p q => ¬ (p.isLeft ∧ q.isLeft)

theorem merged_nil : Merged ([] : Pieces α β) := ⟨by simp, List.isChain_nil⟩

theorem merged_separator (separator : β) : Merged ([.inr separator] : Pieces α β) :=
  ⟨by simp, List.isChain_singleton _⟩

theorem merged_run {run : List α} (h : run ≠ []) : Merged ([.inl run] : Pieces α β) :=
  ⟨by simpa using h, List.isChain_singleton _⟩

theorem merged_cons {piece : List α ⊕ β} :
    Merged (piece :: pieces) ↔
      (∀ run, piece = .inl run → run ≠ []) ∧
        (piece.isLeft → ∀ next ∈ pieces.head?, next.isLeft = false) ∧ Merged pieces := by
  constructor
  · rintro ⟨hne, hchain⟩
    obtain ⟨hhead, hchain⟩ := List.isChain_cons.1 hchain
    refine ⟨fun run hrun => hne run (hrun ▸ List.mem_cons_self), fun hleft next hnext => ?_,
      fun run hrun => hne run (List.mem_cons_of_mem _ hrun), hchain⟩
    exact Bool.eq_false_iff.2 fun hnextLeft => hhead next hnext ⟨hleft, hnextLeft⟩
  · rintro ⟨hpiece, hhead, hne, hchain⟩
    refine ⟨fun run hrun => ?_, List.isChain_cons.2 ⟨fun next hnext hboth => ?_, hchain⟩⟩
    · rcases List.mem_cons.1 hrun with heq | hrun
      · exact hpiece run heq.symm
      · exact hne run hrun
    · have hfalse := hhead hboth.1 next hnext
      rw [hboth.2] at hfalse
      cases hfalse

theorem spellPiece_ne_nil {piece : List α ⊕ β} (h : ∀ run, piece = .inl run → run ≠ []) :
    spellPiece piece ≠ [] := by
  cases piece with
  | inl run => simpa [spellPiece] using h run rfl
  | inr separator => simp [spellPiece]

/-- A text that a separator or nothing starts has no letters in front. -/
theorem takeWhile_spell (h : Merged pieces) (hhead : ∀ p ∈ pieces.head?, p.isLeft = false) :
    (spell pieces).takeWhile Sum.isLeft = [] := by
  cases pieces with
  | nil => rfl
  | cons piece pieces =>
    cases piece with
    | inl run => cases hhead _ rfl
    | inr separator => rfl

theorem takeWhile_run (run : List α) (text : List (α ⊕ β)) :
    (run.map Sum.inl ++ text).takeWhile Sum.isLeft =
      run.map Sum.inl ++ text.takeWhile Sum.isLeft := by
  induction run with
  | nil => rfl
  | cons letter run ih => simp [List.takeWhile_cons]

/-- Merged pieces are given by their text. -/
theorem Merged.eq_of_spell (h : Merged pieces) (h' : Merged pieces')
    (heq : spell pieces = spell pieces') : pieces = pieces' := by
  induction pieces generalizing pieces' with
  | nil =>
    cases pieces' with
    | nil => rfl
    | cons piece' pieces' =>
      rw [merged_cons] at h'
      rw [spell_nil, spell_cons] at heq
      exact absurd (List.append_eq_nil_iff.1 heq.symm).1 (spellPiece_ne_nil h'.1)
  | cons piece pieces ih =>
    rw [merged_cons] at h
    cases pieces' with
    | nil =>
      rw [spell_nil, spell_cons] at heq
      exact absurd (List.append_eq_nil_iff.1 heq).1 (spellPiece_ne_nil h.1)
    | cons piece' pieces' =>
      rw [merged_cons] at h'
      rw [spell_cons, spell_cons] at heq
      cases piece with
      | inr separator =>
        cases piece' with
        | inr separator' =>
          obtain ⟨hseparator, heq⟩ := List.cons.inj heq
          rw [Sum.inr.inj hseparator, ih h.2.2 h'.2.2 heq]
        | inl run' =>
          obtain ⟨letter, run'', rfl⟩ := List.exists_cons_of_ne_nil (h'.1 run' rfl)
          cases (List.cons.inj heq).1
      | inl run =>
        cases piece' with
        | inr separator' =>
          obtain ⟨letter, run'', rfl⟩ := List.exists_cons_of_ne_nil (h.1 run rfl)
          cases (List.cons.inj heq).1
        | inl run' =>
          -- both runs are all the letters in front of the text
          have hletters := congrArg (List.takeWhile Sum.isLeft) heq
          simp only [spellPiece] at hletters heq
          rw [takeWhile_run, takeWhile_run, takeWhile_spell h.2.2 (h.2.1 rfl),
            takeWhile_spell h'.2.2 (h'.2.1 rfl), List.append_nil, List.append_nil] at hletters
          have hrun : run = run' := List.map_injective_iff.2 (fun _ _ => Sum.inl.inj) hletters
          rw [hrun] at heq ⊢
          rw [ih h.2.2 h'.2.2 (List.append_cancel_left heq)]

/-- Appends, and makes one run of two at the seam. -/
def append (pieces pieces' : Pieces α β) : Pieces α β :=
  match pieces' with
  | [] => pieces
  | first :: rest =>
    match pieces.getLast?, first with
    | some (.inl run), .inl run' => pieces.dropLast ++ .inl (run ++ run') :: rest
    | _, _ => pieces ++ pieces'

/-- What appending does. -/
theorem append_cases (pieces pieces' : Pieces α β) :
    (∃ front run run' rest, pieces = front ++ [.inl run] ∧ pieces' = .inl run' :: rest ∧
        append pieces pieces' = front ++ .inl (run ++ run') :: rest) ∨
      (∀ last ∈ pieces.getLast?, last.isLeft → ∀ first ∈ pieces'.head?, first.isLeft = false) ∧
        append pieces pieces' = pieces ++ pieces' := by
  unfold append
  cases pieces' with
  | nil => exact Or.inr ⟨by simp, by simp⟩
  | cons first rest =>
    cases hlast : pieces.getLast? with
    | none => exact Or.inr ⟨by simp, rfl⟩
    | some last =>
      cases last with
      | inr separator => exact Or.inr ⟨by simp, rfl⟩
      | inl run =>
        cases first with
        | inr separator => exact Or.inr ⟨by simp, rfl⟩
        | inl run' =>
          have hsplit : pieces.dropLast ++ [.inl run] = pieces :=
            List.dropLast_append_getLast? _ hlast
          exact Or.inl ⟨pieces.dropLast, run, run', rest, hsplit.symm, rfl, rfl⟩

theorem spell_append_eq (pieces pieces' : Pieces α β) :
    spell (append pieces pieces') = spell pieces ++ spell pieces' := by
  rcases append_cases pieces pieces' with ⟨front, run, run', rest, rfl, rfl, happend⟩ |
    ⟨-, happend⟩
  · rw [happend]
    simp [spellPiece]
  · rw [happend, spell_append]

theorem Merged.append (h : Merged pieces) (h' : Merged pieces') :
    Merged (append pieces pieces') := by
  rcases append_cases pieces pieces' with ⟨front, run, run', rest, rfl, rfl, happend⟩ |
    ⟨hseam, happend⟩
  · rw [happend]
    rw [merged_cons] at h'
    refine ⟨fun u hu => ?_, ?_⟩
    · rcases List.mem_append.1 hu with hu | hu
      · exact h.ne_nil u (List.mem_append_left _ hu)
      · rcases List.mem_cons.1 hu with heq | hu
        · rw [Sum.inl.inj heq]
          simp [h'.1 run' rfl]
        · exact h'.2.2.ne_nil u hu
    · obtain ⟨hfront, -, hseam⟩ := List.isChain_append.1 h.chain
      refine List.isChain_append.2 ⟨hfront, List.isChain_cons.2 ⟨fun next hnext => ?_,
        h'.2.2.chain⟩, fun last hlast next hnext => ?_⟩
      · have hright := h'.2.1 rfl next hnext
        simp [hright]
      · have hright := hseam last hlast (.inl run) rfl
        simpa [← Option.some.inj hnext] using hright
  · rw [happend]
    refine ⟨fun u hu => ?_, List.isChain_append.2 ⟨h.chain, h'.chain, ?_⟩⟩
    · rcases List.mem_append.1 hu with hu | hu
      · exact h.ne_nil u hu
      · exact h'.ne_nil u hu
    · intro last hlast first hfirst hboth
      have hright := hseam last hlast hboth.1 first hfirst
      rw [hboth.2] at hright
      cases hright

end Pieces

/-! ## The monoid -/

/-- Runs and separators, where the runs are as long as possible. -/
structure MergedRuns (α β : Type*) where
  pieces : Pieces α β
  merged : pieces.Merged

namespace MergedRuns

variable {α β : Type*}

theorem ext_of_spell {a b : MergedRuns α β} (h : a.pieces.spell = b.pieces.spell) : a = b := by
  have hpieces := a.merged.eq_of_spell b.merged h
  cases a
  cases b
  simpa using hpieces

instance : One (MergedRuns α β) := ⟨⟨[], Pieces.merged_nil⟩⟩

instance : Mul (MergedRuns α β) := ⟨fun a b => ⟨a.pieces.append b.pieces, a.merged.append b.merged⟩⟩

/-- A single run, if there is a letter in it. -/
def ofRun [DecidableEq α] (run : List α) : MergedRuns α β :=
  if h : run = [] then 1 else ⟨[.inl run], Pieces.merged_run h⟩

def ofSeparator (separator : β) : MergedRuns α β :=
  ⟨[.inr separator], Pieces.merged_separator separator⟩

theorem pieces_ofRun [DecidableEq α] (run : List α) :
    (ofRun run : MergedRuns α β).pieces = if run = [] then [] else [.inl run] := by
  unfold ofRun
  split <;> rfl

@[simp] theorem pieces_ofSeparator (separator : β) :
    (ofSeparator separator : MergedRuns α β).pieces = [.inr separator] := rfl

theorem spell_ofRun [DecidableEq α] (run : List α) :
    (ofRun run : MergedRuns α β).pieces.spell = run.map .inl := by
  rw [pieces_ofRun]
  split
  · rename_i h
    rw [h]
    rfl
  · simp [Pieces.spellPiece]

@[simp] theorem pieces_one : (1 : MergedRuns α β).pieces = [] := rfl

@[simp] theorem pieces_mul (a b : MergedRuns α β) :
    (a * b).pieces = a.pieces.append b.pieces := rfl

theorem spell_mul (a b : MergedRuns α β) :
    (a * b).pieces.spell = a.pieces.spell ++ b.pieces.spell :=
  Pieces.spell_append_eq a.pieces b.pieces

instance : Monoid (MergedRuns α β) where
  mul_assoc a b c := by
    apply ext_of_spell
    rw [spell_mul, spell_mul, spell_mul, spell_mul, List.append_assoc]
  one_mul a := by
    apply ext_of_spell
    rw [spell_mul]
    rfl
  mul_one a := by
    apply ext_of_spell
    rw [spell_mul]
    exact List.append_nil _

/-- The text, in the free monoid. -/
def spell : MergedRuns α β →* FreeMonoid (α ⊕ β) where
  toFun a := FreeMonoid.ofList a.pieces.spell
  map_one' := rfl
  map_mul' := spell_mul

theorem spell_injective : Function.Injective (spell : MergedRuns α β →* FreeMonoid (α ⊕ β)) :=
  fun _ _ h => ext_of_spell h

end MergedRuns

end LogSurgeon.Lib
