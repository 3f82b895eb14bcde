import Mathlib.Logic.Function.Basic
import Mathlib.Tactic.Common

/-!
# Straight-line code over registers

An instruction writes a value to a register, or copies one register to another.
`run` executes a list of instructions on a store.

* A register that no instruction writes keeps its value (`run_frame`).
* A register that no copy changes holds the last value that was written to it
  (`run_eq_getD`).
* When no copy reads a register that the code changes, the last instruction on a
  register decides its value alone (`run_eq_last`).
* Copies in a row act at once when none of them reads a register that one in
  front has written (`run_copies`).
-/

namespace LogSurgeon.Lib

inductive Instruction (ρ α : Type*) where
  | write (dest : ρ) (value : α)
  | copy (dest source : ρ)

namespace Instruction

variable {ρ α : Type*}

/-- The register that the instruction changes. -/
def dest : Instruction ρ α → ρ
  | write dest _ => dest
  | copy dest _ => dest

variable [DecidableEq ρ]

def step (store : ρ → α) : Instruction ρ α → ρ → α
  | write dest value => Function.update store dest value
  | copy dest source => Function.update store dest (store source)

/-- The store after the instructions, in order. -/
def run (code : List (Instruction ρ α)) (store : ρ → α) : ρ → α := code.foldl step store

variable {code : List (Instruction ρ α)} {store : ρ → α} {r : ρ}

@[simp] theorem run_nil (store : ρ → α) : run [] store = store := rfl

@[simp] theorem run_cons (i : Instruction ρ α) (code : List (Instruction ρ α)) (store : ρ → α) :
    run (i :: code) store = run code (i.step store) := rfl

theorem run_append (code code' : List (Instruction ρ α)) (store : ρ → α) :
    run (code ++ code') store = run code' (run code store) := List.foldl_append

theorem step_of_ne {i : Instruction ρ α} (h : i.dest ≠ r) : i.step store r = store r := by
  cases i with
  | write dest value => exact Function.update_of_ne (Ne.symm h) value store
  | copy dest source => exact Function.update_of_ne (Ne.symm h) _ store

/-- Registers that are not written keep their values. -/
theorem run_frame (h : ∀ i ∈ code, i.dest ≠ r) : run code store r = store r := by
  induction code generalizing store with
  | nil => rfl
  | cons i code ih =>
    rw [run_cons, ih fun j hj => h j (List.mem_cons_of_mem i hj)]
    exact step_of_ne (h i List.mem_cons_self)

/-- The values that are written to a register. -/
def writesTo (r : ρ) (code : List (Instruction ρ α)) : List α :=
  code.filterMap fun
    | write dest value => if dest = r then some value else none
    | copy _ _ => none

/-- A register that no copy changes holds the last value that was written. -/
theorem run_eq_getD (h : ∀ source, copy r source ∉ code) :
    run code store r = (writesTo r code).getLast?.getD (store r) := by
  induction code generalizing store with
  | nil => rfl
  | cons i code ih =>
    have hrest : ∀ source, copy r source ∉ code :=
      fun source hmem => h source (List.mem_cons_of_mem i hmem)
    rw [run_cons, ih hrest]
    unfold writesTo
    cases i with
    | write dest value =>
      by_cases hdest : dest = r
      · subst hdest
        simp [step, List.getLast?_cons]
      · rw [step_of_ne (show (write dest value).dest ≠ r from hdest)]
        simp [hdest]
    | copy dest source =>
      have hdest : dest ≠ r := by
        rintro rfl
        exact h source List.mem_cons_self
      rw [step_of_ne (show (copy dest source).dest ≠ r from hdest)]
      simp

/-- The value that the instruction leaves in its register. -/
def value (store : ρ → α) : Instruction ρ α → α
  | write _ value => value
  | copy _ source => store source

theorem step_dest (i : Instruction ρ α) (store : ρ → α) : i.step store i.dest = i.value store := by
  cases i with
  | write dest value => exact Function.update_self dest value store
  | copy dest source => exact Function.update_self dest (store source) store

/-- When no copy reads a register that the code changes, the last instruction on
a register decides what it holds. -/
theorem run_eq_last (h : ∀ dest source, copy dest source ∈ code → ∀ i ∈ code, i.dest ≠ source) :
    run code store r =
      ((code.filter (·.dest = r)).getLast?.map (·.value store)).getD (store r) := by
  induction code generalizing store with
  | nil => rfl
  | cons i code ih =>
    have hrest : ∀ dest source, copy dest source ∈ code → ∀ j ∈ code, j.dest ≠ source :=
      fun dest source hcopy j hj => h dest source (List.mem_cons_of_mem i hcopy) j
        (List.mem_cons_of_mem i hj)
    have hvalue : ∀ j ∈ code, j.value (i.step store) = j.value store := by
      intro j hj
      cases j with
      | write dest value => rfl
      | copy dest source =>
        exact step_of_ne (h dest source (List.mem_cons_of_mem i hj) i List.mem_cons_self)
    rw [run_cons, ih hrest]
    by_cases hdest : i.dest = r
    · rw [List.filter_cons_of_pos (by simpa using hdest), List.getLast?_cons]
      cases hlast : (code.filter (·.dest = r)).getLast? with
      | none =>
        subst hdest
        simpa using step_dest i store
      | some j =>
        have hj := (List.mem_filter.1 (List.mem_of_getLast? hlast)).1
        simpa using hvalue j hj
    · rw [List.filter_cons_of_neg (by simpa using hdest), step_of_ne hdest]
      cases hlast : (code.filter (·.dest = r)).getLast? with
      | none => rfl
      | some j =>
        have hj := (List.mem_filter.1 (List.mem_of_getLast? hlast)).1
        simpa using hvalue j hj

/-- The copies of the pairs of a source and a destination. -/
def copies (moves : List (ρ × ρ)) : List (Instruction ρ α) :=
  moves.map fun move => copy move.2 move.1

omit [DecidableEq ρ] in
theorem mem_copies {moves : List (ρ × ρ)} {i : Instruction ρ α} :
    i ∈ copies moves ↔ ∃ move ∈ moves, copy move.2 move.1 = i := List.mem_map

theorem run_copies_of_notMem {moves : List (ρ × ρ)} (h : ∀ move ∈ moves, move.2 ≠ r) :
    run (copies moves) store r = store r := by
  apply run_frame
  intro i hi
  obtain ⟨move, hmove, rfl⟩ := mem_copies.1 hi
  exact h move hmove

/-- Copies act at once when none reads what one in front has written. -/
theorem run_copies {moves : List (ρ × ρ)} (hdest : (moves.map Prod.snd).Nodup)
    (horder : moves.Pairwise fun move move' => move.2 ≠ move'.1) {move : ρ × ρ}
    (hmove : move ∈ moves) : run (copies moves) store move.2 = store move.1 := by
  induction moves generalizing store with
  | nil => cases hmove
  | cons first moves ih =>
    obtain ⟨hfresh, hdest⟩ := List.nodup_cons.1 hdest
    obtain ⟨hreads, horder⟩ := List.pairwise_cons.1 horder
    have hcode : copies (α := α) (first :: moves) = copy first.2 first.1 :: copies moves := rfl
    rw [hcode, run_cons]
    rcases List.mem_cons.1 hmove with rfl | hmove
    · rw [run_copies_of_notMem]
      · exact Function.update_self _ _ _
      · intro move' hmove' heq
        exact hfresh (List.mem_map.2 ⟨move', hmove', heq⟩)
    · rw [ih hdest horder hmove]
      exact Function.update_of_ne (Ne.symm (hreads move hmove)) _ _

end Instruction

end LogSurgeon.Lib
