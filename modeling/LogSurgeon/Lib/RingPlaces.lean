import Mathlib.Init

/-!
# Places of a ring

A ring has the places `0` to `size - 1`, and place `0` follows the last one.
`before` counts back from a place.

* Steps back from one place that are fewer than the size lead to different
  places (`before_inj`).
* Every place is as many steps back from one place as that is back from it
  (`before_before`).
* A step forward undoes a step back (`next_before`).
* Moving the place forward moves along what lies before it (`before_after`).
-/

namespace LogSurgeon.Lib.RingPlaces

/-- The place that follows. -/
def next (size place : Nat) : Nat := if place + 1 = size then 0 else place + 1

/-- The place `count` steps behind `place`, when that is at most the size. -/
def after (size place count : Nat) : Nat :=
  if place + count < size then place + count else place + count - size

/-- The place `back` steps before `place`, when that is at most the size. -/
def before (size place back : Nat) : Nat :=
  if back ≤ place then place - back else place + size - back

variable {size place back back' count : Nat}

@[simp] theorem before_zero : before size place 0 = place := by simp [before]

theorem before_lt (h : place < size) : before size place back < size := by
  unfold before
  split <;> omega

theorem before_inj (hback : back < size) (hback' : back' < size) :
    before size place back = before size place back' ↔ back = back' := by
  unfold before
  split <;> split <;> omega

theorem before_before (h : place < size) (hback : back < size) :
    before size place (before size place back) = back := by
  unfold before
  split <;> split <;> omega

theorem next_before (h : place < size) (hback : back < size) :
    next size (before size place (back + 1)) = before size place back := by
  unfold next before
  split <;> split <;> split <;> omega

theorem before_after (h : place < size) (hcount : count + back ≤ size) (hpos : 0 < count) :
    before size (after size place count) (back + count) = before size place back := by
  unfold before after
  split <;> split <;> split <;> omega

end LogSurgeon.Lib.RingPlaces
