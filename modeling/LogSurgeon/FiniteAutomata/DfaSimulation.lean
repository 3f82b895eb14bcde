import LogSurgeon.FiniteAutomata.Dfa
import Mathlib.Algebra.Group.Int.Defs

/-!
# Running the DFA

`processRegOps` performs the operations of a transition or of an accepting
state on the registers, as `Dfa::process_reg_ops` does, and
`releaseRegHandler` hands the registers over and starts new ones.
-/

namespace LogSurgeon

/-- The `int32_t` that a `uint32_t` position becomes in the prefix tree. -/
def toPosition (pos : Nat) : Int :=
  if pos % 2 ^ 32 < 2 ^ 31 then (pos % 2 ^ 32 : Nat) else (pos % 2 ^ 32 : Nat) - 2 ^ 32

theorem toPosition_of_lt {pos : Nat} (h : pos < 2 ^ 31) : toPosition pos = pos := by
  have hmod : pos % 2 ^ 32 = pos := Nat.mod_eq_of_lt (by omega)
  rw [toPosition, hmod, if_pos h]

namespace Dfa

def processRegOp (currPos : Nat) (handler : RegisterHandler) (op : RegisterOperation) :
    Option RegisterHandler :=
  match op.type with
  | .set => handler.appendPosition op.regId (toPosition currPos)
  | .negate => handler.appendPosition op.regId (-1)
  | .copy => do
    let copyRegId ← op.copyRegId
    handler.copyRegister op.regId copyRegId

/-- The registers after the operations, in order.  An exception is `none`. -/
def processRegOps (regOps : List RegisterOperation) (currPos : Nat)
    (handler : RegisterHandler) : Option RegisterHandler :=
  regOps.foldlM (processRegOp currPos) handler

/-- The registers of a new string. -/
def newRegHandler (dfa : Dfa) : RegisterHandler :=
  RegisterHandler.new.addRegisters dfa.regHandler.getNumRegs

end Dfa

end LogSurgeon
