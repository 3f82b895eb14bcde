import LogSurgeon.FiniteAutomata.DfaRegisters
import LogSurgeon.Lib.StraightLine

/-!
# Registers as a store

The prefix tree keeps every position of a register.  A match reads the most
recent one, so the registers are a store of these (`mostRecentPosition`), and
the register operations are straight-line code on it
(`mostRecentPosition_processRegOps`).
-/

namespace LogSurgeon

open Lib

/-! ## Reading the prefix tree -/

namespace PrefixTree

/-- Nodes that are added do not change the positions of an older node. -/
theorem reversedPositionsFrom_append (tree : PrefixTree) (nodes : List PrefixTreeNode)
    {fuel id : Nat} (hid : id < tree.nodes.length) :
    reversedPositionsFrom (tree.nodes ++ nodes) fuel id =
      reversedPositionsFrom tree.nodes fuel id := by
  induction fuel generalizing id with
  | zero => rfl
  | succ fuel ih =>
    unfold reversedPositionsFrom
    rw [List.getElem?_append_left hid]
    cases hnode : tree.nodes[id]? with
    | none => rfl
    | some node =>
      obtain ⟨parentId, position⟩ := node
      cases parentId with
      | none => rfl
      | some parentId =>
        have hlt := tree.parent_lt id _ parentId hnode rfl
        dsimp only
        rw [ih (by omega)]

/-- The way to the root takes no more steps than the number of the node. -/
theorem reversedPositionsFrom_eq (tree : PrefixTree) {fuel fuel' id : Nat} (h : id < fuel)
    (h' : id < fuel') :
    reversedPositionsFrom tree.nodes fuel id = reversedPositionsFrom tree.nodes fuel' id := by
  induction fuel generalizing fuel' id with
  | zero => omega
  | succ fuel ih =>
    cases fuel' with
    | zero => omega
    | succ fuel' =>
      unfold reversedPositionsFrom
      cases hnode : tree.nodes[id]? with
      | none => rfl
      | some node =>
        obtain ⟨parentId, position⟩ := node
        cases parentId with
        | none => rfl
        | some parentId =>
          have hlt := tree.parent_lt id _ parentId hnode rfl
          dsimp only
          rw [ih (by omega) (show parentId < fuel' by omega)]

end PrefixTree

namespace RegisterHandler

variable {handler handler' : RegisterHandler} {limit : Int}

theorem getReversedPositions_appendPosition (hwithin : handler.Within limit) {regId : Nat}
    {position : Int} (h : handler.appendPosition regId position = some handler') (r : Nat) :
    handler'.getReversedPositions r =
      if r = regId then (handler.getReversedPositions regId).map (position :: ·)
      else handler.getReversedPositions r := by
  obtain ⟨node, hnode, h⟩ := Option.bind_eq_some_iff.1 h
  have hlt := hwithin.lt_length node (List.mem_of_getElem? hnode)
  unfold PrefixTree.insert at h
  rw [dif_pos hlt] at h
  obtain rfl := Option.some.inj h
  have hreg : regId < handler.registers.length := by
    obtain ⟨hlength, -⟩ := List.getElem?_eq_some_iff.1 hnode
    exact hlength
  unfold getReversedPositions PrefixTree.getReversedPositions
  by_cases hr : r = regId
  · subst hr
    rw [if_pos rfl, hnode]
    simp only [List.getElem?_set_self hreg, Option.bind_eq_bind, Option.bind_some, if_pos hlt,
      List.length_append, List.length_singleton, Nat.lt_succ_self, if_true, Option.map_some]
    congr 1
    rw [PrefixTree.reversedPositionsFrom, List.getElem?_concat_length]
    dsimp only
    rw [PrefixTree.reversedPositionsFrom_append _ _ hlt,
      handler.prefixTree.reversedPositionsFrom_eq hlt (Nat.lt_succ_self node)]
  · rw [if_neg hr]
    simp only [List.getElem?_set_ne (Ne.symm hr), Option.bind_eq_bind]
    cases hother : handler.registers[r]? with
    | none => rfl
    | some other =>
      have hother := hwithin.lt_length other (List.mem_of_getElem? hother)
      simp only [Option.bind_some, if_pos hother, List.length_append, List.length_singleton]
      rw [if_pos (show other < handler.prefixTree.nodes.length + 1 by omega),
        PrefixTree.reversedPositionsFrom_append _ _ hother]

theorem getReversedPositions_copyRegister {destRegId sourceRegId : Nat}
    (h : handler.copyRegister destRegId sourceRegId = some handler') (r : Nat) :
    handler'.getReversedPositions r =
      if r = destRegId then handler.getReversedPositions sourceRegId
      else handler.getReversedPositions r := by
  obtain ⟨node, hnode, h⟩ := Option.bind_eq_some_iff.1 h
  split_ifs at h with hdest
  obtain rfl := Option.some.inj h
  unfold getReversedPositions
  by_cases hr : r = destRegId
  · subst hr
    rw [if_pos rfl, List.getElem?_set_self hdest, hnode]
  · rw [if_neg hr, List.getElem?_set_ne (Ne.symm hr)]

/-- Every register points into the tree. -/
def Pointed (handler : RegisterHandler) : Prop :=
  ∀ r ∈ handler.registers, r < handler.prefixTree.nodes.length

/-- The positions of a handler are bounded. -/
theorem Pointed.exists_within (h : handler.Pointed) (bound : Int) :
    ∃ limit, 0 ≤ limit ∧ bound ≤ limit ∧ handler.Within limit := by
  have hlist : ∀ nodes : List PrefixTreeNode, ∃ limit : Int, ∀ n ∈ nodes, n.position ≤ limit := by
    intro nodes
    induction nodes with
    | nil => exact ⟨0, fun _ hn => absurd hn List.not_mem_nil⟩
    | cons n nodes ih =>
      obtain ⟨limit, hlimit⟩ := ih
      refine ⟨max n.position limit, fun n' hn' => ?_⟩
      rcases List.mem_cons.1 hn' with rfl | hn'
      · exact Int.le_max_left _ _
      · exact (hlimit n' hn').trans (Int.le_max_right _ _)
  obtain ⟨limit, hlimit⟩ := hlist handler.prefixTree.nodes
  refine ⟨max limit (max 0 bound), ?_, ?_, h, fun n hn => ?_⟩
  · omega
  · omega
  · have := hlimit n hn
    omega

theorem pointed_addRegisters (count : Nat) : (new.addRegisters count).Pointed :=
  ((unused_new.addRegisters count).within (Int.le_refl 0)).lt_length

/-- The position that a register was set to last, if it was set. -/
def mostRecentPosition (handler : RegisterHandler) (regId : Nat) : Option Int :=
  (handler.getReversedPositions regId).bind List.head?

end RegisterHandler

/-! ## Operations as instructions -/

namespace RegisterOperation

/-- The instruction of an operation at a position. -/
def toInstruction (currPos : Nat) (op : RegisterOperation) : Instruction Nat (Option Int) :=
  match op.type with
  | .set => .write op.regId (some (toPosition currPos))
  | .negate => .write op.regId (some (-1))
  | .copy => .copy op.regId (op.copyRegId.getD 0)

@[simp] theorem dest_toInstruction (currPos : Nat) (op : RegisterOperation) :
    (op.toInstruction currPos).dest = op.regId := by
  unfold toInstruction
  cases op.type <;> rfl

/-- The position that the operation writes. -/
def writtenPosition (currPos : Nat) (op : RegisterOperation) : Option Int :=
  match op.type with
  | .set => some (toPosition currPos)
  | .negate => some (-1)
  | .copy => none

theorem toInstruction_eq_write {op : RegisterOperation} (h : op.type ≠ .copy) (currPos : Nat) :
    op.toInstruction currPos = .write op.regId (op.writtenPosition currPos) := by
  unfold toInstruction writtenPosition
  cases htype : op.type with
  | set => rfl
  | negate => rfl
  | copy => exact absurd htype h

/-- Without copies, the operations on a register write its positions. -/
theorem writesTo_toInstruction {ops : List RegisterOperation} (h : ∀ op ∈ ops, op.type ≠ .copy)
    (currPos r : Nat) :
    Instruction.writesTo r (ops.map (·.toInstruction currPos)) =
      (ops.filter (·.regId = r)).map (·.writtenPosition currPos) := by
  induction ops with
  | nil => rfl
  | cons op ops ih =>
    have hrest := ih fun op' hop' => h op' (List.mem_cons_of_mem op hop')
    rw [List.map_cons, toInstruction_eq_write (h op List.mem_cons_self)]
    unfold Instruction.writesTo at hrest ⊢
    by_cases hreg : op.regId = r
    · simp [hreg, hrest]
    · simp [hreg, hrest]

end RegisterOperation

namespace Dfa

open RegisterHandler

variable {handler handler' : RegisterHandler} {limit : Int} {ops : List RegisterOperation}
  {currPos : Nat}

/-- The store after the operations. -/
def runRegOps (ops : List RegisterOperation) (currPos : Nat) (store : Nat → Option Int) :
    Nat → Option Int :=
  Instruction.run (ops.map (·.toInstruction currPos)) store

theorem mostRecentPosition_processRegOp (hwithin : handler.Within limit)
    {op : RegisterOperation} (hop : OpsBelow handler.getNumRegs [op])
    (h : processRegOp currPos handler op = some handler') :
    handler'.mostRecentPosition =
      (op.toInstruction currPos).step handler.mostRecentPosition := by
  obtain ⟨hreg, hcopy⟩ := hop op List.mem_cons_self
  have hpositions := hwithin.getReversedPositions hreg
  funext r
  unfold processRegOp at h
  unfold RegisterOperation.toInstruction mostRecentPosition Instruction.step
  obtain ⟨positions, hpositions, -⟩ := hpositions
  cases htype : op.type with
  | set =>
    rw [htype] at h
    rw [getReversedPositions_appendPosition hwithin h]
    by_cases hr : r = op.regId
    · subst hr
      simp [hpositions]
    · simp [hr]
  | negate =>
    rw [htype] at h
    rw [getReversedPositions_appendPosition hwithin h]
    by_cases hr : r = op.regId
    · subst hr
      simp [hpositions]
    · simp [hr]
  | copy =>
    rw [htype] at h
    obtain ⟨source, hsource, h⟩ := Option.bind_eq_some_iff.1 h
    rw [getReversedPositions_copyRegister h, hsource]
    by_cases hr : r = op.regId
    · subst hr
      simp
    · simp [hr]

/-- The first operation, and the registers that the others start with. -/
theorem processRegOps_cons {op : RegisterOperation} (hwithin : handler.Within limit)
    (hops : OpsBelow handler.getNumRegs (op :: ops)) (hlimit : 0 ≤ limit)
    (hpos : toPosition currPos ≤ limit)
    (h : processRegOps (op :: ops) currPos handler = some handler') :
    ∃ mid, processRegOp currPos handler op = some mid ∧
      processRegOps ops currPos mid = some handler' ∧ mid.Within limit ∧
      OpsBelow mid.getNumRegs ops := by
  unfold processRegOps at h
  rw [List.foldlM_cons] at h
  obtain ⟨mid, hmid, h⟩ := Option.bind_eq_some_iff.1 h
  have hop : OpsBelow handler.getNumRegs [op] := by
    intro op' hop'
    rw [List.mem_singleton.1 hop']
    exact hops op List.mem_cons_self
  obtain ⟨mid', hmid', hnum, hwithin'⟩ := exists_processRegOps hwithin hop hpos hlimit
  have hsame : mid' = mid := by
    unfold processRegOps at hmid'
    rw [List.foldlM_cons, hmid] at hmid'
    exact (Option.some.inj hmid').symm
  rw [hsame] at hnum hwithin'
  refine ⟨mid, hmid, h, hwithin', ?_⟩
  rw [hnum]
  exact fun op' hop' => hops op' (List.mem_cons_of_mem op hop')

/-- The registers after the operations hold what the code leaves in the store. -/
theorem mostRecentPosition_processRegOps (hwithin : handler.Within limit)
    (hops : OpsBelow handler.getNumRegs ops) (hlimit : 0 ≤ limit)
    (hpos : toPosition currPos ≤ limit) (h : processRegOps ops currPos handler = some handler') :
    handler'.mostRecentPosition = runRegOps ops currPos handler.mostRecentPosition := by
  induction ops generalizing handler with
  | nil =>
    obtain rfl := Option.some.inj h
    rfl
  | cons op ops ih =>
    obtain ⟨mid, hmid, hrest, hwithin', hbelow⟩ := processRegOps_cons hwithin hops hlimit hpos h
    have hop : OpsBelow handler.getNumRegs [op] := by
      intro op' hop'
      rw [List.mem_singleton.1 hop']
      exact hops op List.mem_cons_self
    rw [ih hwithin' hbelow hrest, mostRecentPosition_processRegOp hwithin hop hmid]
    rfl

/-- Without copies, the last operation on a register decides its position. -/
theorem runRegOps_eq_getD (h : ∀ op ∈ ops, op.type ≠ .copy) (currPos : Nat)
    (store : Nat → Option Int) (r : Nat) :
    runRegOps ops currPos store r =
      ((ops.filter (·.regId = r)).getLast?.map (·.writtenPosition currPos)).getD (store r) := by
  unfold runRegOps
  rw [Instruction.run_eq_getD, RegisterOperation.writesTo_toInstruction h, List.getLast?_map]
  intro source hmem
  obtain ⟨op, hop, heq⟩ := List.mem_map.1 hmem
  rw [RegisterOperation.toInstruction_eq_write (h op hop)] at heq
  cases heq

/-- Operations on other registers do not change the positions of a register. -/
theorem getReversedPositions_processRegOps (hwithin : handler.Within limit)
    (hops : OpsBelow handler.getNumRegs ops) (hlimit : 0 ≤ limit)
    (hpos : toPosition currPos ≤ limit) (h : processRegOps ops currPos handler = some handler')
    {r : Nat} (hr : ∀ op ∈ ops, op.regId ≠ r) :
    handler'.getReversedPositions r = handler.getReversedPositions r := by
  induction ops generalizing handler with
  | nil =>
    obtain rfl := Option.some.inj h
    rfl
  | cons op ops ih =>
    obtain ⟨mid, hmid, hrest, hwithin', hbelow⟩ := processRegOps_cons hwithin hops hlimit hpos h
    rw [ih hwithin' hbelow hrest fun op' hop' => hr op' (List.mem_cons_of_mem op hop')]
    have hne : ¬ r = op.regId := Ne.symm (hr op List.mem_cons_self)
    unfold processRegOp at hmid
    cases htype : op.type with
    | set =>
      rw [htype] at hmid
      rw [getReversedPositions_appendPosition hwithin hmid, if_neg hne]
    | negate =>
      rw [htype] at hmid
      rw [getReversedPositions_appendPosition hwithin hmid, if_neg hne]
    | copy =>
      rw [htype] at hmid
      obtain ⟨source, -, hmid⟩ := Option.bind_eq_some_iff.1 hmid
      rw [getReversedPositions_copyRegister hmid, if_neg hne]

end Dfa

end LogSurgeon
