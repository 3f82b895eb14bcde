import Mathlib.Data.List.Basic
import Mathlib.Tactic.Common

/-!
# Registers

A register points into a `PrefixTree`, and its positions are read on the way
from there to the root.  Appending a position makes a new node, so a copied
register shares its history with the original.  `RegisterHandler` and the
operations are those of `RegisterHandler.hpp`, `PrefixTree.hpp` and
`RegisterOperation.hpp`.

An index out of range throws in the source and is `none` here.
-/

namespace LogSurgeon

/-! ## Register operations -/

inductive RegisterOperationType where
  | copy
  | set
  | negate
deriving DecidableEq, Repr

structure RegisterOperation where
  regId : Nat
  type : RegisterOperationType
  copyRegId : Option Nat := none
deriving DecidableEq, Repr

namespace RegisterOperation

def createSetOperation (regId : Nat) : RegisterOperation := { regId := regId, type := .set }

def createNegateOperation (regId : Nat) : RegisterOperation :=
  { regId := regId, type := .negate }

def createCopyOperation (destRegId srcRegId : Nat) : RegisterOperation :=
  { regId := destRegId, type := .copy, copyRegId := some srcRegId }

def setRegId (op : RegisterOperation) (regId : Nat) : RegisterOperation :=
  { op with regId := regId }

end RegisterOperation

/-! ## The prefix tree -/

/-- A node of the tree.  Only the root has no parent. -/
structure PrefixTreeNode where
  parentId : Option Nat
  position : Int
deriving DecidableEq, Repr

/-- A tree in which every node comes after its parent. -/
structure PrefixTree where
  nodes : List PrefixTreeNode
  parent_lt : ∀ (i : Nat) (n : PrefixTreeNode) (p : Nat),
    nodes[i]? = some n → n.parentId = some p → p < i

namespace PrefixTree

def cRootId : Nat := 0

/-- The tree that holds only the root. -/
def new : PrefixTree where
  nodes := [⟨none, -1⟩]
  parent_lt := by
    intro i n p hn hp
    rcases i with _ | i
    · cases hn
      cases hp
    · cases hn

/-- A node below an older one keeps the order. -/
theorem parent_lt_concat (tree : PrefixTree) {parentNodeId : Nat}
    (h : parentNodeId < tree.nodes.length) (position : Int) (i : Nat) (n : PrefixTreeNode)
    (p : Nat) (hn : (tree.nodes ++ [⟨some parentNodeId, position⟩])[i]? = some n)
    (hp : n.parentId = some p) : p < i := by
  rcases Nat.lt_trichotomy i tree.nodes.length with hlt | rfl | hgt
  · rw [List.getElem?_append_left hlt] at hn
    exact tree.parent_lt i n p hn hp
  · rw [List.getElem?_concat_length] at hn
    cases hn
    cases hp
    exact h
  · have hlen : (tree.nodes ++ [(⟨some parentNodeId, position⟩ : PrefixTreeNode)]).length ≤
        i := by
      rw [List.length_append, List.length_singleton]
      omega
    rw [List.getElem?_eq_none_iff.2 hlen] at hn
    cases hn

/-- A new node below `parentNodeId`, and its id. -/
def insert (tree : PrefixTree) (parentNodeId : Nat) (position : Int) :
    Option (PrefixTree × Nat) :=
  if h : parentNodeId < tree.nodes.length then
    some (⟨tree.nodes ++ [⟨some parentNodeId, position⟩], tree.parent_lt_concat h position⟩,
      tree.nodes.length)
  else none

/-- The positions from a node up to the root.  A parent comes before its
children, so `id + 1` steps suffice. -/
def reversedPositionsFrom (nodes : List PrefixTreeNode) : Nat → Nat → List Int
  | 0, _ => []
  | fuel + 1, id =>
    match nodes[id]? with
    | some ⟨some parentId, position⟩ => position :: reversedPositionsFrom nodes fuel parentId
    | _ => []

def getReversedPositions (tree : PrefixTree) (nodeId : Nat) : Option (List Int) :=
  if nodeId < tree.nodes.length then
    some (reversedPositionsFrom tree.nodes (nodeId + 1) nodeId)
  else none

end PrefixTree

/-! ## The register handler -/

/-- The tree, and the node of every register. -/
structure RegisterHandler where
  prefixTree : PrefixTree
  registers : List Nat

namespace RegisterHandler

/-- The handler without registers. -/
def new : RegisterHandler := ⟨PrefixTree.new, []⟩

def getNumRegs (handler : RegisterHandler) : Nat := handler.registers.length

def addRegister (handler : RegisterHandler) : RegisterHandler × Nat :=
  ({ handler with registers := handler.registers ++ [PrefixTree.cRootId] },
    handler.registers.length)

/-- Adds `count` registers. -/
def addRegisters (handler : RegisterHandler) : Nat → RegisterHandler
  | 0 => handler
  | count + 1 => (handler.addRegister.1).addRegisters count

def copyRegister (handler : RegisterHandler) (destRegId sourceRegId : Nat) :
    Option RegisterHandler := do
  let node ← handler.registers[sourceRegId]?
  if destRegId < handler.registers.length then
    some { handler with registers := handler.registers.set destRegId node }
  else none

def appendPosition (handler : RegisterHandler) (regId : Nat) (position : Int) :
    Option RegisterHandler := do
  let node ← handler.registers[regId]?
  let (tree, newNode) ← handler.prefixTree.insert node position
  some { prefixTree := tree, registers := handler.registers.set regId newNode }

def getReversedPositions (handler : RegisterHandler) (regId : Nat) : Option (List Int) := do
  let node ← handler.registers[regId]?
  handler.prefixTree.getReversedPositions node

@[simp] theorem getNumRegs_new : new.getNumRegs = 0 := rfl

@[simp] theorem addRegister_snd (handler : RegisterHandler) :
    handler.addRegister.2 = handler.getNumRegs := rfl

@[simp] theorem getNumRegs_addRegister (handler : RegisterHandler) :
    handler.addRegister.1.getNumRegs = handler.getNumRegs + 1 := by
  simp [addRegister, getNumRegs]

@[simp] theorem getNumRegs_addRegisters (handler : RegisterHandler) (count : Nat) :
    (handler.addRegisters count).getNumRegs = handler.getNumRegs + count := by
  induction count generalizing handler with
  | zero => rfl
  | succ count ih =>
    rw [addRegisters, ih, getNumRegs_addRegister]
    omega

end RegisterHandler

end LogSurgeon
