import LogSurgeon.FiniteAutomata.RegisterStore

/-!
# Registers as lists

A handler behaves as if each register had a list of positions of its own, to
which appending adds and which copying assigns.  `Represents` relates a handler
to such lists.  Every operation keeps it (`Represents.apply`), so a run of
operations does (`run_refines`).
-/

namespace LogSurgeon

/-! ## The walk to the root -/

namespace PrefixTree

/-- The walk from a node to the root, and the positions on it. -/
inductive Walks (tree : PrefixTree) : Nat → List Int → Prop where
  | root {id : Nat} {position : Int} (h : tree.nodes[id]? = some ⟨none, position⟩) :
      Walks tree id []
  | next {id parentId : Nat} {position : Int} {positions : List Int}
      (h : tree.nodes[id]? = some ⟨some parentId, position⟩)
      (hrest : Walks tree parentId positions) : Walks tree id (position :: positions)

/-- The walk ends, since parents come before their children. -/
theorem walks_reversedPositionsFrom (tree : PrefixTree) {fuel id : Nat} (hfuel : id < fuel)
    (hid : id < tree.nodes.length) :
    tree.Walks id (reversedPositionsFrom tree.nodes fuel id) := by
  induction fuel generalizing id with
  | zero => omega
  | succ fuel ih =>
    have hnode : tree.nodes[id]? = some tree.nodes[id] := List.getElem?_eq_getElem hid
    unfold reversedPositionsFrom
    generalize tree.nodes[id] = node at hnode
    rw [hnode]
    obtain ⟨parentId, position⟩ := node
    cases parentId with
    | none => exact .root hnode
    | some parentId =>
      have hlt := tree.parent_lt id _ parentId hnode rfl
      exact .next hnode (ih (by omega) (by omega))

theorem walks_of_getReversedPositions {tree : PrefixTree} {id : Nat} {positions : List Int}
    (h : tree.getReversedPositions id = some positions) : tree.Walks id positions := by
  unfold getReversedPositions at h
  split at h
  · rename_i hid
    cases h
    exact tree.walks_reversedPositionsFrom (Nat.lt_succ_self id) hid
  · cases h

end PrefixTree

/-! ## Operations -/

namespace RegisterHandler

inductive Operation where
  | addRegister
  | addRegisters (numRegToAdd : Nat)
  | appendPosition (regId : Nat) (position : Int)
  | copyRegister (destRegId sourceRegId : Nat)
deriving DecidableEq, Repr

/-- `none` is an exception, for a register id out of range. -/
def apply (handler : RegisterHandler) : Operation → Option RegisterHandler
  | .addRegister => some handler.addRegister.1
  | .addRegisters numRegToAdd => some (handler.addRegisters numRegToAdd)
  | .appendPosition regId position => handler.appendPosition regId position
  | .copyRegister destRegId sourceRegId => handler.copyRegister destRegId sourceRegId

def run (handler : RegisterHandler) (ops : List Operation) : Option RegisterHandler :=
  ops.foldlM apply handler

end RegisterHandler

/-- Registers with a list of positions each. -/
abbrev PositionLists := List (List Int)

namespace PositionLists

open RegisterHandler (Operation)

/-- What an operation does to the lists. -/
def apply (lists : PositionLists) : Operation → Option PositionLists
  | .addRegister => some (lists ++ [[]])
  | .addRegisters numRegToAdd => some (lists ++ List.replicate numRegToAdd [])
  | .appendPosition regId position =>
    (lists[regId]?).map fun positions => lists.set regId (positions ++ [position])
  | .copyRegister destRegId sourceRegId =>
    if destRegId < lists.length then (lists[sourceRegId]?).map (lists.set destRegId) else none

def run (lists : PositionLists) (ops : List Operation) : Option PositionLists :=
  ops.foldlM apply lists

end PositionLists

namespace RegisterHandler

/-! ## The refinement -/

/-- The registers have the positions of the lists. -/
structure Represents (handler : RegisterHandler) (lists : PositionLists) : Prop where
  pointed : handler.Pointed
  root : 0 < handler.prefixTree.nodes.length
  length : handler.registers.length = lists.length
  positions : ∀ r, handler.getReversedPositions r = (lists[r]?).map List.reverse

variable {handler handler' : RegisterHandler} {lists : PositionLists}

theorem represents_new : new.Represents [] where
  pointed := by
    intro r hr
    cases hr
  root := Nat.zero_lt_one
  length := rfl
  positions _ := rfl

/-- A register that is added points to the root, which has no position. -/
theorem Represents.addRegister (h : handler.Represents lists) :
    handler.addRegister.1.Represents (lists ++ [[]]) where
  pointed := by
    intro r hr
    rcases List.mem_append.1 hr with hr | hr
    · exact h.pointed r hr
    · rw [List.mem_singleton.1 hr]
      exact h.root
  root := h.root
  length := by
    show (handler.registers ++ [PrefixTree.cRootId]).length = _
    rw [List.length_append, List.length_append, h.length]
    rfl
  positions r := by
    have hother := h.positions r
    unfold getReversedPositions at hother ⊢
    show ((handler.registers ++ [PrefixTree.cRootId])[r]? >>= _) = _
    rcases Nat.lt_trichotomy r lists.length with hlt | rfl | hgt
    · rw [List.getElem?_append_left (h.length ▸ hlt), List.getElem?_append_left hlt]
      exact hother
    · have hroot : handler.prefixTree.getReversedPositions PrefixTree.cRootId = some [] := by
        have hwalks := handler.prefixTree.walks_reversedPositionsFrom (Nat.lt_succ_self 0) h.root
        unfold PrefixTree.getReversedPositions
        rw [PrefixTree.cRootId, if_pos h.root]
        generalize PrefixTree.reversedPositionsFrom _ _ _ = positions at hwalks
        cases hwalks with
        | root => rfl
        | next hnode => exact absurd (handler.prefixTree.parent_lt 0 _ _ hnode rfl) (by omega)
      rw [List.getElem?_concat_length, ← h.length, List.getElem?_concat_length]
      exact hroot
    · have hnone : (handler.registers ++ [PrefixTree.cRootId])[r]? = none := by
        rw [List.getElem?_eq_none_iff, List.length_append, h.length, List.length_singleton]
        omega
      have hnone' : (lists ++ [[]])[r]? = none := by
        rw [List.getElem?_eq_none_iff, List.length_append, List.length_singleton]
        omega
      rw [hnone, hnone']
      rfl

theorem Represents.addRegisters (h : handler.Represents lists) (count : Nat) :
    (handler.addRegisters count).Represents (lists ++ List.replicate count []) := by
  induction count generalizing handler lists with
  | zero =>
    rw [List.replicate_zero, List.append_nil]
    exact h
  | succ count ih =>
    have hrest := ih h.addRegister
    rw [List.append_assoc, List.singleton_append, ← List.replicate_succ] at hrest
    exact hrest

/-- A new node below that of the register, to which no other register
points. -/
theorem Represents.appendPosition (h : handler.Represents lists) {regId : Nat}
    {positions : List Int} (hlist : lists[regId]? = some positions) (position : Int) :
    ∃ handler', handler.appendPosition regId position = some handler' ∧
      handler'.Represents (lists.set regId (positions ++ [position])) := by
  have hlist' : regId < lists.length := (List.getElem?_eq_some_iff.1 hlist).1
  obtain ⟨node, hnode⟩ : ∃ node, handler.registers[regId]? = some node :=
    ⟨_, List.getElem?_eq_getElem (show regId < handler.registers.length by
      rw [h.length]
      exact hlist')⟩
  have hlt := h.pointed node (List.mem_of_getElem? hnode)
  have happend : handler.appendPosition regId position = some
      { prefixTree :=
          ⟨handler.prefixTree.nodes ++ [⟨some node, position⟩],
            handler.prefixTree.parent_lt_concat hlt position⟩
        registers := handler.registers.set regId handler.prefixTree.nodes.length } := by
    unfold RegisterHandler.appendPosition PrefixTree.insert
    rw [hnode]
    simp only [Option.bind_eq_bind, Option.bind_some, dif_pos hlt]
  obtain ⟨limit, -, -, hwithin⟩ := h.pointed.exists_within 0
  have hread := getReversedPositions_appendPosition hwithin happend
  refine ⟨_, happend, ?_, ?_, ?_, fun r => ?_⟩
  · intro r hr
    show r < (handler.prefixTree.nodes ++ [_]).length
    rw [List.length_append, List.length_singleton]
    rcases List.mem_or_eq_of_mem_set hr with hr | rfl
    · exact Nat.lt_succ_of_lt (h.pointed r hr)
    · exact Nat.lt_succ_self _
  · show 0 < (handler.prefixTree.nodes ++ [_]).length
    rw [List.length_append, List.length_singleton]
    exact Nat.succ_pos _
  · show (handler.registers.set regId _).length = _
    rw [List.length_set, List.length_set]
    exact h.length
  · rw [hread]
    by_cases hr : r = regId
    · rw [if_pos hr, hr, List.getElem?_set_self hlist', h.positions, hlist]
      simp
    · rw [if_neg hr, List.getElem?_set_ne (Ne.symm hr)]
      exact h.positions r

theorem Represents.copyRegister (h : handler.Represents lists) {destRegId sourceRegId : Nat}
    {positions : List Int} (hdest : destRegId < lists.length)
    (hlist : lists[sourceRegId]? = some positions) :
    ∃ handler', handler.copyRegister destRegId sourceRegId = some handler' ∧
      handler'.Represents (lists.set destRegId positions) := by
  have hsource : sourceRegId < lists.length := (List.getElem?_eq_some_iff.1 hlist).1
  obtain ⟨node, hnode⟩ : ∃ node, handler.registers[sourceRegId]? = some node :=
    ⟨_, List.getElem?_eq_getElem (show sourceRegId < handler.registers.length by
      rw [h.length]
      exact hsource)⟩
  have hcopy : handler.copyRegister destRegId sourceRegId =
      some { handler with registers := handler.registers.set destRegId node } := by
    unfold RegisterHandler.copyRegister
    rw [hnode]
    simp only [Option.bind_eq_bind, Option.bind_some]
    rw [if_pos (h.length ▸ hdest)]
  have hread := getReversedPositions_copyRegister hcopy
  refine ⟨_, hcopy, ?_, h.root, ?_, fun r => ?_⟩
  · intro r hr
    rcases List.mem_or_eq_of_mem_set hr with hr | rfl
    · exact h.pointed r hr
    · exact h.pointed _ (List.mem_of_getElem? hnode)
  · show (handler.registers.set destRegId _).length = _
    rw [List.length_set, List.length_set]
    exact h.length
  · rw [hread]
    by_cases hr : r = destRegId
    · rw [if_pos hr, hr, List.getElem?_set_self hdest, h.positions, hlist]
    · rw [if_neg hr, List.getElem?_set_ne (Ne.symm hr)]
      exact h.positions r

/-- An operation on the handler is the operation on the lists, and it throws if
there is no such list. -/
theorem Represents.apply (h : handler.Represents lists) (op : Operation) :
    handler.apply op = none ∧ lists.apply op = none ∨
      ∃ handler' lists', handler.apply op = some handler' ∧ lists.apply op = some lists' ∧
        handler'.Represents lists' := by
  cases op with
  | addRegister => exact Or.inr ⟨_, _, rfl, rfl, h.addRegister⟩
  | addRegisters numRegToAdd => exact Or.inr ⟨_, _, rfl, rfl, h.addRegisters numRegToAdd⟩
  | appendPosition regId position =>
    show handler.appendPosition regId position = none ∧ (lists[regId]?).map _ = none ∨ _
    cases hlist : lists[regId]? with
    | none =>
      have hnone : handler.registers[regId]? = none := by
        rw [List.getElem?_eq_none_iff, h.length]
        exact List.getElem?_eq_none_iff.1 hlist
      refine Or.inl ⟨?_, rfl⟩
      unfold RegisterHandler.appendPosition
      rw [hnone]
      rfl
    | some positions =>
      obtain ⟨handler', happend, hrepresents⟩ := h.appendPosition hlist position
      refine Or.inr ⟨handler', _, happend, ?_, hrepresents⟩
      show (lists[regId]?).map _ = _
      rw [hlist]
      rfl
  | copyRegister destRegId sourceRegId =>
    show handler.copyRegister destRegId sourceRegId = none ∧
      (if destRegId < lists.length then (lists[sourceRegId]?).map _ else none) = none ∨ _
    cases hlist : lists[sourceRegId]? with
    | none =>
      have hnone : handler.registers[sourceRegId]? = none := by
        rw [List.getElem?_eq_none_iff, h.length]
        exact List.getElem?_eq_none_iff.1 hlist
      refine Or.inl ⟨?_, by simp⟩
      unfold RegisterHandler.copyRegister
      rw [hnone]
      rfl
    | some positions =>
      by_cases hdest : destRegId < lists.length
      · obtain ⟨handler', hcopy, hrepresents⟩ := h.copyRegister hdest hlist
        refine Or.inr ⟨handler', _, hcopy, ?_, hrepresents⟩
        show (if destRegId < lists.length then (lists[sourceRegId]?).map _ else none) = _
        rw [if_pos hdest, hlist]
        rfl
      · refine Or.inl ⟨?_, if_neg hdest⟩
        unfold RegisterHandler.copyRegister
        cases handler.registers[sourceRegId]? with
        | none => rfl
        | some node => exact if_neg (h.length ▸ hdest)

theorem Represents.run (h : handler.Represents lists) (ops : List Operation) :
    handler.run ops = none ∧ lists.run ops = none ∨
      ∃ handler' lists', handler.run ops = some handler' ∧ lists.run ops = some lists' ∧
        handler'.Represents lists' := by
  induction ops generalizing handler lists with
  | nil => exact Or.inr ⟨handler, lists, rfl, rfl, h⟩
  | cons op ops ih =>
    unfold RegisterHandler.run PositionLists.run
    rw [List.foldlM_cons, List.foldlM_cons]
    rcases h.apply op with ⟨hnone, hnone'⟩ | ⟨handler', lists', hsome, hsome', hrepresents⟩
    · rw [hnone, hnone']
      exact Or.inl ⟨rfl, rfl⟩
    · rw [hsome, hsome']
      exact ih hrepresents

end RegisterHandler

end LogSurgeon
