import LogSurgeon.FiniteAutomata.TagHistories

/-!
# Renaming the registers of a transition

`reassignTransitionRegOps` should act like the operations with all registers
renamed at once.  It visits the pairs of the mapping one after the other: it
moves the first operation on the old register to the new one, or appends a copy.

A pair that is visited before another one can leave an operation on the old
register of the other, and that operation is then moved once more.  A copy reads
a register that a moved operation has overwritten already.  `Orderly` excludes
both, and `renamesSimultaneously_iff_orderly` says that nothing else goes wrong.
-/

namespace LogSurgeon.Dfa

open Lib Determinization RegisterOperation

/-! ## The statement -/

/-- Some operation changes the register. -/
def HasOp (ops : List RegisterOperation) (r : Nat) : Prop := ∃ op ∈ ops, op.regId = r

instance (ops : List RegisterOperation) (r : Nat) : Decidable (HasOp ops r) :=
  inferInstanceAs (Decidable (∃ op ∈ ops, _))

/-- The renamed operations leave in every new register the most recent position
that the operations leave in the old one. -/
def RenamesSimultaneously (numRegs : Nat) (order : List (Nat × Nat))
    (ops : List RegisterOperation) : Prop :=
  ∀ handler : RegisterHandler, handler.Pointed → numRegs ≤ handler.getNumRegs → ∀ currPos,
    ∃ original renamed, processRegOps ops currPos handler = some original ∧
      processRegOps (reassignTransitionRegOps order ops) currPos handler = some renamed ∧
      ∀ a b, (a, b) ∈ order → renamed.mostRecentPosition b = original.mostRecentPosition a

/-- The order of the mapping suits the operations.  A register that moves has
not both operations, and one with an operation does not move to a register that
moves itself.  A register without operations moves before its place is taken. -/
structure Orderly (order : List (Nat × Nat)) (ops : List RegisterOperation) : Prop where
  single : ∀ a b, (a, b) ∈ order → a ≠ b →
    ¬ (createSetOperation a ∈ ops ∧ createNegateOperation a ∈ ops)
  notMoved : ∀ a b c, (a, b) ∈ order → (b, c) ∈ order → a ≠ b → b ≠ c → ¬ HasOp ops a
  copiedFirst : ∀ a b c, a ≠ b → b ≠ c → ¬ HasOp ops b → ¬ [(a, b), (b, c)].Sublist order

/-- What a mapping and the operations of a transition have in common.  The
operations are no copies and are all different, the mapping is one to one, and
of a register and its new one at most one has operations. -/
structure Renaming (order : List (Nat × Nat)) (ops : List RegisterOperation) : Prop where
  keys : (order.map Prod.fst).Nodup
  values : (order.map Prod.snd).Nodup
  plain : ∀ op ∈ ops, ∃ r type, op = regOpOf r type
  nodup : ops.Nodup
  separate : ∀ a b, (a, b) ∈ order → a ≠ b → HasOp ops a → ¬ HasOp ops b

/-! ## One pair -/

/-- Moves the first operation on `a` to `b`. -/
def renameFirst (a b : Nat) : List RegisterOperation → List RegisterOperation
  | [] => []
  | op :: ops => if op.regId = a then op.setRegId b :: ops else op :: renameFirst a b ops

section renameFirst

variable {a b r : Nat} {ops : List RegisterOperation}

theorem hasOp_cons {op : RegisterOperation} :
    HasOp (op :: ops) r ↔ op.regId = r ∨ HasOp ops r := by
  simp [HasOp]

theorem hasOp_append {ops' : List RegisterOperation} :
    HasOp (ops ++ ops') r ↔ HasOp ops r ∨ HasOp ops' r := by
  simp [HasOp, or_and_right, exists_or]

theorem filter_eq_nil_of_not_hasOp (h : ¬ HasOp ops r) : ops.filter (·.regId = r) = [] := by
  apply List.filter_eq_nil_iff.2
  intro op hop hreg
  exact h ⟨op, hop, of_decide_eq_true hreg⟩

theorem renameFirst_append (h : HasOp ops a) (ops' : List RegisterOperation) :
    renameFirst a b (ops ++ ops') = renameFirst a b ops ++ ops' := by
  induction ops with
  | nil =>
    obtain ⟨op, hop, -⟩ := h
    cases hop
  | cons op ops ih =>
    rw [List.cons_append, renameFirst, renameFirst]
    split
    · rfl
    · rename_i hne
      rw [ih ((hasOp_cons.1 h).resolve_left hne)]
      rfl

/-- Other registers keep their operations. -/
theorem filter_renameFirst_of_ne (ha : a ≠ r) (hb : b ≠ r) :
    (renameFirst a b ops).filter (·.regId = r) = ops.filter (·.regId = r) := by
  induction ops with
  | nil => rfl
  | cons op ops ih =>
    rw [renameFirst]
    split
    · rename_i hop
      have hold : ¬ op.regId = r := by
        rw [hop]
        exact ha
      have hnew : ¬ (op.setRegId b).regId = r := hb
      simp [hold, hnew]
    · rw [List.filter_cons, List.filter_cons, ih]

/-- The new register has the operation that was moved. -/
theorem filter_renameFirst_self (hb : ¬ HasOp ops b) :
    (renameFirst a b ops).filter (·.regId = b) =
      ((ops.filter (·.regId = a)).head?.map (·.setRegId b)).toList := by
  induction ops with
  | nil => rfl
  | cons op ops ih =>
    have hrest : ¬ HasOp ops b := fun h => hb (hasOp_cons.2 (Or.inr h))
    have hop : ¬ op.regId = b := fun h => hb (hasOp_cons.2 (Or.inl h))
    rw [renameFirst]
    split
    · rename_i hreg
      have hnew : (op.setRegId b).regId = b := rfl
      rw [List.filter_cons_of_pos (by simpa using hnew), filter_eq_nil_of_not_hasOp hrest,
        List.filter_cons_of_pos (by simpa using hreg)]
      rfl
    · rename_i hreg
      rw [List.filter_cons_of_neg (by simpa using hop), ih hrest,
        List.filter_cons_of_neg (by simpa using hreg)]

theorem modify_findIdx?_eq_renameFirst {i : Nat} (h : ops.findIdx? (·.regId = a) = some i) :
    ops.modify i (·.setRegId b) = renameFirst a b ops := by
  induction ops generalizing i with
  | nil => cases h
  | cons op ops ih =>
    rw [List.findIdx?_cons] at h
    rw [renameFirst]
    by_cases hop : op.regId = a
    · rw [if_pos (decide_eq_true hop)] at h
      obtain rfl := Option.some.inj h
      rw [if_pos hop]
      rfl
    · rw [if_neg (by simpa using hop)] at h
      obtain ⟨j, hj, rfl⟩ := Option.map_eq_some_iff.1 h
      rw [if_neg hop, ← ih hj]
      rfl

theorem reassignRegOp_eq (ops : List RegisterOperation) (a b : Nat) :
    reassignRegOp ops (a, b) =
      if a = b then ops
      else if HasOp ops a then renameFirst a b ops
      else ops ++ [createCopyOperation b a] := by
  unfold reassignRegOp
  dsimp only
  split
  · rfl
  · cases hfind : ops.findIdx? (·.regId = a) with
    | some i =>
      have hhas : HasOp ops a := by
        obtain ⟨hlt, hreg, -⟩ := List.findIdx?_eq_some_iff_getElem.1 hfind
        exact ⟨ops[i], List.getElem_mem hlt, of_decide_eq_true hreg⟩
      rw [if_pos hhas]
      exact modify_findIdx?_eq_renameFirst hfind
    | none =>
      have hnot : ¬ HasOp ops a := by
        rintro ⟨op, hop, hreg⟩
        have hnone := List.findIdx?_eq_none_iff.1 hfind op hop
        simp [hreg] at hnone
      rw [if_neg hnot]

end renameFirst

/-! ## The whole mapping -/

/-- The pairs that move an operation. -/
def renamedMoves (order : List (Nat × Nat)) (ops : List RegisterOperation) : List (Nat × Nat) :=
  order.filter fun e => e.1 ≠ e.2 ∧ HasOp ops e.1

/-- The pairs that add a copy. -/
def copiedMoves (order : List (Nat × Nat)) (ops : List RegisterOperation) : List (Nat × Nat) :=
  order.filter fun e => e.1 ≠ e.2 ∧ ¬ HasOp ops e.1

def renameAll (moves : List (Nat × Nat)) (ops : List RegisterOperation) :
    List RegisterOperation :=
  moves.foldl (fun ops e => renameFirst e.1 e.2 ops) ops

/-- The copies of the pairs of an old and a new register. -/
def copyOps (moves : List (Nat × Nat)) : List RegisterOperation :=
  moves.map fun e => createCopyOperation e.2 e.1

variable {order : List (Nat × Nat)} {ops : List RegisterOperation}

theorem mem_renamedMoves {e : Nat × Nat} :
    e ∈ renamedMoves order ops ↔ e ∈ order ∧ e.1 ≠ e.2 ∧ HasOp ops e.1 := by
  simp [renamedMoves]

theorem mem_copiedMoves {e : Nat × Nat} :
    e ∈ copiedMoves order ops ↔ e ∈ order ∧ e.1 ≠ e.2 ∧ ¬ HasOp ops e.1 := by
  simp [copiedMoves]

theorem hasOp_copyOps {moves : List (Nat × Nat)} {r : Nat} :
    HasOp (copyOps moves) r ↔ ∃ e ∈ moves, e.2 = r := by
  simp [HasOp, copyOps, createCopyOperation]

/-- Registers that no pair mentions keep their operations. -/
theorem filter_renameAll_of_ne {moves : List (Nat × Nat)} {r : Nat}
    (h : ∀ e ∈ moves, e.1 ≠ r ∧ e.2 ≠ r) :
    (renameAll moves ops).filter (·.regId = r) = ops.filter (·.regId = r) := by
  unfold renameAll
  induction moves generalizing ops with
  | nil => rfl
  | cons e moves ih =>
    obtain ⟨hold, hnew⟩ := h e List.mem_cons_self
    rw [List.foldl_cons, ih fun e' he' => h e' (List.mem_cons_of_mem e he'),
      filter_renameFirst_of_ne hold hnew]

theorem hasOp_iff_filter_ne_nil {r : Nat} :
    HasOp ops r ↔ ops.filter (·.regId = r) ≠ [] := by
  constructor
  · rintro ⟨op, hop, hreg⟩
    exact List.ne_nil_of_mem (List.mem_filter.2 ⟨hop, decide_eq_true hreg⟩)
  · intro hne
    by_contra hnot
    exact hne (filter_eq_nil_of_not_hasOp hnot)

/-- The operations on a new register after all pairs: the first one on the old
register. -/
theorem filter_renameAll_self {moves : List (Nat × Nat)} (hkeys : (moves.map Prod.fst).Nodup)
    (hvalues : (moves.map Prod.snd).Nodup) (holds : ∀ e ∈ moves, HasOp ops e.1)
    (hnews : ∀ e ∈ moves, ¬ HasOp ops e.2) {a b : Nat} (hab : (a, b) ∈ moves) :
    (renameAll moves ops).filter (·.regId = b) =
      ((ops.filter (·.regId = a)).head?.map (·.setRegId b)).toList := by
  obtain ⟨before, after, rfl⟩ := List.append_of_mem hab
  -- no other pair mentions the old or the new register
  have hother : ∀ e ∈ before ++ after, (e.1 ≠ a ∧ e.2 ≠ a) ∧ e.1 ≠ b ∧ e.2 ≠ b := by
    intro e he
    have hmem : e ∈ before ++ (a, b) :: after := by
      rcases List.mem_append.1 he with he | he
      · exact List.mem_append_left _ he
      · exact List.mem_append_right _ (List.mem_cons_of_mem _ he)
    have hperm : (before ++ (a, b) :: after).Perm ((a, b) :: (before ++ after)) :=
      List.perm_middle
    have hkeys' := (hperm.map Prod.fst).nodup_iff.1 hkeys
    have hvalues' := (hperm.map Prod.snd).nodup_iff.1 hvalues
    rw [List.map_cons, List.nodup_cons] at hkeys' hvalues'
    have hold := holds (a, b) hab
    have hnew := hnews (a, b) hab
    refine ⟨⟨?_, ?_⟩, ?_, ?_⟩
    · exact fun heq => hkeys'.1 (List.mem_map.2 ⟨e, he, heq⟩)
    · exact fun heq => hnews e hmem (heq ▸ hold)
    · exact fun heq => hnew (heq ▸ holds e hmem)
    · exact fun heq => hvalues'.1 (List.mem_map.2 ⟨e, he, heq⟩)
  have hbefore : ∀ e ∈ before, (e.1 ≠ a ∧ e.2 ≠ a) ∧ e.1 ≠ b ∧ e.2 ≠ b :=
    fun e he => hother e (List.mem_append_left _ he)
  have hafter : ∀ e ∈ after, e.1 ≠ b ∧ e.2 ≠ b :=
    fun e he => (hother e (List.mem_append_right _ he)).2
  have hsplit : renameAll (before ++ (a, b) :: after) ops =
      renameAll after (renameFirst a b (renameAll before ops)) := by
    unfold renameAll
    rw [List.foldl_append, List.foldl_cons]
  have hnew : ¬ HasOp (renameAll before ops) b := by
    rw [hasOp_iff_filter_ne_nil, filter_renameAll_of_ne fun e he => (hbefore e he).2,
      ← hasOp_iff_filter_ne_nil]
    exact hnews (a, b) hab
  rw [hsplit, filter_renameAll_of_ne hafter, filter_renameFirst_self hnew,
    filter_renameAll_of_ne fun e he => (hbefore e he).1]

/-- The operations and the copies, when no pair that is visited earlier leaves an
operation on the old register of a copy. -/
theorem reassignTransitionRegOps_eq (h : Renaming order ops)
    (hcopied : ∀ a b c, a ≠ b → b ≠ c → ¬ HasOp ops b → ¬ [(a, b), (b, c)].Sublist order) :
    reassignTransitionRegOps order ops =
      renameAll (renamedMoves order ops) ops ++ copyOps (copiedMoves order ops) := by
  induction order using List.reverseRecOn with
  | nil => exact (List.append_nil ops).symm
  | append_singleton order e ih =>
    obtain ⟨a, b⟩ := e
    have hsub : order.Sublist (order ++ [(a, b)]) := List.sublist_append_left _ _
    have hprefix : Renaming order ops :=
      ⟨(hsub.map Prod.fst).nodup h.keys, (hsub.map Prod.snd).nodup h.values, h.plain, h.nodup,
        fun a' b' he => h.separate a' b' (hsub.subset he)⟩
    have ih := ih hprefix fun a' b' c' hab hbc hnot hsublist =>
      hcopied a' b' c' hab hbc hnot (hsublist.trans hsub)
    have hstep : reassignTransitionRegOps (order ++ [(a, b)]) ops =
        reassignRegOp (reassignTransitionRegOps order ops) (a, b) := by
      unfold reassignTransitionRegOps
      rw [List.foldl_append]
      rfl
    have hkeys := h.keys
    rw [List.map_append, List.nodup_append] at hkeys
    have hfresh : ∀ e ∈ order, e.1 ≠ a := fun e he heq =>
      hkeys.2.2 e.1 (List.mem_map.2 ⟨e, he, rfl⟩) a List.mem_cons_self heq
    rw [hstep, ih, reassignRegOp_eq]
    unfold renamedMoves copiedMoves
    rw [List.filter_append, List.filter_append]
    by_cases hab : a = b
    · rw [if_pos hab]
      simp [hab]
    · rw [if_neg hab]
      by_cases hop : HasOp ops a
      · -- no pair so far mentions the old register
        have hkeep : HasOp (renameAll (renamedMoves order ops) ops) a := by
          rw [hasOp_iff_filter_ne_nil, filter_renameAll_of_ne, ← hasOp_iff_filter_ne_nil]
          · exact hop
          · intro e he
            obtain ⟨he, hne, hold⟩ := mem_renamedMoves.1 he
            refine ⟨hfresh e he, fun heq => ?_⟩
            exact hprefix.separate e.1 e.2 he hne hold (heq ▸ hop)
        have hboth : HasOp (renameAll (renamedMoves order ops) ops ++
            copyOps (copiedMoves order ops)) a := hasOp_append.2 (Or.inl hkeep)
        have hmove := renameFirst_append hkeep (copyOps (copiedMoves order ops)) (b := b)
        unfold renamedMoves copiedMoves at hboth hmove
        rw [if_pos hboth, hmove]
        simp [hab, hop, renameAll]
      · -- the pairs that lead to the old register come later
        have hnone : ∀ e ∈ order, e.1 ≠ e.2 → e.2 ≠ a := by
          rintro ⟨z, a'⟩ he hne rfl
          have hsublist : [(z, a'), (a', b)].Sublist (order ++ [(a', b)]) :=
            (List.singleton_sublist.2 he).append (List.Sublist.refl _)
          exact hcopied z a' b hne hab hop hsublist
        have hleft : ¬ HasOp (renameAll (renamedMoves order ops) ops) a := by
          rw [hasOp_iff_filter_ne_nil, filter_renameAll_of_ne, ← hasOp_iff_filter_ne_nil]
          · exact hop
          · intro e he
            obtain ⟨he, hne, -⟩ := mem_renamedMoves.1 he
            exact ⟨hfresh e he, hnone e he hne⟩
        have hright : ¬ HasOp (copyOps (copiedMoves order ops)) a := by
          rw [hasOp_copyOps]
          rintro ⟨e, he, heq⟩
          obtain ⟨he, hne, -⟩ := mem_copiedMoves.1 he
          exact hnone e he hne heq
        have hboth : ¬ HasOp (renameAll (renamedMoves order ops) ops ++
            copyOps (copiedMoves order ops)) a := by
          rw [hasOp_append, not_or]
          exact ⟨hleft, hright⟩
        unfold renamedMoves copiedMoves at hboth
        rw [if_neg hboth]
        simp [hab, hop, copyOps]

/-! ## The store behind the operations -/

theorem mem_renameFirst {a b : Nat} {op : RegisterOperation} (h : op ∈ renameFirst a b ops) :
    ∃ op' ∈ ops, op.type = op'.type := by
  induction ops with
  | nil => cases h
  | cons op' ops ih =>
    rw [renameFirst] at h
    split at h
    · rcases List.mem_cons.1 h with rfl | h
      · exact ⟨op', List.mem_cons_self, rfl⟩
      · exact ⟨op, List.mem_cons_of_mem _ h, rfl⟩
    · rcases List.mem_cons.1 h with rfl | h
      · exact ⟨op, List.mem_cons_self, rfl⟩
      · obtain ⟨op'', hop'', htype⟩ := ih h
        exact ⟨op'', List.mem_cons_of_mem _ hop'', htype⟩

theorem type_of_mem_renameAll {moves : List (Nat × Nat)} (h : ∀ op ∈ ops, op.type ≠ .copy) :
    ∀ op ∈ renameAll moves ops, op.type ≠ .copy := by
  unfold renameAll
  induction moves generalizing ops with
  | nil => exact h
  | cons e moves ih =>
    rw [List.foldl_cons]
    refine ih fun op hop => ?_
    obtain ⟨op', hop', htype⟩ := mem_renameFirst hop
    rw [htype]
    exact h op' hop'

theorem map_toInstruction_copyOps (moves : List (Nat × Nat)) (currPos : Nat) :
    (copyOps moves).map (·.toInstruction currPos) = Instruction.copies moves := by
  unfold copyOps Instruction.copies
  rw [List.map_map]
  rfl

theorem Renaming.type_ne_copy (h : Renaming order ops) : ∀ op ∈ ops, op.type ≠ .copy := by
  intro op hop
  obtain ⟨r, type, rfl⟩ := h.plain op hop
  exact type_regOpOf_ne_copy r type

variable {currPos : Nat} {store : Nat → Option Int} {a b : Nat}

/-- The moved operations run first, and the copies act on what they leave. -/
theorem runRegOps_reassign (h : Renaming order ops)
    (hcopied : ∀ a b c, a ≠ b → b ≠ c → ¬ HasOp ops b → ¬ [(a, b), (b, c)].Sublist order)
    (currPos : Nat) (store : Nat → Option Int) :
    runRegOps (reassignTransitionRegOps order ops) currPos store =
      Instruction.run (Instruction.copies (copiedMoves order ops))
        (runRegOps (renameAll (renamedMoves order ops) ops) currPos store) := by
  unfold runRegOps
  rw [reassignTransitionRegOps_eq h hcopied, List.map_append, Instruction.run_append,
    map_toInstruction_copyOps]

/-- The store behind the moved operations, register by register. -/
theorem runRegOps_renameAll (h : Renaming order ops) (r : Nat) :
    runRegOps (renameAll (renamedMoves order ops) ops) currPos store r =
      (((renameAll (renamedMoves order ops) ops).filter (·.regId = r)).getLast?.map
        (·.writtenPosition currPos)).getD (store r) :=
  runRegOps_eq_getD (type_of_mem_renameAll h.type_ne_copy) currPos store r

/-- A register that no moved operation has left or reached is as before. -/
theorem runRegOps_renameAll_of_ne (h : Renaming order ops) {r : Nat}
    (hr : ∀ e ∈ renamedMoves order ops, e.1 ≠ r ∧ e.2 ≠ r) :
    runRegOps (renameAll (renamedMoves order ops) ops) currPos store r =
      runRegOps ops currPos store r := by
  rw [runRegOps_renameAll h, filter_renameAll_of_ne hr,
    runRegOps_eq_getD h.type_ne_copy]

/-- The new register of a moved operation has its position. -/
theorem runRegOps_renameAll_self (h : Renaming order ops) (hab : (a, b) ∈ order) (hne : a ≠ b)
    {op : RegisterOperation} (hop : (ops.filter (·.regId = a)).head? = some op) :
    runRegOps (renameAll (renamedMoves order ops) ops) currPos store b =
      op.writtenPosition currPos := by
  have hhas : HasOp ops a := by
    rw [hasOp_iff_filter_ne_nil]
    intro hnil
    rw [hnil] at hop
    cases hop
  have hsub : (renamedMoves order ops).Sublist order := List.filter_sublist
  have hfilter := filter_renameAll_self ((hsub.map Prod.fst).nodup h.keys)
    ((hsub.map Prod.snd).nodup h.values)
    (fun e he => (mem_renamedMoves.1 he).2.2)
    (fun e he => h.separate e.1 e.2 (mem_renamedMoves.1 he).1 (mem_renamedMoves.1 he).2.1
      (mem_renamedMoves.1 he).2.2)
    (mem_renamedMoves.2 ⟨hab, hne, hhas⟩)
  rw [runRegOps_renameAll h, hfilter, hop]
  rfl

theorem Renaming.eq_of_fst (h : Renaming order ops) {c : Nat} (hb : (a, b) ∈ order)
    (hc : (a, c) ∈ order) : b = c :=
  congrArg Prod.snd (List.inj_on_of_nodup_map h.keys hb hc rfl)

theorem Renaming.eq_of_snd (h : Renaming order ops) {c : Nat} (ha : (a, c) ∈ order)
    (hb : (b, c) ∈ order) : a = b :=
  congrArg Prod.fst (List.inj_on_of_nodup_map h.values ha hb rfl)

/-- Copies to other registers leave the new register of a moved operation. -/
theorem run_copies_of_hasOp (h : Renaming order ops) (hab : (a, b) ∈ order)
    (hop : a = b ∨ HasOp ops a) (store : Nat → Option Int) :
    Instruction.run (Instruction.copies (copiedMoves order ops)) store b = store b := by
  apply Instruction.run_copies_of_notMem
  rintro ⟨z, c⟩ he rfl
  obtain ⟨he, hne, hnot⟩ := mem_copiedMoves.1 he
  obtain rfl := h.eq_of_snd he hab
  exact hop.elim hne hnot

/-- Copies act at once when no pair takes the place of a register that is copied
later. -/
theorem run_copies_of_not_hasOp (h : Renaming order ops)
    (hcopied : ∀ a b c, a ≠ b → b ≠ c → ¬ HasOp ops b → ¬ [(a, b), (b, c)].Sublist order)
    (hab : (a, b) ∈ copiedMoves order ops) (store : Nat → Option Int) :
    Instruction.run (Instruction.copies (copiedMoves order ops)) store b = store a := by
  have hsub : (copiedMoves order ops).Sublist order := List.filter_sublist
  have hpairwise : (copiedMoves order ops).Pairwise fun e e' => e.2 ≠ e'.1 := by
    rw [List.pairwise_iff_forall_sublist]
    rintro ⟨z, c⟩ ⟨c', d⟩ hsublist rfl
    have hfirst := mem_copiedMoves.1 (hsublist.subset List.mem_cons_self)
    have hsecond := mem_copiedMoves.1
      (hsublist.subset (List.mem_cons_of_mem _ List.mem_cons_self))
    exact hcopied z c d hfirst.2.1 hsecond.2.1 hsecond.2.2 (hsublist.trans hsub)
  exact Instruction.run_copies ((hsub.map Prod.snd).nodup h.values) hpairwise hab

/-! ## The order is enough -/

theorem eq_singleton_of_head?_eq_getLast? {α : Type*} {l : List α} {x : α} (hl : l.Nodup)
    (hhead : l.head? = some x) (hlast : l.getLast? = some x) : l = [x] := by
  cases l with
  | nil => cases hhead
  | cons y l =>
    obtain rfl := Option.some.inj hhead
    cases l with
    | nil => rfl
    | cons z l =>
      rw [List.getLast?_cons_cons] at hlast
      exact absurd (List.mem_of_getLast? hlast) (List.nodup_cons.1 hl).1

/-- A moved register with one type of operation has one operation. -/
theorem Orderly.head?_eq_getLast? (horderly : Orderly order ops) (h : Renaming order ops)
    (hab : (a, b) ∈ order) (hne : a ≠ b) :
    (ops.filter (·.regId = a)).head? = (ops.filter (·.regId = a)).getLast? := by
  have hnodup : (ops.filter (·.regId = a)).Nodup := h.nodup.filter _
  have hsame : ∀ op ∈ ops.filter (·.regId = a), ∀ op' ∈ ops.filter (·.regId = a), op = op' := by
    intro op hop op' hop'
    obtain ⟨hmem, hreg⟩ := List.mem_filter.1 hop
    obtain ⟨hmem', hreg'⟩ := List.mem_filter.1 hop'
    obtain ⟨r, type, rfl⟩ := h.plain op hmem
    obtain ⟨r', type', rfl⟩ := h.plain op' hmem'
    obtain rfl : r = a := by simpa using hreg
    obtain rfl : r' = r := by simpa using hreg'
    have hsingle := horderly.single r' b hab hne
    cases type with
    | set =>
      cases type' with
      | set => rfl
      | negate => exact absurd ⟨hmem, hmem'⟩ hsingle
    | negate =>
      cases type' with
      | set => exact absurd ⟨hmem', hmem⟩ hsingle
      | negate => rfl
  cases hfilter : ops.filter (·.regId = a) with
  | nil => rfl
  | cons op rest =>
    cases rest with
    | nil => rfl
    | cons op' rest =>
      rw [hfilter] at hnodup hsame
      have heq := hsame op List.mem_cons_self op' (List.mem_cons_of_mem _ List.mem_cons_self)
      rw [heq] at hnodup
      exact absurd List.mem_cons_self (List.nodup_cons.1 hnodup).1

theorem Orderly.runRegOps_eq (horderly : Orderly order ops) (h : Renaming order ops)
    (hab : (a, b) ∈ order) (currPos : Nat) (store : Nat → Option Int) :
    runRegOps (reassignTransitionRegOps order ops) currPos store b =
      runRegOps ops currPos store a := by
  rw [runRegOps_reassign h horderly.copiedFirst]
  by_cases hne : a = b
  · subst hne
    rw [run_copies_of_hasOp h hab (Or.inl rfl), runRegOps_renameAll_of_ne h]
    rintro ⟨z, c⟩ he
    obtain ⟨he, hzc, -⟩ := mem_renamedMoves.1 he
    refine ⟨?_, ?_⟩
    · rintro rfl
      exact hzc (h.eq_of_fst hab he)
    · rintro rfl
      exact hzc (h.eq_of_snd he hab)
  · by_cases hop : HasOp ops a
    · rw [run_copies_of_hasOp h hab (Or.inr hop), runRegOps_eq_getD h.type_ne_copy,
        ← horderly.head?_eq_getLast? h hab hne]
      cases hhead : (ops.filter (·.regId = a)).head? with
      | none => exact absurd (List.head?_eq_none_iff.1 hhead) (hasOp_iff_filter_ne_nil.1 hop)
      | some op =>
        rw [runRegOps_renameAll_self h hab hne hhead]
        rfl
    · have hmem : (a, b) ∈ copiedMoves order ops := mem_copiedMoves.2 ⟨hab, hne, hop⟩
      refine (run_copies_of_not_hasOp h horderly.copiedFirst hmem _).trans
        (runRegOps_renameAll_of_ne h ?_)
      rintro ⟨z, c⟩ he
      obtain ⟨he, hzc, hold⟩ := mem_renamedMoves.1 he
      refine ⟨?_, ?_⟩
      · rintro rfl
        exact hop hold
      · rintro rfl
        exact horderly.notMoved z c b he hab hzc hne hold

/-! ## The order is needed -/

def copyCount (ops : List RegisterOperation) : Nat := ops.countP (·.type = .copy)

theorem copyCount_renameFirst (a b : Nat) (ops : List RegisterOperation) :
    copyCount (renameFirst a b ops) = copyCount ops := by
  unfold copyCount
  induction ops with
  | nil => rfl
  | cons op ops ih =>
    rw [renameFirst]
    split
    · rw [List.countP_cons, List.countP_cons]
      rfl
    · rw [List.countP_cons, List.countP_cons, ih]

/-- A pair adds a copy unless the old register has an operation. -/
theorem copyCount_reassignRegOp (L : List RegisterOperation) (a b : Nat) :
    copyCount (reassignRegOp L (a, b)) = copyCount L + if a ≠ b ∧ ¬ HasOp L a then 1 else 0 := by
  rw [reassignRegOp_eq]
  by_cases hab : a = b
  · simp [hab]
  · by_cases hop : HasOp L a
    · simp [hab, hop, copyCount_renameFirst]
    · simp [hab, hop, copyCount, createCopyOperation]

theorem HasOp.renameFirst {L : List RegisterOperation} {r : Nat} (h : HasOp L r) (hra : a ≠ r) :
    HasOp (renameFirst a b L) r := by
  induction L with
  | nil => exact h
  | cons op L ih =>
    rw [Dfa.renameFirst]
    split
    · rename_i hop
      rcases hasOp_cons.1 h with hreg | h
      · exact absurd (hop.symm.trans hreg) hra
      · exact hasOp_cons.2 (Or.inr h)
    · rcases hasOp_cons.1 h with hreg | h
      · exact hasOp_cons.2 (Or.inl hreg)
      · exact hasOp_cons.2 (Or.inr (ih h))

theorem hasOp_renameFirst_self {L : List RegisterOperation} (h : HasOp L a) :
    HasOp (renameFirst a b L) b := by
  induction L with
  | nil =>
    obtain ⟨op, hop, -⟩ := h
    cases hop
  | cons op L ih =>
    rw [renameFirst]
    split
    · exact hasOp_cons.2 (Or.inl rfl)
    · rename_i hne
      exact hasOp_cons.2 (Or.inr (ih ((hasOp_cons.1 h).resolve_left hne)))

/-- Pairs with another old register leave an operation where it is. -/
theorem HasOp.reassignRegOp {L : List RegisterOperation} {r : Nat} (h : HasOp L r)
    (hra : a ≠ r) : HasOp (reassignRegOp L (a, b)) r := by
  rw [reassignRegOp_eq]
  split
  · exact h
  · split
    · exact h.renameFirst hra
    · exact hasOp_append.2 (Or.inl h)

/-- A pair leaves an operation on its new register. -/
theorem hasOp_reassignRegOp_self (L : List RegisterOperation) (hab : a ≠ b) :
    HasOp (Determinization.reassignRegOp L (a, b)) b := by
  rw [reassignRegOp_eq, if_neg hab]
  split
  · rename_i hop
    exact hasOp_renameFirst_self hop
  · exact hasOp_append.2 (Or.inr ⟨_, List.mem_singleton_self _, rfl⟩)

/-- The old registers with operations have operations when they are visited. -/
def Ready (order : List (Nat × Nat)) (ops L : List RegisterOperation) : Prop :=
  ∀ e ∈ order, HasOp ops e.1 → HasOp L e.1

theorem Ready.reassignRegOp {L : List RegisterOperation} (h : Ready ((a, b) :: order) ops L)
    (hkeys : (((a, b) :: order).map Prod.fst).Nodup) :
    Ready order ops (Determinization.reassignRegOp L (a, b)) := by
  intro e he hop
  refine (h e (List.mem_cons_of_mem _ he) hop).reassignRegOp ?_
  intro heq
  exact (List.nodup_cons.1 hkeys).1 (List.mem_map.2 ⟨e, he, heq.symm⟩)

/-- One pair adds a copy only if it is counted in `copiedMoves`. -/
theorem copyCount_step_le {L : List RegisterOperation} (h : Ready ((a, b) :: order) ops L) :
    copyCount (reassignRegOp L (a, b)) + (copiedMoves order ops).length ≤
      copyCount L + (copiedMoves ((a, b) :: order) ops).length := by
  rw [copyCount_reassignRegOp]
  unfold copiedMoves
  rw [List.filter_cons]
  by_cases hadds : a ≠ b ∧ ¬ HasOp L a
  · have hcounted : a ≠ b ∧ ¬ HasOp ops a :=
      ⟨hadds.1, fun hop => hadds.2 (h (a, b) List.mem_cons_self hop)⟩
    rw [if_pos hadds, if_pos (decide_eq_true hcounted), List.length_cons]
    omega
  · rw [if_neg hadds]
    split
    · rw [List.length_cons]
      omega
    · omega

theorem copyCount_reassign_le {L : List RegisterOperation} (h : Ready order ops L)
    (hkeys : (order.map Prod.fst).Nodup) :
    copyCount (reassignTransitionRegOps order L) ≤
      copyCount L + (copiedMoves order ops).length := by
  induction order generalizing L with
  | nil => exact Nat.le_add_right _ _
  | cons e order ih =>
    obtain ⟨a, b⟩ := e
    have hrest := ih (h.reassignRegOp hkeys) (List.nodup_cons.1 hkeys).2
    have hstep := copyCount_step_le h
    show copyCount (reassignTransitionRegOps order (reassignRegOp L (a, b))) ≤ _
    omega

/-- A copy is missing when its pair finds an operation. -/
theorem copyCount_reassign_lt_of_hasOp {L : List RegisterOperation} (h : Ready order ops L)
    (hkeys : (order.map Prod.fst).Nodup) (hab : (a, b) ∈ copiedMoves order ops)
    (hop : HasOp L a) :
    copyCount (reassignTransitionRegOps order L) <
      copyCount L + (copiedMoves order ops).length := by
  induction order generalizing L with
  | nil => cases hab
  | cons e order ih =>
    obtain ⟨a', b'⟩ := e
    obtain ⟨hmem, hne, hnot⟩ := mem_copiedMoves.1 hab
    have hready := h.reassignRegOp hkeys
    have hkeys' := List.nodup_cons.1 hkeys
    show copyCount (reassignTransitionRegOps order (reassignRegOp L (a', b'))) < _
    rcases List.mem_cons.1 hmem with heq | hmem
    · obtain ⟨rfl, rfl⟩ := Prod.mk.inj heq
      have hrest := copyCount_reassign_le hready hkeys'.2
      have hstep := copyCount_reassignRegOp L a b
      rw [if_neg fun hadds => hadds.2 hop] at hstep
      have hcounted : copiedMoves ((a, b) :: order) ops = (a, b) :: copiedMoves order ops := by
        unfold copiedMoves
        rw [List.filter_cons_of_pos]
        exact decide_eq_true ⟨hne, hnot⟩
      rw [hcounted, List.length_cons]
      omega
    · have hother : a' ≠ a := by
        rintro rfl
        exact hkeys'.1 (List.mem_map.2 ⟨(a', b), hmem, rfl⟩)
      have hrest := ih hready hkeys'.2 (mem_copiedMoves.2 ⟨hmem, hne, hnot⟩)
        (hop.reassignRegOp hother)
      have hstep := copyCount_step_le h
      omega

/-- A copy is missing when a pair is visited before the pair whose old register
it takes. -/
theorem copyCount_reassign_lt {L : List RegisterOperation} (h : Ready order ops L)
    (hkeys : (order.map Prod.fst).Nodup) {z : Nat} (hza : z ≠ a) (hab : a ≠ b)
    (hop : ¬ HasOp ops a) (hsub : [(z, a), (a, b)].Sublist order) :
    copyCount (reassignTransitionRegOps order L) <
      copyCount L + (copiedMoves order ops).length := by
  induction order generalizing L with
  | nil => cases hsub
  | cons e order ih =>
    obtain ⟨a', b'⟩ := e
    have hready := h.reassignRegOp hkeys
    have hkeys' := (List.nodup_cons.1 hkeys).2
    have hstep := copyCount_step_le h
    show copyCount (reassignTransitionRegOps order (reassignRegOp L (a', b'))) < _
    cases hsub with
    | cons _ hsub =>
      have hrest := ih hready hkeys' hsub
      omega
    | cons_cons _ hsub =>
      have hmem : (a, b) ∈ order := List.singleton_sublist.1 hsub
      have hrest := copyCount_reassign_lt_of_hasOp hready hkeys'
        (mem_copiedMoves.2 ⟨hmem, hab, hop⟩) (hasOp_reassignRegOp_self L hza)
      omega

/-- A position that is not the current one comes from a copy. -/
theorem exists_copy_of_run {L : List RegisterOperation} {n : Nat} (hb : store b = some (b + 1))
    (hnb : n ≠ b) (hrun : runRegOps L 0 store b = some (n + 1)) :
    ∃ op ∈ L, op.type = .copy ∧ op.regId = b := by
  by_contra hnone
  have hcopy : ∀ source, Instruction.copy b source ∉ L.map (·.toInstruction 0) := by
    intro source hmem
    obtain ⟨op, hop, heq⟩ := List.mem_map.1 hmem
    refine hnone ⟨op, hop, ?_⟩
    unfold toInstruction at heq
    cases htype : op.type with
    | set =>
      rw [htype] at heq
      cases heq
    | negate =>
      rw [htype] at heq
      cases heq
    | copy =>
      rw [htype] at heq
      obtain ⟨hreg, -⟩ := Instruction.copy.inj heq
      exact ⟨rfl, hreg⟩
  unfold runRegOps at hrun
  rw [Instruction.run_eq_getD hcopy] at hrun
  cases hlast : (Instruction.writesTo b (L.map (·.toInstruction 0))).getLast? with
  | none =>
    rw [hlast, Option.getD_none, hb] at hrun
    have heq := Option.some.inj hrun
    omega
  | some value =>
    rw [hlast, Option.getD_some] at hrun
    obtain ⟨i, hi, hvalue⟩ := List.mem_filterMap.1 (List.mem_of_getLast? hlast)
    obtain ⟨op, -, rfl⟩ := List.mem_map.1 hi
    unfold toInstruction at hvalue
    cases htype : op.type with
    | set =>
      simp only [htype] at hvalue
      split_ifs at hvalue
      rw [← Option.some.inj hvalue, toPosition_of_lt (by omega)] at hrun
      have heq := Option.some.inj hrun
      omega
    | negate =>
      simp only [htype] at hvalue
      split_ifs at hvalue
      rw [← Option.some.inj hvalue] at hrun
      have heq := Option.some.inj hrun
      omega
    | copy =>
      simp only [htype] at hvalue
      cases hvalue

/-- The registers of the mapping hold different positions, none of which is the
current one. -/
def Distinct (order : List (Nat × Nat)) (store : Nat → Option Int) : Prop :=
  ∀ a b, (a, b) ∈ order → store a = some (a + 1) ∧ store b = some (b + 1)

section necessary

variable (h : Renaming order ops) (hstore : Distinct order store)
  (hrun : ∀ a b, (a, b) ∈ order →
    runRegOps (reassignTransitionRegOps order ops) 0 store b = runRegOps ops 0 store a)

include h hstore hrun

/-- Every copied register needs a copy of its own. -/
theorem length_copiedMoves_le :
    (copiedMoves order ops).length ≤ copyCount (reassignTransitionRegOps order ops) := by
  have hsub : (copiedMoves order ops).Sublist order := List.filter_sublist
  have hsubset : (copiedMoves order ops).map Prod.snd ⊆
      ((reassignTransitionRegOps order ops).filter (·.type = .copy)).map (·.regId) := by
    intro b hb
    obtain ⟨⟨a, b'⟩, he, rfl⟩ := List.mem_map.1 hb
    obtain ⟨hab, hne, hnot⟩ := mem_copiedMoves.1 he
    have hold : runRegOps ops 0 store a = some (a + 1) := by
      rw [runRegOps_eq_getD h.type_ne_copy, filter_eq_nil_of_not_hasOp hnot]
      exact (hstore a b' hab).1
    obtain ⟨op, hop, htype, hreg⟩ := exists_copy_of_run (hstore a b' hab).2 hne
      ((hrun a b' hab).trans hold)
    exact List.mem_map.2 ⟨op, List.mem_filter.2 ⟨hop, decide_eq_true htype⟩, hreg⟩
  have hlength := (List.subperm_of_subset ((hsub.map Prod.snd).nodup h.values) hsubset).length_le
  rw [List.length_map, List.length_map] at hlength
  unfold copyCount
  rw [List.countP_eq_length_filter]
  exact hlength

theorem copiedFirst_of_runRegOps_eq : ∀ a b c, a ≠ b → b ≠ c → ¬ HasOp ops b →
    ¬ [(a, b), (b, c)].Sublist order := by
  intro z a b hza hab hop hsub
  have hlt := copyCount_reassign_lt (L := ops) (fun _ _ hop => hop) h.keys hza hab hop hsub
  have hle := length_copiedMoves_le h hstore hrun
  have hzero : copyCount ops = 0 := by
    unfold copyCount
    rw [List.countP_eq_zero]
    intro op hmem
    simpa using h.type_ne_copy op hmem
  omega

theorem notMoved_of_runRegOps_eq : ∀ a b c, (a, b) ∈ order → (b, c) ∈ order → a ≠ b → b ≠ c →
    ¬ HasOp ops a := by
  intro a b c hab hbc hne hne' hop
  have hcopied := copiedFirst_of_runRegOps_eq h hstore hrun
  have hnot := h.separate a b hab hne hop
  have hmem : (b, c) ∈ copiedMoves order ops := mem_copiedMoves.2 ⟨hbc, hne', hnot⟩
  have hvalue := hrun b c hbc
  rw [runRegOps_reassign h hcopied, run_copies_of_not_hasOp h hcopied hmem,
    runRegOps_eq_getD h.type_ne_copy, filter_eq_nil_of_not_hasOp hnot] at hvalue
  have hvalue := hvalue.trans (hstore a b hab).2
  cases hhead : (ops.filter (·.regId = a)).head? with
  | none => exact hasOp_iff_filter_ne_nil.1 hop (List.head?_eq_none_iff.1 hhead)
  | some op =>
    have hposition : runRegOps (renameAll (renamedMoves order ops) ops) 0 store b =
        op.writtenPosition 0 := runRegOps_renameAll_self h hab hne hhead
    obtain ⟨r, type, rfl⟩ := h.plain op (List.mem_filter.1 (List.mem_of_head? hhead)).1
    rw [writtenPosition_regOpOf] at hposition
    have heq := Option.some.inj (hposition.symm.trans hvalue)
    cases type with
    | set =>
      change toPosition 0 = (b : Int) + 1 at heq
      rw [toPosition_of_lt (by omega)] at heq
      omega
    | negate =>
      change (-1 : Int) = (b : Int) + 1 at heq
      omega

theorem single_of_runRegOps_eq : ∀ a b, (a, b) ∈ order → a ≠ b →
    ¬ (createSetOperation a ∈ ops ∧ createNegateOperation a ∈ ops) := by
  rintro a b hab hne ⟨hset, hnegate⟩
  have hcopied := copiedFirst_of_runRegOps_eq h hstore hrun
  have hop : HasOp ops a := ⟨_, hset, rfl⟩
  have hvalue := hrun a b hab
  rw [runRegOps_reassign h hcopied, run_copies_of_hasOp h hab (Or.inr hop),
    runRegOps_eq_getD h.type_ne_copy] at hvalue
  have hset : createSetOperation a ∈ ops.filter (·.regId = a) :=
    List.mem_filter.2 ⟨hset, decide_eq_true rfl⟩
  have hnegate : createNegateOperation a ∈ ops.filter (·.regId = a) :=
    List.mem_filter.2 ⟨hnegate, decide_eq_true rfl⟩
  have hnodup : (ops.filter (·.regId = a)).Nodup := h.nodup.filter _
  have hplain : ∀ op ∈ ops.filter (·.regId = a), ∃ type, op = regOpOf a type := by
    intro op hmem
    obtain ⟨hmem, hreg⟩ := List.mem_filter.1 hmem
    obtain ⟨r, type, rfl⟩ := h.plain op hmem
    obtain rfl : r = a := by simpa using hreg
    exact ⟨type, rfl⟩
  cases hhead : (ops.filter (·.regId = a)).head? with
  | none => exact hasOp_iff_filter_ne_nil.1 hop (List.head?_eq_none_iff.1 hhead)
  | some first =>
    cases hlast : (ops.filter (·.regId = a)).getLast? with
    | none => exact hasOp_iff_filter_ne_nil.1 hop (List.getLast?_eq_none_iff.1 hlast)
    | some last =>
      rw [runRegOps_renameAll_self h hab hne hhead, hlast] at hvalue
      obtain ⟨type, rfl⟩ := hplain first (List.mem_of_head? hhead)
      obtain ⟨type', rfl⟩ := hplain last (List.mem_of_getLast? hlast)
      rw [Option.map_some, Option.getD_some, writtenPosition_regOpOf, writtenPosition_regOpOf]
        at hvalue
      have htype := tagPosition_zero_injective (Option.some.inj hvalue)
      subst htype
      -- the first operation is the last one, so there is only one
      have hone : ops.filter (·.regId = a) = [regOpOf a type] :=
        eq_singleton_of_head?_eq_getLast? hnodup hhead hlast
      rw [hone, List.mem_singleton] at hset hnegate
      have heq := hset.trans hnegate.symm
      cases heq

end necessary

/-! ## Register handlers -/

/-- Some handler holds a different position in every register. -/
theorem exists_distinct_handler (n : Nat) : ∃ handler : RegisterHandler, handler.Pointed ∧
    handler.getNumRegs = n ∧ ∀ r < n, handler.mostRecentPosition r = some (r + 1) := by
  let nodes : List PrefixTreeNode :=
    ⟨none, -1⟩ :: (List.range n).map fun (r : Nat) => ⟨some PrefixTree.cRootId, r + 1⟩
  have hnode : ∀ r < n, nodes[r + 1]? = some ⟨some PrefixTree.cRootId, r + 1⟩ := by
    intro r hr
    simp [nodes, hr]
  have hparent : ∀ (i : Nat) (node : PrefixTreeNode) (p : Nat), nodes[i]? = some node →
      node.parentId = some p → p < i := by
    intro i node p hi hp
    cases i with
    | zero =>
      obtain rfl := Option.some.inj hi
      cases hp
    | succ i =>
      have hlt : i < n := by
        by_contra hge
        have hnone : nodes[i + 1]? = none := by
          simp [nodes]
          omega
        rw [hnone] at hi
        cases hi
      rw [hnode i hlt] at hi
      obtain rfl := Option.some.inj hi
      obtain rfl := Option.some.inj hp
      exact Nat.succ_pos i
  refine ⟨⟨⟨nodes, hparent⟩, (List.range n).map (· + 1)⟩, ?_, ?_, ?_⟩
  · intro node hmem
    obtain ⟨r, hr, rfl⟩ := List.mem_map.1 hmem
    have hr := List.mem_range.1 hr
    simp [nodes]
    omega
  · simp [RegisterHandler.getNumRegs]
  · intro r hr
    have hreg : ((List.range n).map (· + 1))[r]? = some (r + 1) := by
      simp [hr]
    have hlength : r + 1 < nodes.length := by
      simp [nodes]
      omega
    unfold RegisterHandler.mostRecentPosition RegisterHandler.getReversedPositions
      PrefixTree.getReversedPositions
    simp only [hreg, Option.bind_eq_bind, Option.bind_some, if_pos hlength]
    unfold PrefixTree.reversedPositionsFrom
    rw [hnode r hr]
    rfl

/-- Running the operations on registers is running them on the store. -/
theorem renamesSimultaneously_iff {n : Nat} (hops : OpsBelow n ops)
    (horder : ∀ e ∈ order, e.1 < n ∧ e.2 < n) :
    RenamesSimultaneously n order ops ↔
      ∀ handler : RegisterHandler, handler.Pointed → n ≤ handler.getNumRegs → ∀ currPos,
        ∀ a b, (a, b) ∈ order →
          runRegOps (reassignTransitionRegOps order ops) currPos handler.mostRecentPosition b =
            runRegOps ops currPos handler.mostRecentPosition a := by
  have hrenamed : OpsBelow n (reassignTransitionRegOps order ops) := opsBelow_reassign hops horder
  constructor
  · intro h handler hpointed hnum currPos a b hab
    obtain ⟨limit, hlimit, hpos, hwithin⟩ := hpointed.exists_within (toPosition currPos)
    obtain ⟨original, renamed, horiginal, hrenamedRun, hsame⟩ := h handler hpointed hnum currPos
    have hsame := hsame a b hab
    rw [mostRecentPosition_processRegOps hwithin (hops.mono hnum) hlimit hpos horiginal,
      mostRecentPosition_processRegOps hwithin (hrenamed.mono hnum) hlimit hpos hrenamedRun]
      at hsame
    exact hsame
  · intro h handler hpointed hnum currPos
    obtain ⟨limit, hlimit, hpos, hwithin⟩ := hpointed.exists_within (toPosition currPos)
    obtain ⟨original, horiginal, -⟩ :=
      exists_processRegOps hwithin (hops.mono hnum) hpos hlimit
    obtain ⟨renamed, hrenamedRun, -⟩ :=
      exists_processRegOps hwithin (hrenamed.mono hnum) hpos hlimit
    refine ⟨original, renamed, horiginal, hrenamedRun, fun a b hab => ?_⟩
    rw [mostRecentPosition_processRegOps hwithin (hops.mono hnum) hlimit hpos horiginal,
      mostRecentPosition_processRegOps hwithin (hrenamed.mono hnum) hlimit hpos hrenamedRun]
    exact h handler hpointed hnum currPos a b hab

theorem Renaming.renamesSimultaneously_iff {n : Nat} (h : Renaming order ops)
    (hops : OpsBelow n ops) (horder : ∀ e ∈ order, e.1 < n ∧ e.2 < n) :
    RenamesSimultaneously n order ops ↔ Orderly order ops := by
  rw [Dfa.renamesSimultaneously_iff hops horder]
  constructor
  · intro hrun
    obtain ⟨handler, hpointed, hnum, hpositions⟩ := exists_distinct_handler n
    have hstore : Distinct order handler.mostRecentPosition := by
      intro a b hab
      obtain ⟨ha, hb⟩ := horder (a, b) hab
      exact ⟨hpositions a ha, hpositions b hb⟩
    have hrun := hrun handler hpointed hnum.ge 0
    exact ⟨single_of_runRegOps_eq h hstore hrun, notMoved_of_runRegOps_eq h hstore hrun,
      copiedFirst_of_runRegOps_eq h hstore hrun⟩
  · intro horderly handler _ _ currPos a b hab
    exact horderly.runRegOps_eq h hab currPos _

/-! ## Mappings of reached sets -/

/-- A mapping is one to one. -/
theorem tryGetMapping_nodup {lhs rhs : ConfigurationSet} {regMap : List (Nat × Nat)}
    (h : tryGetMapping lhs rhs = some regMap) :
    (regMap.map Prod.fst).Nodup ∧ (regMap.map Prod.snd).Nodup := by
  have hfresh : ∀ {l x : Nat} {list : List (Nat × Nat)}, list.lookup l = none →
      x ∈ list.map Prod.fst → x ≠ l := by
    rintro l x list hnone hmem rfl
    obtain ⟨e, he, rfl⟩ := List.mem_map.1 hmem
    have hne := List.lookup_eq_none_iff.1 hnone e he
    simp at hne
  have hstep : ∀ (maps maps' : RegMaps) (l r : Nat), SameTag lhs rhs l r →
      maps.match l r = some maps' →
      ((maps.lhsToRhs.map Prod.fst).Nodup ∧ (maps.rhsToLhs.map Prod.fst).Nodup ∧
        maps.rhsToLhs.map Prod.fst = maps.lhsToRhs.map Prod.snd) →
      (maps'.lhsToRhs.map Prod.fst).Nodup ∧ (maps'.rhsToLhs.map Prod.fst).Nodup ∧
        maps'.rhsToLhs.map Prod.fst = maps'.lhsToRhs.map Prod.snd := by
    intro maps maps' l r _ hmatch hmaps
    rcases RegMaps.match_cases hmatch with rfl | ⟨hl, hr, rfl⟩
    · exact hmaps
    · obtain ⟨hkeys, hvalues, hsame⟩ := hmaps
      refine ⟨?_, ?_, ?_⟩
      · rw [List.map_append]
        exact hkeys.append (List.nodup_singleton l) fun x hx hx' =>
          hfresh hl hx (List.mem_singleton.1 hx')
      · rw [List.map_append]
        exact hvalues.append (List.nodup_singleton r) fun x hx hx' =>
          hfresh hr hx (List.mem_singleton.1 hx')
      · rw [List.map_append, List.map_append, hsame]
        rfl
  obtain ⟨maps, rfl, hkeys, hvalues, hsame⟩ := tryGetMapping_induction
    ⟨List.nodup_nil, List.nodup_nil, rfl⟩ hstep h
  exact ⟨hkeys, hsame ▸ hvalues⟩

variable {nfa : Nfa} {regMapOrder : List (Nat × Nat) → List (Nat × Nat)} {fuel : Nat}
  {g : Determinization} {S : ConfigurationSet} {regHandler : RegisterHandler}
  {transitions : AsciiTransitionsMap}

/-- A mapping of the set behind a byte, and the operations of the byte. -/
theorem Explores.renaming (h : Explores nfa regMapOrder fuel g S regHandler transitions)
    {entries : List (Nat × List RegisterOperation × ConfigurationSet)}
    (hentries : ∀ e ∈ entries, e ∈ transitions.toList) {byte source state : Nat}
    {D E : ConfigurationSet} (hbyte : transitions.find? byte = some (ops, D))
    (hE : (afterTransitions nfa regMapOrder g source regHandler entries).dfaStates.find? E =
      some state)
    {regMap : List (Nat × Nat)} (hmap : tryGetMapping D E = some regMap)
    (horder : order.Perm regMap) :
    Renaming order ops ∧ OpsBelow regHandler.getNumRegs ops ∧
      ∀ e ∈ order, e.1 < regHandler.getNumRegs ∧ e.2 < regHandler.getNumRegs := by
  obtain ⟨owner, m, hm, howner, howned, hbytes⟩ := h.exists_owner
  obtain ⟨S₀, hinv⟩ := h.reached.loopInvariant
  have hbelow : ∀ byte ops D, transitions.find? byte = some (ops, D) →
      RegsBelow regHandler.getNumRegs D := fun byte ops D hfind =>
    regsBelow_of_getTransitions h.regsBelow.2 h.transitions hfind
  have hE : Owned nfa.numTags owner E ∧ RegsBelow regHandler.getNumRegs E := by
    refine @forall_sets_foldl_addTransition nfa regMapOrder _
      (fun R => Owned nfa.numTags owner R ∧ RegsBelow regHandler.getNumRegs R)
      source _ ?_ ?_ E state hE
    · intro R j hR
      refine ⟨howned R j hR, fun c hc t r hr => ?_⟩
      exact (hinv.registers R j hR c hc t r hr).trans_le hm.fresh.le
    · rintro ⟨byte', ops', D'⟩ he
      have hfind := OrderedMap.mem_toList_iff.1 (hentries _ he)
      exact ⟨hbytes byte' ops' D' hfind, hbelow byte' ops' D' hfind⟩
  obtain ⟨hkeys, hvalues⟩ := tryGetMapping_nodup hmap
  have hregs : ∀ e ∈ order, SameTag D E e.1 e.2 :=
    fun e he => tryGetMapping_regs hmap e (horder.mem_iff.1 he)
  have hD := hbytes byte ops D hbyte
  obtain rfl := hm.regOps byte ops D hbyte
  have hplain := byteRegOps_spec hm.fresh nfa.numTags (transitionSteps nfa S) byte
  refine ⟨⟨?_, ?_, ?_, nodup_eraseDups _, ?_⟩, opsBelow_of_plain hplain le_rfl, ?_⟩
  · exact (horder.map Prod.fst).nodup_iff.2 hkeys
  · exact (horder.map Prod.snd).nodup_iff.2 hvalues
  · intro op hop
    obtain ⟨t, r, type, -, rfl⟩ := mem_byteRegOps hop
    exact ⟨r, type, rfl⟩
  · -- both registers belong to one tag, which has one register with operations
    rintro a b hab hne ⟨op, hop, rfl⟩ ⟨op', hop', rfl⟩
    obtain ⟨t, ⟨c, hc, hr⟩, c', hc', hr'⟩ := hregs _ hab
    obtain ⟨u, r, type, hu, rfl⟩ := mem_byteRegOps hop
    obtain ⟨u', r', type', hu', rfl⟩ := mem_byteRegOps hop'
    have hr : c.tagIdToRegIds.find? t = some r := by simpa using hr
    have hr' : c'.tagIdToRegIds.find? t = some r' := by simpa using hr'
    have hne : r ≠ r' := by simpa using hne
    have htag : u = t := (howner u r hu).symm.trans (hD.owner_eq c hc t r hr)
    have htag' : u' = t := (howner u' r' hu').symm.trans (hE.1.owner_eq c' hc' t r' hr')
    subst htag
    subst htag'
    exact hne (Option.some.inj (hu.symm.trans hu'))
  · intro e he
    obtain ⟨t, ⟨c, hc, hr⟩, c', hc', hr'⟩ := hregs e he
    exact ⟨hbelow byte _ D hbyte c hc t e.1 hr, hE.2 c' hc' t e.2 hr'⟩

/-- The rewritten operations act like a renaming at once exactly when the order
in which the mapping is visited suits them. -/
theorem renamesSimultaneously_iff_orderly {nfa : Nfa}
    {regMapOrder : List (Nat × Nat) → List (Nat × Nat)} {fuel : Nat} {g : Determinization}
    {S : ConfigurationSet} {regHandler : RegisterHandler} {transitions : AsciiTransitionsMap}
    (h : Explores nfa regMapOrder fuel g S regHandler transitions)
    {before after : List (Nat × List RegisterOperation × ConfigurationSet)} {byte : Nat}
    {ops : List RegisterOperation} {D : ConfigurationSet}
    (htransitions : transitions.toList = before ++ (byte, ops, D) :: after)
    {source state : Nat} {E : ConfigurationSet}
    (hE : (afterTransitions nfa regMapOrder g source regHandler before).dfaStates.find? E =
      some state)
    {regMap order : List (Nat × Nat)} (hmap : tryGetMapping D E = some regMap)
    (horder : order.Perm regMap) :
    RenamesSimultaneously regHandler.getNumRegs order ops ↔ Orderly order ops := by
  have hentries : ∀ e ∈ before, e ∈ transitions.toList := by
    intro e he
    rw [htransitions]
    exact List.mem_append_left _ he
  have hbyte : transitions.find? byte = some (ops, D) := by
    apply OrderedMap.mem_toList_iff.1
    rw [htransitions]
    exact List.mem_append_right _ List.mem_cons_self
  obtain ⟨hrenaming, hops, hregs⟩ := h.renaming hentries hbyte hE hmap horder
  exact hrenaming.renamesSimultaneously_iff hops hregs

/-! ### A capture that is set again -/

/-- The rule `a*(?<x>a)a`. -/
def repeatedRule : List LexicalRule :=
  [⟨0, .mkCat (.mkMultiplication (.mkLiteral 97) 0 0)
    (.mkCat (.mkCapture (.mkLiteral 97) ⟨0, "x"⟩) (.mkLiteral 97))⟩]

/-- Whether the set has one transition, which leads to a set that is mapped to the
set itself, with the operations and the mapping satisfying `P`. -/
def checkMapped (S : ConfigurationSet) (transitions : AsciiTransitionsMap)
    (P : List RegisterOperation → List (Nat × Nat) → Bool) : Bool :=
  match transitions.toList with
  | [(_, ops, D)] =>
    match tryGetMapping D S with
    | some regMap => P ops regMap
    | none => false
  | _ => false

theorem of_checkMapped {P : List RegisterOperation → List (Nat × Nat) → Bool}
    (h : checkMapped S transitions P) :
    ∃ byte ops D regMap, transitions.toList = [(byte, ops, D)] ∧
      tryGetMapping D S = some regMap ∧ P ops regMap := by
  unfold checkMapped at h
  split at h
  · rename_i byte ops D htransitions
    split at h
    · rename_i regMap hmap
      exact ⟨byte, ops, D, regMap, htransitions, hmap, h⟩
    · cases h
  · cases h

/-- Behind `aa`, every further `a` leads to a set that is mapped to the set before
it. -/
theorem renamesSimultaneously_iff_orderly_repeated :
    ∃ g S regHandler transitions byte ops D state regMap,
      Explores (Nfa.ofRules repeatedRule) id 32 g S regHandler transitions ∧
      transitions.toList = [(byte, ops, D)] ∧ g.dfaStates.find? S = some state ∧
      tryGetMapping D S = some regMap ∧
      (RenamesSimultaneously regHandler.getNumRegs regMap ops ↔ Orderly regMap ops) := by
  have hcheck : checkExplored (Nfa.ofRules repeatedRule) 32 2
      fun _ S _ transitions => checkMapped S transitions fun _ _ => true := by decide +kernel
  obtain ⟨g, S, regHandler, transitions, hexplores, hcheck⟩ := exists_explores_of_check hcheck
  obtain ⟨byte, ops, D, regMap, htransitions, hmap, -⟩ := of_checkMapped hcheck
  obtain ⟨⟨state, hstate⟩, -⟩ := hexplores.regsBelow
  refine ⟨g, S, regHandler, transitions, byte, ops, D, state, regMap, hexplores, htransitions,
    hstate, hmap, ?_⟩
  have hafter : (afterTransitions (Nfa.ofRules repeatedRule) id g state regHandler
      []).dfaStates.find? S = some state := hstate
  have hsplit : transitions.toList = [] ++ (byte, ops, D) :: [] := htransitions
  exact renamesSimultaneously_iff_orderly hexplores hsplit hafter hmap (List.Perm.refl regMap)

/-- The register that is set moves to one that moves itself, so the operations go
wrong in every order of the mapping. -/
theorem not_renamesSimultaneously_repeated :
    ∃ g S regHandler transitions byte ops D state regMap,
      Explores (Nfa.ofRules repeatedRule) id 32 g S regHandler transitions ∧
      transitions.toList = [(byte, ops, D)] ∧ g.dfaStates.find? S = some state ∧
      tryGetMapping D S = some regMap ∧
      ∀ order : List (Nat × Nat), order.Perm regMap →
        ¬ RenamesSimultaneously regHandler.getNumRegs order ops := by
  have hcheck : checkExplored (Nfa.ofRules repeatedRule) 32 2
      fun _ S _ transitions => checkMapped S transitions fun ops regMap =>
        decide (∃ e ∈ regMap, ∃ e' ∈ regMap, e.1 ≠ e.2 ∧ e.2 = e'.1 ∧ e'.1 ≠ e'.2 ∧
          HasOp ops e.1) := by decide +kernel
  obtain ⟨g, S, regHandler, transitions, hexplores, hcheck⟩ := exists_explores_of_check hcheck
  obtain ⟨byte, ops, D, regMap, htransitions, hmap, hmoved⟩ := of_checkMapped hcheck
  obtain ⟨⟨state, hstate⟩, -⟩ := hexplores.regsBelow
  obtain ⟨⟨a, b⟩, hab, ⟨b', c⟩, hbc, hne, rfl, hne', hop⟩ := of_decide_eq_true hmoved
  refine ⟨g, S, regHandler, transitions, byte, ops, D, state, regMap, hexplores, htransitions,
    hstate, hmap, fun order horder hrenames => ?_⟩
  have hafter : (afterTransitions (Nfa.ofRules repeatedRule) id g state regHandler
      []).dfaStates.find? S = some state := hstate
  have hbyte : transitions.find? byte = some (ops, D) := by
    apply OrderedMap.mem_toList_iff.1
    rw [htransitions]
    exact List.mem_singleton_self _
  obtain ⟨hrenaming, hops, hregs⟩ := hexplores.renaming
    (fun e he => absurd he List.not_mem_nil) hbyte hafter hmap horder
  have horderly := (hrenaming.renamesSimultaneously_iff hops hregs).1 hrenames
  exact horderly.notMoved a b c (horder.mem_iff.2 hab) (horder.mem_iff.2 hbc) hne hne' hop

end LogSurgeon.Dfa
