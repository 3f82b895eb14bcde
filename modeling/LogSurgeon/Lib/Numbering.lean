import LogSurgeon.Lib.StackClosure
import Mathlib.Data.Finset.Powerset

/-!
# Numbering the nodes of a labelled graph

The nodes are found from a start node and get numbers in the order in which
they are found.  A node that leaves the stack is expanded: for every label the
edge to its successor is noted, and a new successor is numbered and pushed.
Expanding a node may fail.

`Invariant` holds of what was found so far, and with an empty stack it says that
the numbered nodes and edges are the part of the graph that can be reached.
`number_cases`: in a finite graph the loop ends.
-/

namespace LogSurgeon.Lib

/-- The nodes by their numbers, the edges between the numbers, and the stack
with its top first. -/
structure Numbering (κ ℓ : Type*) where
  nodes : List κ
  edges : Nat → ℓ → Option Nat
  unused : List (Nat × κ)

namespace Numbering

variable {κ ℓ ε : Type*}

def setEdge [DecidableEq ℓ] (i : Nat) (a : ℓ) (j : Nat) (s : Numbering κ ℓ) : Numbering κ ℓ :=
  { s with edges := fun i' a' => if i' = i ∧ a' = a then some j else s.edges i' a' }

/-- The edge of the node `i` for a label. -/
def visit [DecidableEq κ] [DecidableEq ℓ] (successor : ℓ → Option κ) (i : Nat)
    (s : Numbering κ ℓ) (a : ℓ) : Numbering κ ℓ :=
  match successor a with
  | none => s
  | some k =>
    match s.nodes.idxOf? k with
    | some j => s.setEdge i a j
    | none =>
      { s.setEdge i a s.nodes.length with
        nodes := s.nodes ++ [k]
        unused := (s.nodes.length, k) :: s.unused }

def loop [DecidableEq κ] [DecidableEq ℓ] (expand : κ → Except ε (ℓ → Option κ)) (labels : List ℓ)
    (outOfFuel : ε) : Nat → Numbering κ ℓ → Except ε (Numbering κ ℓ)
  | fuel, s =>
    match s.unused, fuel with
    | [], _ => .ok s
    | _ :: _, 0 => .error outOfFuel
    | (i, k) :: unused, fuel + 1 =>
      match expand k with
      | .error e => .error e
      | .ok successor =>
        loop expand labels outOfFuel fuel
          (labels.foldl (visit successor i) { s with unused := unused })

def start (k : κ) : Numbering κ ℓ where
  nodes := [k]
  edges := fun _ _ => none
  unused := [(0, k)]

def number [DecidableEq κ] [DecidableEq ℓ] (expand : κ → Except ε (ℓ → Option κ))
    (labels : List ℓ) (outOfFuel : ε) (fuel : Nat) (k : κ) : Except ε (Numbering κ ℓ) :=
  loop expand labels outOfFuel fuel (start k)

variable {expand : κ → Except ε (ℓ → Option κ)} {labels : List ℓ} {outOfFuel : ε} {fuel : Nat}
  {root k k' : κ} {i j : Nat} {a : ℓ} {s s' : Numbering κ ℓ} {successor : ℓ → Option κ}
  {busy : List Nat}

/-! ## What was found so far -/

/-- The node `i` has an edge for the label if it has a successor. -/
def HasEdge (s : Numbering κ ℓ) (i : Nat) (successor : ℓ → Option κ) (a : ℓ) : Prop :=
  ∀ k', successor a = some k' → ∃ j, s.edges i a = some j ∧ s.nodes[j]? = some k'

/-- The nodes that are neither on the stack nor busy have all their edges. -/
structure Invariant (expand : κ → Except ε (ℓ → Option κ)) (labels : List ℓ) (root : κ)
    (busy : List Nat) (s : Numbering κ ℓ) : Prop where
  nodup : s.nodes.Nodup
  root : s.nodes[0]? = some root
  unused : ∀ e ∈ s.unused, s.nodes[e.1]? = some e.2
  edge : ∀ i a j, s.edges i a = some j → ∃ k successor k', s.nodes[i]? = some k ∧
    expand k = .ok successor ∧ a ∈ labels ∧ successor a = some k' ∧ s.nodes[j]? = some k'
  found : ∀ j, 0 < j → j < s.nodes.length → ∃ i a, i < j ∧ s.edges i a = some j
  expanded : ∀ i k, s.nodes[i]? = some k → (∀ e ∈ s.unused, e.1 ≠ i) → i ∉ busy →
    ∃ successor, expand k = .ok successor ∧ ∀ a ∈ labels, s.HasEdge i successor a

theorem getElem?_inj (hnodup : s.nodes.Nodup) (h : s.nodes[i]? = some k)
    (h' : s.nodes[j]? = some k) : i = j := by
  obtain ⟨hi, -⟩ := List.getElem?_eq_some_iff.1 h
  exact (List.getElem?_inj hi hnodup).1 (h.trans h'.symm)

theorem invariant_start : Invariant expand labels root [] (start root) := by
  refine ⟨List.nodup_singleton root, rfl, fun e he => ?_, fun i a j h => ?_, fun j hj hlt => ?_,
    fun i k hk hunused => ?_⟩
  · rw [List.mem_singleton.1 he]
    rfl
  · cases h
  · have hlt : j < 1 := hlt
    omega
  · obtain ⟨hi, -⟩ := List.getElem?_eq_some_iff.1 hk
    have hi : i < 1 := hi
    have hzero : i = 0 := by omega
    exact absurd hzero.symm (hunused (0, root) List.mem_cons_self)

/-- Everything that holds of the root and of the successors holds of the
nodes. -/
theorem Invariant.forall_nodes (h : Invariant expand labels root busy s) {P : κ → Prop}
    (hroot : P root)
    (hstep : ∀ k successor a k', P k → expand k = .ok successor → a ∈ labels →
      successor a = some k' → P k') : ∀ (i : Nat) (k : κ), s.nodes[i]? = some k → P k := by
  intro i
  induction i using Nat.strong_induction_on with
  | _ i ih =>
    intro k hk
    by_cases hi : i = 0
    · subst hi
      rw [h.root] at hk
      cases hk
      exact hroot
    · obtain ⟨hlt, -⟩ := List.getElem?_eq_some_iff.1 hk
      obtain ⟨i', a, hless, hedge⟩ := h.found i (by omega) hlt
      obtain ⟨k₁, successor, k₂, hk₁, hexpand, ha, hsuccessor, hk₂⟩ := h.edge _ _ _ hedge
      rw [hk] at hk₂
      cases hk₂
      exact hstep k₁ successor a k (ih i' hless k₁ hk₁) hexpand ha hsuccessor

/-- What is found stays. -/
structure Keeps (s s' : Numbering κ ℓ) : Prop where
  nodes : ∀ (i : Nat) (k : κ), s.nodes[i]? = some k → s'.nodes[i]? = some k
  edges : ∀ i a j, s.edges i a = some j → s'.edges i a = some j
  count : s'.nodes.length + s.unused.length = s.nodes.length + s'.unused.length

theorem Keeps.refl (s : Numbering κ ℓ) : Keeps s s := ⟨fun _ _ => id, fun _ _ _ => id, rfl⟩

theorem Keeps.trans {s'' : Numbering κ ℓ} (h : Keeps s s') (h' : Keeps s' s'') : Keeps s s'' := by
  refine ⟨fun i k hk => h'.nodes i k (h.nodes i k hk),
    fun i a j hj => h'.edges i a j (h.edges i a j hj), ?_⟩
  have hcount := h.count
  have hcount' := h'.count
  omega

theorem Keeps.hasEdge (h : Keeps s s') (hedge : s.HasEdge i successor a) :
    s'.HasEdge i successor a := by
  intro k' hk'
  obtain ⟨j, hj, hnode⟩ := hedge k' hk'
  exact ⟨j, h.edges i a j hj, h.nodes j k' hnode⟩

/-! ## A step -/

/-- The top of the stack becomes busy. -/
theorem Invariant.pop {unused : List (Nat × κ)} (h : Invariant expand labels root [] s)
    (hunused : s.unused = (i, k) :: unused) :
    Invariant expand labels root [i] { s with unused := unused } ∧ s.nodes[i]? = some k := by
  have hmem : ∀ e ∈ unused, e ∈ s.unused := by
    intro e he
    rw [hunused]
    exact List.mem_cons_of_mem _ he
  refine ⟨⟨h.nodup, h.root, fun e he => h.unused e (hmem e he), h.edge, h.found,
    fun i' k' hk' hnot hbusy => ?_⟩, h.unused (i, k) (by rw [hunused]; exact List.mem_cons_self)⟩
  refine h.expanded i' k' hk' (fun e he => ?_) List.not_mem_nil
  rw [hunused] at he
  rcases List.mem_cons.1 he with rfl | he
  · exact fun heq => hbusy (List.mem_singleton.2 heq.symm)
  · exact hnot e he

variable [DecidableEq ℓ]

theorem setEdge_self : (s.setEdge i a j).edges i a = some j := if_pos ⟨rfl, rfl⟩

theorem setEdge_cases {i' j' : Nat} {a' : ℓ} (h : (s.setEdge i a j).edges i' a' = some j') :
    (i' = i ∧ a' = a ∧ j' = j) ∨ s.edges i' a' = some j' := by
  unfold setEdge at h
  dsimp only at h
  split at h
  · rename_i heq
    cases h
    exact Or.inl ⟨heq.1, heq.2, rfl⟩
  · exact Or.inr h

/-- An edge that is noted again leads to the same node. -/
theorem Invariant.edges_setEdge (h : Invariant expand labels root busy s)
    (hk : s.nodes[i]? = some k) (hexpand : expand k = .ok successor)
    (hsuccessor : successor a = some k') (hj : ∀ j', s.nodes[j']? = some k' → j' = j) {i' j' : Nat}
    {a' : ℓ} (hedge : s.edges i' a' = some j') : (s.setEdge i a j).edges i' a' = some j' := by
  unfold setEdge
  dsimp only
  split
  · rename_i heq
    obtain ⟨rfl, rfl⟩ := heq
    obtain ⟨k₁, successor₁, k₂, hk₁, hexpand₁, -, hsuccessor₁, hj'⟩ := h.edge _ _ _ hedge
    rw [hk] at hk₁
    cases hk₁
    rw [hexpand] at hexpand₁
    cases hexpand₁
    rw [hsuccessor] at hsuccessor₁
    cases hsuccessor₁
    rw [hj j' hj']
  · exact hedge

/-- The successor has a number. -/
theorem Invariant.visit_known (h : Invariant expand labels root [i] s)
    (hk : s.nodes[i]? = some k) (hexpand : expand k = .ok successor) (ha : a ∈ labels)
    (hsuccessor : successor a = some k') (hj : s.nodes[j]? = some k') :
    Invariant expand labels root [i] (s.setEdge i a j) ∧ Keeps s (s.setEdge i a j) ∧
      (s.setEdge i a j).HasEdge i successor a := by
  have hkeeps : Keeps s (s.setEdge i a j) :=
    ⟨fun _ _ => id, fun _ _ _ hedge => h.edges_setEdge hk hexpand hsuccessor
      (fun j' hj' => getElem?_inj h.nodup hj' hj) hedge, rfl⟩
  refine ⟨⟨h.nodup, h.root, h.unused, fun i' a' j' hedge => ?_, fun j' hpos hlt => ?_,
    fun i' k₁ hk₁ hunused hbusy => ?_⟩, hkeeps, fun k₁ hk₁ => ?_⟩
  · rcases setEdge_cases hedge with ⟨rfl, rfl, rfl⟩ | hold
    · exact ⟨k, successor, k', hk, hexpand, ha, hsuccessor, hj⟩
    · exact h.edge i' a' j' hold
  · obtain ⟨i', a', hless, hedge⟩ := h.found j' hpos hlt
    exact ⟨i', a', hless, hkeeps.edges _ _ _ hedge⟩
  · obtain ⟨successor₁, hexpand₁, hedges⟩ := h.expanded i' k₁ hk₁ hunused hbusy
    exact ⟨successor₁, hexpand₁, fun a' ha' => hkeeps.hasEdge (hedges a' ha')⟩
  · rw [hsuccessor] at hk₁
    cases hk₁
    exact ⟨j, setEdge_self, hj⟩

/-- The successor gets the next number. -/
theorem Invariant.visit_new (h : Invariant expand labels root [i] s)
    (hk : s.nodes[i]? = some k) (hexpand : expand k = .ok successor) (ha : a ∈ labels)
    (hsuccessor : successor a = some k') (hnew : k' ∉ s.nodes)
    (hs' : s' = { s.setEdge i a s.nodes.length with
      nodes := s.nodes ++ [k']
      unused := (s.nodes.length, k') :: s.unused }) :
    Invariant expand labels root [i] s' ∧ Keeps s s' ∧ s'.HasEdge i successor a := by
  have hnodes : ∀ (i : Nat) (k : κ), s.nodes[i]? = some k → s'.nodes[i]? = some k := by
    intro i k hik
    obtain ⟨hlt, -⟩ := List.getElem?_eq_some_iff.1 hik
    rw [hs']
    exact (List.getElem?_append_left hlt).trans hik
  have hlast : s'.nodes[s.nodes.length]? = some k' := by
    rw [hs']
    show (s.nodes ++ [k'])[s.nodes.length]? = some k'
    simp
  have hedges : s'.edges = (s.setEdge i a s.nodes.length).edges := by rw [hs']
  have hkeeps : Keeps s s' := by
    refine ⟨hnodes, fun i' a' j' hedge => ?_, ?_⟩
    · rw [hedges]
      refine h.edges_setEdge hk hexpand hsuccessor (fun j' hj' => ?_) hedge
      exact absurd (List.mem_of_getElem? hj') hnew
    · rw [hs']
      simp
      omega
  refine ⟨⟨?_, hnodes 0 root h.root, fun e he => ?_, fun i' a' j' hedge => ?_,
    fun j' hpos hlt => ?_, fun i' k₁ hk₁ hunused hbusy => ?_⟩, hkeeps, fun k₁ hk₁ => ?_⟩
  · rw [hs']
    refine List.nodup_append.2 ⟨h.nodup, List.nodup_singleton k', fun x hx y hy heq => ?_⟩
    rw [List.mem_singleton.1 hy] at heq
    exact hnew (heq ▸ hx)
  · rw [hs'] at he
    rcases List.mem_cons.1 he with rfl | he
    · exact hlast
    · exact hnodes _ _ (h.unused e he)
  · rw [hedges] at hedge
    rcases setEdge_cases hedge with ⟨rfl, rfl, rfl⟩ | hold
    · exact ⟨k, successor, k', hnodes _ _ hk, hexpand, ha, hsuccessor, hlast⟩
    · obtain ⟨k₁, successor₁, k₂, hk₁, hexpand₁, ha₁, hsuccessor₁, hk₂⟩ := h.edge i' a' j' hold
      exact ⟨k₁, successor₁, k₂, hnodes _ _ hk₁, hexpand₁, ha₁, hsuccessor₁, hnodes _ _ hk₂⟩
  · rw [hs'] at hlt
    have hlt : j' < (s.nodes ++ [k']).length := hlt
    rw [List.length_append, List.length_singleton] at hlt
    by_cases hj' : j' = s.nodes.length
    · obtain ⟨hi, -⟩ := List.getElem?_eq_some_iff.1 hk
      refine ⟨i, a, by omega, ?_⟩
      rw [hedges, hj']
      exact setEdge_self
    · obtain ⟨i', a', hless, hedge⟩ := h.found j' hpos (by omega)
      exact ⟨i', a', hless, hkeeps.edges _ _ _ hedge⟩
  · rw [hs'] at hunused
    obtain ⟨hother, hunused⟩ := List.forall_mem_cons.1 hunused
    have hlt : i' < s.nodes.length := by
      obtain ⟨hlt, -⟩ := List.getElem?_eq_some_iff.1 hk₁
      rw [hs'] at hlt
      have hlt : i' < (s.nodes ++ [k']).length := hlt
      rw [List.length_append, List.length_singleton] at hlt
      have hother : s.nodes.length ≠ i' := hother
      omega
    have hold : s.nodes[i']? = some k₁ := by
      rw [hs'] at hk₁
      exact (List.getElem?_append_left hlt).symm.trans hk₁
    obtain ⟨successor₁, hexpand₁, hhas⟩ := h.expanded i' k₁ hold hunused hbusy
    exact ⟨successor₁, hexpand₁, fun a' ha' => hkeeps.hasEdge (hhas a' ha')⟩
  · rw [hsuccessor] at hk₁
    cases hk₁
    refine ⟨s.nodes.length, ?_, hlast⟩
    rw [hedges]
    exact setEdge_self

variable [DecidableEq κ]

theorem Invariant.visit (h : Invariant expand labels root [i] s) (hk : s.nodes[i]? = some k)
    (hexpand : expand k = .ok successor) (ha : a ∈ labels) :
    Invariant expand labels root [i] (s.visit successor i a) ∧
      Keeps s (s.visit successor i a) ∧ (s.visit successor i a).HasEdge i successor a := by
  unfold Numbering.visit
  split
  · rename_i hnone
    refine ⟨h, .refl s, fun k' hk' => ?_⟩
    rw [hnone] at hk'
    cases hk'
  · rename_i k' hsuccessor
    split
    · rename_i j hj
      obtain ⟨hlt, hget, -⟩ := List.idxOf?_eq_some_iff.1 hj
      refine h.visit_known hk hexpand ha hsuccessor ?_
      rw [List.getElem?_eq_getElem hlt]
      exact congrArg some (by simpa using hget)
    · rename_i hnone
      exact h.visit_new hk hexpand ha hsuccessor (List.idxOf?_eq_none_iff.1 hnone) rfl

theorem Invariant.foldl_visit (h : Invariant expand labels root [i] s)
    (hk : s.nodes[i]? = some k) (hexpand : expand k = .ok successor) {later : List ℓ}
    (hlater : ∀ a ∈ later, a ∈ labels) (hs' : later.foldl (Numbering.visit successor i) s = s') :
    Invariant expand labels root [i] s' ∧ Keeps s s' ∧
      ∀ a ∈ later, s'.HasEdge i successor a := by
  induction later generalizing s with
  | nil =>
    obtain rfl : s = s' := hs'
    exact ⟨h, .refl s, fun a ha => absurd ha List.not_mem_nil⟩
  | cons a later ih =>
    obtain ⟨ha, hlater⟩ := List.forall_mem_cons.1 hlater
    obtain ⟨hinv, hkeeps, hedge⟩ := h.visit hk hexpand ha
    obtain ⟨hinv', hkeeps', hedges⟩ := ih hinv (hkeeps.nodes i k hk) hlater hs'
    refine ⟨hinv', hkeeps.trans hkeeps', fun a' ha' => ?_⟩
    rcases List.mem_cons.1 ha' with rfl | ha'
    · exact hkeeps'.hasEdge hedge
    · exact hedges a' ha'

/-- An expanded node is done. -/
theorem Invariant.finish {unused : List (Nat × κ)} (h : Invariant expand labels root [] s)
    (hunused : s.unused = (i, k) :: unused) (hexpand : expand k = .ok successor)
    (hs' : labels.foldl (Numbering.visit successor i) { s with unused := unused } = s') :
    Invariant expand labels root [] s' ∧
      s'.nodes.length + s.unused.length = s.nodes.length + s'.unused.length + 1 := by
  obtain ⟨hpop, hk⟩ := h.pop hunused
  obtain ⟨hinv, hkeeps, hedges⟩ := hpop.foldl_visit hk hexpand (fun _ => id) hs'
  have hcount := hkeeps.count
  dsimp only at hcount
  refine ⟨⟨hinv.nodup, hinv.root, hinv.unused, hinv.edge, hinv.found,
    fun i' k' hk' hnot _ => ?_⟩, ?_⟩
  · by_cases hi : i' = i
    · subst hi
      rw [hkeeps.nodes i' k hk] at hk'
      cases hk'
      exact ⟨successor, hexpand, hedges⟩
    · exact hinv.expanded i' k' hk' hnot fun hbusy => hi (List.mem_singleton.1 hbusy)
  · rw [hunused, List.length_cons]
    omega

/-! ## The loop -/

/-- All nodes are expanded. -/
structure Complete (expand : κ → Except ε (ℓ → Option κ)) (labels : List ℓ) (root : κ)
    (s : Numbering κ ℓ) : Prop extends Invariant expand labels root [] s where
  done : s.unused = []

theorem Invariant.loop (h : Invariant expand labels root [] s)
    (hloop : Numbering.loop expand labels outOfFuel fuel s = .ok s') :
    Complete expand labels root s' := by
  induction fuel generalizing s with
  | zero =>
    unfold Numbering.loop at hloop
    split at hloop
    · rename_i hunused
      cases hloop
      exact ⟨h, hunused⟩
    · cases hloop
    · rename_i hzero
      cases hzero
  | succ fuel ih =>
    unfold Numbering.loop at hloop
    split at hloop
    · rename_i hunused
      cases hloop
      exact ⟨h, hunused⟩
    · rename_i hzero
      cases hzero
    · rename_i i k unused fuel' hunused hsucc
      cases hsucc
      split at hloop
      · cases hloop
      · rename_i successor hexpand
        exact ih (h.finish hunused hexpand rfl).1 hloop

theorem complete_of_number (h : number expand labels outOfFuel fuel root = .ok s) :
    Complete expand labels root s := invariant_start.loop h

/-- Every expansion is of another node, so there are no more of them than
nodes. -/
theorem Invariant.loop_cases (h : Invariant expand labels root [] s) {univ : Finset κ}
    (hroot : root ∈ univ)
    (huniv : ∀ k successor a k', k ∈ univ → expand k = .ok successor → a ∈ labels →
      successor a = some k' → k' ∈ univ)
    (hfuel : univ.card + s.unused.length ≤ fuel + s.nodes.length) :
    (∃ s', Numbering.loop expand labels outOfFuel fuel s = .ok s') ∨
      ∃ k e, k ∈ univ ∧ expand k = .error e ∧
        Numbering.loop expand labels outOfFuel fuel s = .error e := by
  have hnodes : ∀ {s : Numbering κ ℓ}, Invariant expand labels root [] s →
      ∀ k ∈ s.nodes, k ∈ univ := by
    intro s h k hk
    obtain ⟨i, hi, rfl⟩ := List.mem_iff_getElem.1 hk
    exact h.forall_nodes hroot huniv i _ (List.getElem?_eq_getElem hi)
  have hcard : ∀ {s : Numbering κ ℓ}, Invariant expand labels root [] s →
      s.nodes.length ≤ univ.card := by
    intro s h
    rw [← List.toFinset_card_of_nodup h.nodup]
    exact Finset.card_le_card fun k hk => hnodes h k (List.mem_toFinset.1 hk)
  induction fuel generalizing s with
  | zero =>
    have hbound := hcard h
    unfold Numbering.loop
    split
    · exact Or.inl ⟨s, rfl⟩
    · rename_i hunused _
      rw [hunused, List.length_cons] at hfuel
      omega
    · rename_i hzero
      cases hzero
  | succ fuel ih =>
    unfold Numbering.loop
    split
    · exact Or.inl ⟨s, rfl⟩
    · rename_i hzero
      cases hzero
    · rename_i i k unused fuel' hunused hsucc
      cases hsucc
      have hk : k ∈ univ := hnodes h k (List.mem_of_getElem? (h.pop hunused).2)
      cases hexpand : expand k with
      | error e => exact Or.inr ⟨k, e, hk, hexpand, rfl⟩
      | ok successor =>
        obtain ⟨hinv, hcount⟩ := h.finish hunused hexpand rfl
        exact ih hinv (by omega)

theorem number_cases {univ : Finset κ} (hroot : root ∈ univ)
    (huniv : ∀ k successor a k', k ∈ univ → expand k = .ok successor → a ∈ labels →
      successor a = some k' → k' ∈ univ) (hfuel : univ.card ≤ fuel) :
    (∃ s, number expand labels outOfFuel fuel root = .ok s) ∨
      ∃ k e, k ∈ univ ∧ expand k = .error e ∧
        number expand labels outOfFuel fuel root = .error e :=
  invariant_start.loop_cases hroot huniv (Nat.add_le_add_right hfuel 1)

/-- More fuel changes nothing. -/
theorem loop_mono {fuel' : Nat} (hle : fuel ≤ fuel')
    (h : loop expand labels outOfFuel fuel s ≠ .error outOfFuel) :
    loop expand labels outOfFuel fuel' s = loop expand labels outOfFuel fuel s := by
  induction fuel generalizing s fuel' with
  | zero =>
    cases hunused : s.unused with
    | nil =>
      unfold Numbering.loop
      rw [hunused]
    | cons e unused =>
      unfold Numbering.loop at h
      rw [hunused] at h
      exact absurd rfl h
  | succ fuel ih =>
    obtain ⟨fuel', rfl⟩ : ∃ n, fuel' = n + 1 := ⟨fuel' - 1, by omega⟩
    cases hunused : s.unused with
    | nil =>
      unfold Numbering.loop
      rw [hunused]
    | cons e unused =>
      obtain ⟨i, k⟩ := e
      unfold Numbering.loop at h ⊢
      rw [hunused] at h ⊢
      dsimp only at h ⊢
      cases hexpand : expand k with
      | error e => rfl
      | ok successor =>
        rw [hexpand] at h
        exact ih (by omega) h

/-- Only the expansions of nodes that are found matter. -/
theorem Invariant.loop_congr (h : Invariant expand labels root [] s) {univ : Finset κ}
    {expand' : κ → Except ε (ℓ → Option κ)} (hroot : root ∈ univ)
    (huniv : ∀ k successor a k', k ∈ univ → expand k = .ok successor → a ∈ labels →
      successor a = some k' → k' ∈ univ) (hsame : ∀ k ∈ univ, expand k = expand' k) :
    Numbering.loop expand labels outOfFuel fuel s = Numbering.loop expand' labels outOfFuel fuel s := by
  induction fuel generalizing s with
  | zero =>
    unfold Numbering.loop
    cases s.unused <;> rfl
  | succ fuel ih =>
    cases hunused : s.unused with
    | nil =>
      unfold Numbering.loop
      rw [hunused]
    | cons e unused =>
      obtain ⟨i, k⟩ := e
      obtain ⟨-, hk⟩ := h.pop hunused
      have hk : k ∈ univ := h.forall_nodes hroot huniv i k hk
      unfold Numbering.loop
      rw [hunused]
      dsimp only
      rw [← hsame k hk]
      cases hexpand : expand k with
      | error e => rfl
      | ok successor => exact ih (h.finish hunused hexpand rfl).1

/-- The loop settles in a finite graph, if the expansions settle. -/
theorem settles_number {κ ℓ ε : Type} [DecidableEq κ] [DecidableEq ℓ]
    {expandOf : Nat → κ → Except ε (ℓ → Option κ)} {labels : List ℓ} {outOfFuel : ε} {root : κ}
    (univ : Finset κ) (hroot : root ∈ univ)
    (hsettles : ∀ k ∈ univ, Settles outOfFuel fun fuel => expandOf fuel k)
    (huniv : ∀ fuel k successor a k', k ∈ univ → expandOf fuel k = .ok successor → a ∈ labels →
      successor a = some k' → k' ∈ univ) :
    Settles outOfFuel fun fuel => number (expandOf fuel) labels outOfFuel fuel root := by
  obtain ⟨bound, hbound⟩ := Settles.exists_bound hsettles
  have hlast : Settles outOfFuel fun fuel =>
      number (expandOf bound) labels outOfFuel fuel root := by
    refine .of_mono (fun fuel fuel' hle h => loop_mono hle h) univ.card ?_
    rcases number_cases hroot (huniv bound) le_rfl with ⟨s, hok⟩ | ⟨k, e, hk, hexpand, herror⟩
    · rw [hok]
      exact fun h => by cases h
    · rw [herror]
      intro h
      cases h
      exact (hbound k hk).1 hexpand
  refine hlast.congr (n := bound) fun fuel hle => ?_
  exact invariant_start.loop_congr hroot (huniv fuel) fun k hk => (hbound k hk).2 fuel hle

theorem failsAtBound_number {κ ℓ ε : Type} [DecidableEq κ] [DecidableEq ℓ]
    {expand : κ → Except ε (ℓ → Option κ)} {outOfFuel : ε}
    (hexpand : ∀ k, FailsAtBound outOfFuel (expand k)) (labels : List ℓ) (fuel : Nat) (root : κ) :
    FailsAtBound outOfFuel (number expand labels outOfFuel fuel root) := by
  unfold number
  generalize start root = s
  induction fuel generalizing s with
  | zero =>
    cases hunused : s.unused with
    | nil =>
      unfold Numbering.loop
      rw [hunused]
      exact .ok s
    | cons e unused =>
      intro e' herror
      unfold Numbering.loop at herror
      rw [hunused] at herror
      cases herror
      rfl
  | succ fuel ih =>
    cases hunused : s.unused with
    | nil =>
      unfold Numbering.loop
      rw [hunused]
      exact .ok s
    | cons e unused =>
      obtain ⟨i, k⟩ := e
      unfold Numbering.loop
      rw [hunused]
      dsimp only
      cases hk : expand k with
      | error e =>
        intro e' herror
        cases herror
        exact hexpand k e hk
      | ok successor => exact ih _

/-- The sets of the elements of a finite set are finitely many, where nodes are
ordered sets. -/
theorem exists_univ {α : Type*} [Ord α] [Std.TransOrd α] [Std.LawfulEqOrd α] (items : Finset α) :
    ∃ univ : Finset (OrderedSet α), ∀ s, s ∈ univ ↔ ∀ x ∈ s, x ∈ items := by
  classical
  refine ⟨items.powerset.image fun t => OrderedSet.empty.insertAll t.toList, fun s => ?_⟩
  rw [Finset.mem_image]
  have hmem : ∀ (t : Finset α) (x : α), x ∈ OrderedSet.empty.insertAll t.toList ↔ x ∈ t := by
    intro t x
    simp [OrderedSet.mem_insertAll]
  constructor
  · rintro ⟨t, ht, rfl⟩ x hx
    exact Finset.mem_powerset.1 ht ((hmem t x).1 hx)
  · intro h
    refine ⟨s.toList.toFinset, Finset.mem_powerset.2 fun x hx => h x ?_, ?_⟩
    · exact List.mem_toFinset.1 hx
    · refine OrderedSet.ext fun x => ?_
      rw [hmem, List.mem_toFinset]
      rfl

end Numbering

end LogSurgeon.Lib
