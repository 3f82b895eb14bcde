import LogSurgeon.Lib.Grammar
import LogSurgeon.Lib.OrderedSet
import Mathlib.Algebra.Order.BigOperators.Group.List
import Mathlib.Algebra.Order.Ring.Nat

/-!
# FIRST sets

`generateFirstSets` is `Lalr1Parser::generate_first_sets`.  It collects the
tokens that a symbol may begin with and the symbols that derive the empty
string, and runs over the productions until a run changes nothing.

* An update of the flag is short-circuited: once a run has changed something,
  it notes no symbol as nullable any more.
* Inserting a set into itself leaves it as it is.
* The index and the semantic rule of a production are left out.

`generateFirstSets_spec`: the runs end, and the sets are exact.
-/

namespace LogSurgeon

namespace Lalr1Parser

open Lib Lib.Grammar

/-- `m_firsts` and `m_nullable`.  A symbol without an entry has no tokens. -/
structure FirstSets where
  firsts : Nat → OrderedSet Nat
  nullable : OrderedSet Nat

namespace FirstSets

/-- The sets with an entry for every terminal. -/
def start (terminals : List Nat) : FirstSets where
  firsts := fun s => if s ∈ terminals then OrderedSet.empty.insert s else .empty
  nullable := .empty

def insertFirsts (sets : FirstSets) (head : Nat) (tokens : OrderedSet Nat) : FirstSets :=
  { sets with
    firsts := fun s =>
      if s = head then (sets.firsts head).insertAll tokens.toList else sets.firsts s }

/-- The loop over the body, and whether it went through all symbols. -/
def insertBody (head : Nat) : List Nat → FirstSets → FirstSets × Bool
  | [], sets => (sets, true)
  | s :: body, sets =>
    let sets := sets.insertFirsts head (sets.firsts s)
    if sets.nullable.contains s then insertBody head body sets else (sets, false)

/-- `changed = changed || m_nullable.insert(head).second`. -/
def noteNullable (head : Nat) : FirstSets × Bool → FirstSets × Bool
  | (sets, true) => (sets, true)
  | (sets, false) =>
    ({ sets with nullable := sets.nullable.insert head }, !sets.nullable.contains head)

/-- The body of the loop over the productions. -/
def addProduction : FirstSets × Bool → Production Nat → FirstSets × Bool
  | (sets, changed), p =>
    if p.body = [] then noteNullable p.head (sets, changed)
    else
      let old := (sets.firsts p.head).size
      let (sets, all) := insertBody p.head p.body sets
      let (sets, changed) :=
        if all then noteNullable p.head (sets, changed) else (sets, changed)
      (sets, changed || (sets.firsts p.head).size ≠ old)

/-- One run over the productions. -/
def run (productions : List (Production Nat)) (sets : FirstSets) : FirstSets × Bool :=
  productions.foldl addProduction (sets, false)

/-- Runs until one changes nothing. -/
def loop (productions : List (Production Nat)) : Nat → FirstSets → Option FirstSets
  | 0, _ => none
  | fuel + 1, sets =>
    match run productions sets with
    | (sets, true) => loop productions fuel sets
    | (sets, false) => some sets

/-! ## What one step does -/

variable {sets sets' : FirstSets} {changed changed' : Bool} {head : Nat}

/-- Every token and every nullable symbol is kept. -/
structure Below (sets sets' : FirstSets) : Prop where
  firsts : ∀ s, ∀ t ∈ sets.firsts s, t ∈ sets'.firsts s
  nullable : ∀ s ∈ sets.nullable, s ∈ sets'.nullable

theorem Below.refl (sets : FirstSets) : Below sets sets := ⟨fun _ _ => id, fun _ => id⟩

theorem Below.trans {sets₁ sets₂ sets₃ : FirstSets} (h : Below sets₁ sets₂)
    (h' : Below sets₂ sets₃) : Below sets₁ sets₃ :=
  ⟨fun s t ht => h'.firsts s t (h.firsts s t ht), fun s hs => h'.nullable s (h.nullable s hs)⟩

/-- The sets hold what can be derived only. -/
structure Sound (terminals : List Nat) (productions : List (Production Nat)) (sets : FirstSets) :
    Prop where
  firsts : ∀ s, ∀ t ∈ sets.firsts s, First productions (· ∈ terminals) t s
  nullable : ∀ s ∈ sets.nullable, Null productions s

/-- The production adds nothing to the sets. -/
structure Closed (sets : FirstSets) (p : Production Nat) : Prop where
  firsts : ∀ u s v, p.body = u ++ s :: v → (∀ s' ∈ u, s' ∈ sets.nullable) →
    ∀ t ∈ sets.firsts s, t ∈ sets.firsts p.head
  nullable : (∀ s ∈ p.body, s ∈ sets.nullable) → p.head ∈ sets.nullable

theorem mem_insertFirsts {tokens : OrderedSet Nat} {s t : Nat} :
    t ∈ (sets.insertFirsts head tokens).firsts s ↔
      s = head ∧ t ∈ tokens ∨ t ∈ sets.firsts s := by
  unfold insertFirsts
  dsimp only
  split
  · rename_i hs
    rw [OrderedSet.mem_insertAll, ← hs, ← OrderedSet.mem_def]
    simp
  · rename_i hs
    simp [hs]

theorem below_insertFirsts {tokens : OrderedSet Nat} :
    Below sets (sets.insertFirsts head tokens) :=
  ⟨fun _ _ ht => mem_insertFirsts.2 (Or.inr ht), fun _ => id⟩

/-- The loop inserts the tokens of the symbols behind nullable ones. -/
structure Inserts (head : Nat) (body : List Nat) (sets sets' : FirstSets) (all : Bool) :
    Prop where
  nullable : sets'.nullable = sets.nullable
  all : all = true ↔ ∀ s ∈ body, s ∈ sets.nullable
  below : Below sets sets'
  other : ∀ s, s ≠ head → sets'.firsts s = sets.firsts s
  inserted : ∀ u s v, body = u ++ s :: v → (∀ s' ∈ u, s' ∈ sets.nullable) →
    ∀ t ∈ sets.firsts s, t ∈ sets'.firsts head

theorem insertBody_spec (body : List Nat) :
    Inserts head body sets (insertBody head body sets).1 (insertBody head body sets).2 := by
  induction body generalizing sets with
  | nil =>
    refine ⟨rfl, by simp [insertBody], .refl sets, fun _ _ => rfl, fun u s v hsplit => ?_⟩
    simp at hsplit
  | cons s body ih =>
    have hfirst := @below_insertFirsts sets head (sets.firsts s)
    have hother : ∀ s', s' ≠ head →
        (sets.insertFirsts head (sets.firsts s)).firsts s' = sets.firsts s' :=
      fun s' hs' => if_neg hs'
    unfold insertBody
    dsimp only
    split
    · rename_i hnull
      have hnull : s ∈ sets.nullable := OrderedSet.contains_iff.1 hnull
      obtain ⟨hnullable, hall, hbelow, hother', hinserted⟩ :=
        @ih (sets.insertFirsts head (sets.firsts s))
      refine ⟨hnullable, ?_, hfirst.trans hbelow,
        fun s' hs' => (hother' s' hs').trans (hother s' hs'), fun u s' v hsplit hu t ht => ?_⟩
      · rw [hall, List.forall_mem_cons]
        exact ⟨fun h => ⟨hnull, h⟩, fun h => h.2⟩
      · cases u with
        | nil =>
          cases hsplit
          exact hbelow.firsts _ t (mem_insertFirsts.2 (Or.inl ⟨rfl, ht⟩))
        | cons s₀ u =>
          cases hsplit
          exact hinserted u s' v rfl (fun s' hs' => hu s' (List.mem_cons_of_mem _ hs')) t
            (hfirst.firsts s' t ht)
    · rename_i hnull
      have hnull : s ∉ sets.nullable := fun h => hnull (OrderedSet.contains_iff.2 h)
      refine ⟨rfl, ?_, hfirst, hother, fun u s' v hsplit hu t ht => ?_⟩
      · simp [hnull]
      · cases u with
        | nil =>
          cases hsplit
          exact mem_insertFirsts.2 (Or.inl ⟨rfl, ht⟩)
        | cons s₀ u =>
          cases hsplit
          exact absurd (hu _ List.mem_cons_self) hnull

/-- The loop over a body inserts tokens that can be derived.  The symbols in
front of the rest are nullable. -/
theorem Sound.insertBody {terminals : List Nat} {productions : List (Production Nat)}
    (h : Sound terminals productions sets) {p : Production Nat} (hp : p ∈ productions)
    (front : List Nat) {body : List Nat} (hbody : p.body = front ++ body)
    (hfront : ∀ s ∈ front, s ∈ sets.nullable) :
    Sound terminals productions (FirstSets.insertBody p.head body sets).1 := by
  induction body generalizing sets front with
  | nil => exact h
  | cons s body ih =>
    have hinsert : Sound terminals productions (sets.insertFirsts p.head (sets.firsts s)) := by
      refine ⟨fun s' t ht => ?_, h.nullable⟩
      rcases mem_insertFirsts.1 ht with ⟨hs', htoken⟩ | hold
      · rw [hs']
        exact .rule hp hbody (fun s' hs' => h.nullable s' (hfront s' hs')) (h.firsts s t htoken)
      · exact h.firsts s' t hold
    unfold FirstSets.insertBody
    dsimp only
    split
    · rename_i hnull
      have hnull : s ∈ sets.nullable := OrderedSet.contains_iff.1 hnull
      refine ih hinsert (front ++ [s]) (by simp [hbody]) fun s' hs' => ?_
      rcases List.mem_append.1 hs' with hs' | hs'
      · exact hfront s' hs'
      · rw [List.mem_singleton.1 hs']
        exact hnull
    · exact hinsert

/-! ### Nullable symbols -/

theorem noteNullable_spec (head : Nat) (sets : FirstSets) (changed : Bool) :
    (noteNullable head (sets, changed)).1.firsts = sets.firsts ∧
      (changed = true → noteNullable head (sets, changed) = (sets, true)) ∧
      (changed = false →
        (noteNullable head (sets, changed)).1.nullable = sets.nullable.insert head ∧
          ((noteNullable head (sets, changed)).2 = true ↔ head ∉ sets.nullable)) := by
  cases changed with
  | true => exact ⟨rfl, fun _ => rfl, fun h => Bool.noConfusion h⟩
  | false =>
    refine ⟨rfl, fun h => Bool.noConfusion h, fun _ => ⟨rfl, ?_⟩⟩
    show (!sets.nullable.contains head) = true ↔ _
    rw [Bool.not_eq_true', ← Bool.not_eq_true, OrderedSet.contains_iff]

/-! ### The size of the sets -/

/-- The number of tokens of the heads and of nullable symbols. -/
def weight (productions : List (Production Nat)) (sets : FirstSets) : Nat :=
  (productions.map fun p => (sets.firsts p.head).size).sum + sets.nullable.size

section Weight

variable {productions : List (Production Nat)} {p : Production Nat}

theorem Below.size_firsts_le (h : Below sets sets') (s : Nat) :
    (sets.firsts s).size ≤ (sets'.firsts s).size :=
  OrderedSet.size_le_length fun t ht => h.firsts s t ht

theorem Below.size_nullable_le (h : Below sets sets') :
    sets.nullable.size ≤ sets'.nullable.size :=
  OrderedSet.size_le_length fun s hs => h.nullable s hs

theorem Below.weight_le (h : Below sets sets') :
    weight productions sets ≤ weight productions sets' :=
  Nat.add_le_add (List.sum_le_sum fun p _ => h.size_firsts_le p.head) h.size_nullable_le

theorem Below.weight_lt (h : Below sets sets') (hp : p ∈ productions)
    (hgrows : (sets'.firsts p.head).size ≠ (sets.firsts p.head).size ∨
      sets'.nullable.size ≠ sets.nullable.size) :
    weight productions sets < weight productions sets' := by
  have hnullable := h.size_nullable_le
  rcases hgrows with hgrows | hgrows
  · have hlt : (sets.firsts p.head).size < (sets'.firsts p.head).size :=
      Nat.lt_of_le_of_ne (h.size_firsts_le p.head) (Ne.symm hgrows)
    exact Nat.add_lt_add_of_lt_of_le
      (List.sum_lt_sum _ _ (fun p _ => h.size_firsts_le p.head) ⟨p, hp, hlt⟩) hnullable
  · have hsum : (productions.map fun p => (sets.firsts p.head).size).sum ≤
        (productions.map fun p => (sets'.firsts p.head).size).sum :=
      List.sum_le_sum fun p _ => h.size_firsts_le p.head
    unfold weight
    omega

/-- There is a bound, since tokens are terminals and nullable symbols heads. -/
theorem Sound.weight_le {terminals : List Nat} (h : Sound terminals productions sets) :
    weight productions sets ≤ productions.length * (terminals.length + 1) := by
  have hfirsts : ∀ s, (sets.firsts s).size ≤ terminals.length :=
    fun s => OrderedSet.size_le_length fun t ht => (h.firsts s t ht).isToken
  have hsum : (productions.map fun p => (sets.firsts p.head).size).sum ≤
      productions.length * terminals.length := by
    have hsum := List.sum_le_card_nsmul (productions.map fun p => (sets.firsts p.head).size)
      terminals.length (by
        intro size hsize
        obtain ⟨p, -, rfl⟩ := List.mem_map.1 hsize
        exact hfirsts p.head)
    rwa [List.length_map] at hsum
  have hnullable : sets.nullable.size ≤ (productions.map (·.head)).length := by
    refine OrderedSet.size_le_length fun s hs => ?_
    cases h.nullable s hs with
    | rule hp _ => exact List.mem_map_of_mem hp
  rw [List.length_map] at hnullable
  rw [Nat.mul_succ]
  exact Nat.add_le_add hsum hnullable

end Weight

/-! ## A step of the loop -/

section Adds

variable {terminals : List Nat} {productions : List (Production Nat)} {p : Production Nat}

/-- What a production, or some of them, do to the sets and to the flag. -/
structure Adds (terminals : List Nat) (productions ps : List (Production Nat))
    (sets : FirstSets) (changed : Bool) (result : FirstSets × Bool) : Prop where
  sound : Sound terminals productions sets → Sound terminals productions result.1
  below : Below sets result.1
  keeps : changed = true → result.2 = true
  grows : changed = false → result.2 = true →
    weight productions sets < weight productions result.1
  stops : result.2 = false → result.1 = sets ∧ ∀ p ∈ ps, Closed sets p

theorem below_noteNullable (head : Nat) (sets : FirstSets) (changed : Bool) :
    Below sets (noteNullable head (sets, changed)).1 := by
  cases changed with
  | true => exact .refl sets
  | false => exact ⟨fun _ _ => id, fun s hs => OrderedSet.mem_insert.2 (Or.inr hs)⟩

theorem Sound.noteNullable (h : Sound terminals productions sets)
    (hhead : Null productions head) :
    Sound terminals productions (FirstSets.noteNullable head (sets, changed)).1 := by
  cases changed with
  | true => exact h
  | false =>
    refine ⟨h.firsts, fun s hs => ?_⟩
    rcases OrderedSet.mem_insert.1 hs with rfl | hs
    · exact hhead
    · exact h.nullable s hs

/-- The flag that stays unset says that the head was nullable before. -/
theorem noteNullable_of_false (h : (noteNullable head (sets, changed)).2 = false) :
    changed = false ∧ head ∈ sets.nullable ∧ (noteNullable head (sets, changed)).1 = sets := by
  cases changed with
  | true => cases h
  | false =>
    have hmem : head ∈ sets.nullable := by
      rw [← OrderedSet.contains_iff]
      simpa [noteNullable] using h
    refine ⟨rfl, hmem, ?_⟩
    have hsame : sets.nullable.insert head = sets.nullable := by
      refine OrderedSet.ext fun s => ?_
      rw [OrderedSet.mem_insert]
      exact ⟨fun hs => hs.elim (fun hs => hs ▸ hmem) id, Or.inr⟩
    show ({ sets with nullable := sets.nullable.insert head } : FirstSets) = sets
    rw [hsame]

/-- The flag that becomes set says that a symbol was added. -/
theorem noteNullable_of_true (h : (noteNullable head (sets, false)).2 = true) :
    (noteNullable head (sets, false)).1.nullable.size ≠ sets.nullable.size := by
  obtain ⟨-, -, hfalse⟩ := noteNullable_spec head sets false
  obtain ⟨hinsert, hnew⟩ := hfalse rfl
  have hnew := hnew.1 h
  intro hsize
  have hsame := OrderedSet.eq_of_size_eq (below_noteNullable head sets false).nullable hsize
  rw [hinsert] at hsame
  exact hnew (hsame ▸ OrderedSet.mem_insert.2 (Or.inl rfl))

/-- An empty body makes the head nullable. -/
theorem adds_epsilon (hp : p ∈ productions) (hbody : p.body = []) :
    Adds terminals productions [p] sets changed (addProduction (sets, changed) p) := by
  have heq : addProduction (sets, changed) p = noteNullable p.head (sets, changed) := if_pos hbody
  rw [heq]
  have hnull : Null productions p.head := .rule hp (by simp [hbody])
  refine ⟨fun h => h.noteNullable hnull, below_noteNullable _ _ _, ?_, ?_, fun hfalse => ?_⟩
  · rintro rfl
    rfl
  · rintro rfl htrue
    exact (below_noteNullable p.head sets false).weight_lt hp (Or.inr (noteNullable_of_true htrue))
  · obtain ⟨-, hmem, hsame⟩ := noteNullable_of_false hfalse
    refine ⟨hsame, fun p' hp' => ?_⟩
    obtain rfl := List.mem_singleton.1 hp'
    refine ⟨fun u s v hsplit => ?_, fun _ => hmem⟩
    rw [hbody] at hsplit
    simp at hsplit

/-- A body inserts tokens, and it may make the head nullable. -/
theorem adds_body (hp : p ∈ productions) (hbody : p.body ≠ []) :
    Adds terminals productions [p] sets changed (addProduction (sets, changed) p) := by
  have hinserts := @insertBody_spec sets p.head p.body
  have hsound : Sound terminals productions sets →
      Sound terminals productions (FirstSets.insertBody p.head p.body sets).1 :=
    fun h => h.insertBody hp [] rfl fun s hs => absurd hs List.not_mem_nil
  rw [addProduction, if_neg hbody]
  dsimp only
  generalize hresult : FirstSets.insertBody p.head p.body sets = result at hinserts hsound ⊢
  obtain ⟨sets₁, all⟩ := result
  dsimp only at hinserts hsound ⊢
  -- Without a change the loop has inserted nothing.
  have hsame : (sets₁.firsts p.head).size = (sets.firsts p.head).size → sets₁ = sets := by
    intro hsize
    have hfirsts : sets₁.firsts = sets.firsts := by
      funext s
      by_cases hs : s = p.head
      · rw [hs]
        exact OrderedSet.eq_of_size_eq (hinserts.below.firsts p.head) hsize
      · exact hinserts.other s hs
    have hnullable := hinserts.nullable
    cases sets₁
    cases sets
    dsimp only at hfirsts hnullable
    rw [hfirsts, hnullable]
  have hclosed : sets₁ = sets → (all = true → p.head ∈ sets.nullable) →
      ∀ p' ∈ [p], Closed sets p' := by
    intro hsets hhead p' hp'
    rw [List.mem_singleton.1 hp']
    refine ⟨fun u s v hsplit hu t ht => ?_, fun hall => hhead (hinserts.all.2 hall)⟩
    have hmem := hinserts.inserted u s v hsplit hu t ht
    rwa [hsets] at hmem
  cases all with
  | false =>
    refine ⟨hsound, hinserts.below, fun h => ?_, fun h htrue => ?_, fun hfalse => ?_⟩
    · simp [h]
    · refine hinserts.below.weight_lt hp (Or.inl ?_)
      simpa [h] using htrue
    · have hsize : changed = false ∧
          (sets₁.firsts p.head).size = (sets.firsts p.head).size := by simpa using hfalse
      exact ⟨hsame hsize.2, hclosed (hsame hsize.2) fun h => Bool.noConfusion h⟩
  | true =>
    have hnull : Sound terminals productions sets → Null productions p.head :=
      fun h => .rule hp fun s hs => h.nullable s (hinserts.all.1 rfl s hs)
    have hfirsts : (noteNullable p.head (sets₁, changed)).1.firsts = sets₁.firsts :=
      (noteNullable_spec p.head sets₁ changed).1
    have hbelow := hinserts.below.trans (below_noteNullable p.head sets₁ changed)
    refine ⟨fun h => (hsound h).noteNullable (hnull h), hbelow, fun h => ?_, fun h htrue => ?_,
      fun hfalse => ?_⟩
    · rw [if_pos rfl, h]
      rfl
    · refine hbelow.weight_lt hp ?_
      rw [if_pos rfl, h] at htrue
      rw [h]
      rcases Bool.or_eq_true_iff.1 htrue with htrue | hsize
      · refine Or.inr ?_
        rw [← hinserts.nullable]
        exact noteNullable_of_true htrue
      · refine Or.inl ?_
        simpa using hsize
    · rw [if_pos rfl] at hfalse ⊢
      obtain ⟨hfalse, hsize⟩ := Bool.or_eq_false_iff.1 hfalse
      obtain ⟨-, hmem, hnote⟩ := noteNullable_of_false hfalse
      have hsize : (sets₁.firsts p.head).size = (sets.firsts p.head).size := by
        rw [← hfirsts]
        simpa using hsize
      rw [hnote, hsame hsize]
      rw [hinserts.nullable] at hmem
      exact ⟨rfl, hclosed (hsame hsize) fun _ => hmem⟩

theorem adds_addProduction (hp : p ∈ productions) :
    Adds terminals productions [p] sets changed (addProduction (sets, changed) p) := by
  by_cases hbody : p.body = []
  · exact adds_epsilon hp hbody
  · exact adds_body hp hbody

/-- A run over some of the productions. -/
theorem adds_foldl {ps : List (Production Nat)} (hps : ∀ p ∈ ps, p ∈ productions) :
    Adds terminals productions ps sets changed (ps.foldl addProduction (sets, changed)) := by
  induction ps generalizing sets changed with
  | nil =>
    refine ⟨id, .refl sets, id, fun h htrue => ?_, fun _ => ⟨rfl, fun p hp => ?_⟩⟩
    · rw [h] at htrue
      cases htrue
    · exact absurd hp List.not_mem_nil
  | cons p ps ih =>
    have hstep := @adds_addProduction sets changed terminals productions p
      (hps p List.mem_cons_self)
    rw [List.foldl_cons]
    generalize addProduction (sets, changed) p = result at hstep ⊢
    obtain ⟨sets₁, changed₁⟩ := result
    have hrest := @ih sets₁ changed₁ fun p' hp' => hps p' (List.mem_cons_of_mem p hp')
    refine ⟨fun h => hrest.sound (hstep.sound h), hstep.below.trans hrest.below,
      fun h => hrest.keeps (hstep.keeps h), fun h htrue => ?_, fun hfalse => ?_⟩
    · by_cases hchanged : changed₁ = true
      · exact (hstep.grows h hchanged).trans_le hrest.below.weight_le
      · have hchanged : changed₁ = false := Bool.eq_false_iff.2 hchanged
        exact hstep.below.weight_le.trans_lt (hrest.grows hchanged htrue)
    · have hchanged : changed₁ = false := by
        by_contra hset
        have hset := hrest.keeps (by simpa using hset)
        rw [hfalse] at hset
        cases hset
      obtain ⟨hsame, hclosed⟩ := hstep.stops hchanged
      obtain ⟨hsame', hclosed'⟩ := hrest.stops hfalse
      obtain rfl : sets₁ = sets := hsame
      exact ⟨hsame', List.forall_mem_cons.2 ⟨hclosed p (List.mem_singleton.2 rfl), hclosed'⟩⟩

end Adds

/-! ## The loop -/

section Loop

variable {terminals : List Nat} {productions : List (Production Nat)}

/-- The loop ends with sets to which no production adds anything. -/
theorem exists_loop {fuel : Nat} (h : Sound terminals productions sets)
    (hfuel : productions.length * (terminals.length + 1) < fuel + weight productions sets) :
    ∃ sets', loop productions fuel sets = some sets' ∧ Sound terminals productions sets' ∧
      Below sets sets' ∧ ∀ p ∈ productions, Closed sets' p := by
  have hbound := h.weight_le
  induction fuel generalizing sets with
  | zero => omega
  | succ fuel ih =>
    have hadds := @adds_foldl sets false terminals productions productions fun _ hp => hp
    have hrun : run productions sets = productions.foldl addProduction (sets, false) := rfl
    rw [← hrun] at hadds
    unfold loop
    generalize run productions sets = result at hadds ⊢
    obtain ⟨sets₁, changed⟩ := result
    cases changed with
    | true =>
      have hsound := hadds.sound h
      have hgrows := hadds.grows rfl rfl
      dsimp only at hsound hgrows ⊢
      obtain ⟨sets', hloop, hsound', hbelow, hclosed⟩ := ih hsound (by omega) hsound.weight_le
      exact ⟨sets', hloop, hsound', hadds.below.trans hbelow, hclosed⟩
    | false =>
      obtain ⟨hsame, hclosed⟩ := hadds.stops rfl
      obtain rfl : sets₁ = sets := hsame
      exact ⟨sets₁, rfl, h, .refl sets₁, hclosed⟩

theorem mem_start {s t : Nat} : t ∈ (start terminals).firsts s ↔ s ∈ terminals ∧ t = s := by
  unfold start
  dsimp only
  split
  · rename_i hs
    rw [OrderedSet.mem_insert]
    simp [hs]
  · rename_i hs
    simp [hs]

theorem sound_start : Sound terminals productions (start terminals) where
  firsts s t ht := by
    obtain ⟨hs, rfl⟩ := mem_start.1 ht
    exact .self hs
  nullable s hs := absurd hs (OrderedSet.not_mem_empty s)

/-- Sets to which no production adds anything hold what can be derived. -/
theorem null_mem_of_closed (hclosed : ∀ p ∈ productions, Closed sets p) {s : Nat}
    (h : Null productions s) : s ∈ sets.nullable := by
  induction h with
  | rule hp _ ih => exact (hclosed _ hp).nullable ih

theorem first_mem_of_closed (hclosed : ∀ p ∈ productions, Closed sets p)
    (hstart : Below (start terminals) sets) {s t : Nat}
    (h : First productions (· ∈ terminals) t s) : t ∈ sets.firsts s := by
  induction h with
  | self ht => exact hstart.firsts t t (mem_start.2 ⟨ht, rfl⟩)
  | rule hp hsplit hnull _ ih =>
    refine (hclosed _ hp).firsts _ _ _ hsplit (fun s' hs' => ?_) t ih
    exact null_mem_of_closed hclosed (hnull s' hs')

end Loop

end FirstSets

def generateFirstSets (terminals : List Nat) (productions : List (Production Nat)) (fuel : Nat) :
    Option FirstSets :=
  FirstSets.loop productions fuel (.start terminals)

/-- The sets hold exactly what can be derived. -/
structure FirstSets.Exact (terminals : List Nat) (productions : List (Production Nat))
    (sets : FirstSets) : Prop where
  nullable : ∀ s, s ∈ sets.nullable ↔ Derives productions [s] []
  firsts : ∀ s t, t ∈ sets.firsts s ↔ t ∈ terminals ∧ ∃ w, Derives productions [s] (t :: w)

namespace FirstSets

variable {terminals : List Nat} {productions : List (Production Nat)} {sets sets' : FirstSets}

theorem Exact.unique (h : Exact terminals productions sets)
    (h' : Exact terminals productions sets') : sets = sets' := by
  have hfirsts : sets.firsts = sets'.firsts := by
    funext s
    refine OrderedSet.ext fun t => ?_
    rw [h.firsts, h'.firsts]
  have hnullable : sets.nullable = sets'.nullable := by
    refine OrderedSet.ext fun s => ?_
    rw [h.nullable, h'.nullable]
  cases sets
  cases sets'
  dsimp only at hfirsts hnullable
  rw [hfirsts, hnullable]

theorem exact_of_closed (hsound : Sound terminals productions sets)
    (hstart : Below (start terminals) sets) (hclosed : ∀ p ∈ productions, Closed sets p) :
    Exact terminals productions sets where
  nullable s := by
    rw [← null_iff]
    exact ⟨hsound.nullable s, null_mem_of_closed hclosed⟩
  firsts s t := by
    rw [← @first_iff Nat productions (· ∈ terminals) s t]
    exact ⟨hsound.firsts s t, first_mem_of_closed hclosed hstart⟩

theorem exists_generateFirstSets {fuel : Nat}
    (hfuel : productions.length * (terminals.length + 1) < fuel) :
    ∃ sets, generateFirstSets terminals productions fuel = some sets ∧
      Exact terminals productions sets := by
  obtain ⟨sets, hloop, hsound, hbelow, hclosed⟩ :=
    @exists_loop (start terminals) terminals productions fuel sound_start (by omega)
  exact ⟨sets, hloop, exact_of_closed hsound hbelow hclosed⟩

/-- More fuel changes nothing. -/
theorem loop_mono {fuel fuel' : Nat} (hle : fuel ≤ fuel') (h : loop productions fuel sets = some sets') :
    loop productions fuel' sets = some sets' := by
  induction fuel generalizing sets fuel' with
  | zero => cases h
  | succ fuel ih =>
    obtain ⟨fuel', rfl⟩ : ∃ n, fuel' = n + 1 := ⟨fuel' - 1, by omega⟩
    unfold loop at h ⊢
    generalize run productions sets = result at h ⊢
    obtain ⟨sets₁, changed⟩ := result
    cases changed with
    | true => exact ih (by omega) h
    | false => exact h

theorem exact_of_generateFirstSets {fuel : Nat}
    (h : generateFirstSets terminals productions fuel = some sets) :
    Exact terminals productions sets := by
  obtain ⟨sets', hsets', hexact⟩ := @exists_generateFirstSets terminals productions
    (fuel + productions.length * (terminals.length + 1) + 1) (by omega)
  have hsame : loop productions (fuel + productions.length * (terminals.length + 1) + 1)
      (start terminals) = some sets := loop_mono (by omega) h
  obtain rfl : sets' = sets := Option.some.inj (hsets'.symm.trans hsame)
  exact hexact

end FirstSets

/-- The runs end.  The nullable symbols are those that derive the empty string,
and the tokens of a symbol are those that a form derived from it may begin
with. -/
theorem generateFirstSets_spec (terminals : List Nat) (productions : List (Production Nat)) :
    ∃ sets, (∀ fuel, productions.length * (terminals.length + 1) < fuel →
        generateFirstSets terminals productions fuel = some sets) ∧
      (∀ s, s ∈ sets.nullable ↔ Derives productions [s] []) ∧
      ∀ s t, t ∈ sets.firsts s ↔ t ∈ terminals ∧ ∃ w, Derives productions [s] (t :: w) := by
  obtain ⟨sets, -, hexact⟩ :=
    @FirstSets.exists_generateFirstSets terminals productions _ (Nat.lt_succ_self _)
  refine ⟨sets, fun fuel hfuel => ?_, hexact.nullable, hexact.firsts⟩
  obtain ⟨sets', hsets', hexact'⟩ := FirstSets.exists_generateFirstSets hfuel
  rw [hsets', hexact'.unique hexact]

end Lalr1Parser

end LogSurgeon
