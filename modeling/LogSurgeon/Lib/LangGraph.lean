import Mathlib.Computability.Language
import Mathlib.Order.CompleteLattice.Basic

/-!
# Graphs whose edges carry languages

A finite automaton that is built piece by piece is a graph in which every
edge carries a set of words.  An edge may stand for one transition, or for a
whole sub-automaton that has been summarised by the words that lead through
it.  This module names nothing of a particular automaton.

There are three groups.

* `Walk` and `reach`: the words along the walks from one state to another.
* `AgreeOn`: two graphs that read the same words between any two states of a
  set.  `AgreeOn.sup` says that adding the same edges inside the set keeps the
  agreement, so a summary of a part may replace the part in any context.
* `agreeOn_eliminate`: a state with one way in, one loop and one way out is
  the same as a single edge from the source to the target.
-/

namespace LogSurgeon.Lib

/-- A graph on the states `σ` whose edges carry languages over `α`. -/
abbrev LangGraph (σ α : Type*) := σ → σ → Language α

namespace LangGraph

variable {σ α : Type*} {E E' X : LangGraph σ α} {S : Set σ}
variable {p q r s : σ} {u v w : List α}

/-! ## Walks -/

/-- `Walk E p w q`: some walk from `p` to `q` spells `w`. -/
inductive Walk (E : LangGraph σ α) : σ → List α → σ → Prop where
  | nil (p : σ) : Walk E p [] p
  | cons {p q r : σ} {u v : List α} (hedge : u ∈ E p q) (hwalk : Walk E q v r) :
      Walk E p (u ++ v) r

/-- The words that some walk from `p` to `q` spells. -/
def reach (E : LangGraph σ α) (p q : σ) : Language α := {w | Walk E p w q}

@[simp] theorem mem_reach : w ∈ reach E p q ↔ Walk E p w q := Iff.rfl

theorem Walk.single (h : u ∈ E p q) : Walk E p u q := by
  have hwalk := Walk.cons h (Walk.nil q)
  rwa [List.append_nil] at hwalk

theorem Walk.append (hpq : Walk E p u q) (hqr : Walk E q v r) :
    Walk E p (u ++ v) r := by
  induction hpq with
  | nil => exact hqr
  | cons hedge _ ih =>
    rw [List.append_assoc]
    exact Walk.cons hedge (ih hqr)

theorem Walk.snoc (hpq : Walk E p u q) (hedge : v ∈ E q r) : Walk E p (u ++ v) r :=
  hpq.append (Walk.single hedge)

/-- A walk stays a walk when edges are added. -/
theorem Walk.mono (hle : ∀ p q w, w ∈ E p q → w ∈ E' p q) (h : Walk E p w q) :
    Walk E' p w q := by
  induction h with
  | nil => exact Walk.nil _
  | cons hedge _ ih => exact Walk.cons (hle _ _ _ hedge) ih

/-- A word of `L` in front of a word of the star of `L`. -/
theorem cons_mem_kstar {L : Language α} (hu : u ∈ L) (hv : v ∈ KStar.kstar L) :
    u ++ v ∈ KStar.kstar L := by
  obtain ⟨ws, rfl, hws⟩ := hv
  refine ⟨u :: ws, by simp, ?_⟩
  intro z hz
  rcases List.mem_cons.1 hz with rfl | hz
  · exact hu
  · exact hws z hz

/-- A word of the star of a loop is spelt by a walk that stays on the loop. -/
theorem Walk.loop (h : w ∈ KStar.kstar (E p p)) : Walk E p w p := by
  obtain ⟨ws, rfl, hws⟩ := h
  induction ws with
  | nil => exact Walk.nil p
  | cons x ws ih =>
    rw [List.flatten_cons]
    exact Walk.cons (hws x (by simp)) (ih fun y hy => hws y (by simp [hy]))

/-! ## Single edges -/

/-- The graph whose only edge goes from `p` to `q` and carries `L`. -/
def edge (p q : σ) (L : Language α) : LangGraph σ α :=
  fun x y => {w | x = p ∧ y = q ∧ w ∈ L}

@[simp] theorem mem_edge {L : Language α} {x y : σ} :
    w ∈ edge p q L x y ↔ x = p ∧ y = q ∧ w ∈ L := Iff.rfl

theorem mem_sup {x y : σ} : w ∈ (E ⊔ E') x y ↔ w ∈ E x y ∨ w ∈ E' x y := Iff.rfl

theorem edge_zero (p q : σ) : edge p q (0 : Language α) = ⊥ := by
  funext x y
  ext w
  exact ⟨fun h => h.2.2, fun h => h.elim⟩

theorem edge_add (p q : σ) (L M : Language α) :
    edge p q (L + M) = edge p q L ⊔ edge p q M := by
  funext x y
  ext w
  constructor
  · rintro ⟨hx, hy, hw | hw⟩
    · exact Or.inl ⟨hx, hy, hw⟩
    · exact Or.inr ⟨hx, hy, hw⟩
  · rintro (⟨hx, hy, hw⟩ | ⟨hx, hy, hw⟩)
    · exact ⟨hx, hy, Or.inl hw⟩
    · exact ⟨hx, hy, Or.inr hw⟩

/-! ## Graphs that agree on a set of states -/

/-- The two graphs read the same words between any two states of `S`. -/
def AgreeOn (S : Set σ) (E E' : LangGraph σ α) : Prop :=
  ∀ p ∈ S, ∀ q ∈ S, ∀ w, Walk E p w q ↔ Walk E' p w q

theorem AgreeOn.refl (S : Set σ) (E : LangGraph σ α) : AgreeOn S E E :=
  fun _ _ _ _ _ => Iff.rfl

theorem AgreeOn.symm (h : AgreeOn S E E') : AgreeOn S E' E :=
  fun p hp q hq w => (h p hp q hq w).symm

theorem AgreeOn.trans {E'' : LangGraph σ α} (h : AgreeOn S E E')
    (h' : AgreeOn S E' E'') : AgreeOn S E E'' :=
  fun p hp q hq w => (h p hp q hq w).trans (h' p hp q hq w)

theorem AgreeOn.mono {T : Set σ} (hsub : T ⊆ S) (h : AgreeOn S E E') :
    AgreeOn T E E' :=
  fun p hp q hq w => h p (hsub hp) q (hsub hq) w

/-- Every edge of `X` joins two states of `S`. -/
def SupportedOn (S : Set σ) (X : LangGraph σ α) : Prop :=
  ∀ p q w, w ∈ X p q → p ∈ S ∧ q ∈ S

theorem supportedOn_edge (hp : p ∈ S) (hq : q ∈ S) (L : Language α) :
    SupportedOn S (edge p q L) := by
  rintro _ _ _ ⟨rfl, rfl, _⟩
  exact ⟨hp, hq⟩

theorem SupportedOn.sup (h : SupportedOn S E) (h' : SupportedOn S E') :
    SupportedOn S (E ⊔ E') := by
  rintro p q w (hw | hw)
  · exact h p q w hw
  · exact h' p q w hw

theorem SupportedOn.mono {T : Set σ} (hsub : S ⊆ T) (h : SupportedOn S E) :
    SupportedOn T E :=
  fun p q w hw => ⟨hsub (h p q w hw).1, hsub (h p q w hw).2⟩

/-- A walk of `E ⊔ X` that ends in `S` first runs in `E` to a state of `S`
and then runs in `E' ⊔ X`. -/
private theorem Walk.split_of_agreeOn (hagree : AgreeOn S E E')
    (hX : SupportedOn S X) (h : Walk (E ⊔ X) p w q) (hq : q ∈ S) :
    ∃ s ∈ S, ∃ u v, w = u ++ v ∧ Walk E p u s ∧ Walk (E' ⊔ X) s v q := by
  induction h with
  | nil p => exact ⟨p, hq, [], [], rfl, Walk.nil p, Walk.nil p⟩
  | @cons p p' r x y hedge _ ih =>
    obtain ⟨s, hs, u, v, rfl, hE, hE'⟩ := ih hq
    rcases hedge with hedge | hedge
    · exact ⟨s, hs, x ++ u, v, by rw [List.append_assoc], Walk.cons hedge hE, hE'⟩
    · obtain ⟨hp, hp'⟩ := hX _ _ _ hedge
      have hmid : Walk (E' ⊔ X) p' u s :=
        ((hagree p' hp' s hs u).1 hE).mono fun _ _ _ => Or.inl
      have hhead : x ∈ (E' ⊔ X) p p' := Or.inr hedge
      exact ⟨p, hp, [], x ++ (u ++ v), rfl, Walk.nil p,
        Walk.cons hhead (hmid.append hE')⟩

private theorem AgreeOn.sup_imp (hagree : AgreeOn S E E') (hX : SupportedOn S X)
    (hp : p ∈ S) (hq : q ∈ S) (h : Walk (E ⊔ X) p w q) : Walk (E' ⊔ X) p w q := by
  obtain ⟨s, hs, u, v, rfl, hE, hE'⟩ := h.split_of_agreeOn hagree hX hq
  exact (((hagree p hp s hs u).1 hE).mono fun _ _ _ => Or.inl).append hE'

/-- Adding the same edges between states of `S` keeps the agreement on `S`. -/
theorem AgreeOn.sup (hagree : AgreeOn S E E') (hX : SupportedOn S X) :
    AgreeOn S (E ⊔ X) (E' ⊔ X) :=
  fun _ hp _ hq _ =>
    ⟨hagree.sup_imp hX hp hq, hagree.symm.sup_imp hX hp hq⟩

/-! ## Elimination of a state -/

/-- No edge of `E` enters or leaves `s`. -/
def Isolated (E : LangGraph σ α) (s : σ) : Prop :=
  ∀ x w, w ∉ E s x ∧ w ∉ E x s

theorem SupportedOn.isolated (h : SupportedOn S E) (hs : s ∉ S) : Isolated E s :=
  fun x w => ⟨fun hw => hs (h s x w hw).1, fun hw => hs (h x s w hw).2⟩

/-- The graph of a state `s` with one way in from `p`, one loop and one way
out to `q`. -/
def detour (p s q : σ) (F G H : Language α) : LangGraph σ α :=
  edge p s F ⊔ edge s s G ⊔ edge s q H

variable {F G H : Language α}

/-- The word that completes the edge through `s` when the walk starts at `s`
itself. -/
private theorem Walk.of_detour (hs : Isolated E s) (hps : p ≠ s) (hqs : q ≠ s)
    {x y : σ} (h : Walk (E ⊔ detour p s q F G H) x w y) (hy : y ≠ s) :
    (x ≠ s → Walk (E ⊔ edge p q (F * KStar.kstar G * H)) x w y) ∧
    (x = s → ∃ u ∈ KStar.kstar G * H, ∃ v, w = u ++ v ∧
      Walk (E ⊔ edge p q (F * KStar.kstar G * H)) q v y) := by
  induction h with
  | nil x => exact ⟨fun _ => Walk.nil x, fun hx => absurd hx hy⟩
  | @cons x x' y a b hedge hrest ih =>
    obtain ⟨ihne, iheq⟩ := ih hy
    rcases hedge with hE | ((⟨rfl, rfl, ha⟩ | ⟨rfl, rfl, ha⟩) | ⟨rfl, rfl, ha⟩)
    · refine ⟨fun hx => ?_, fun hx => ?_⟩
      · have hx' : x' ≠ s := by
          rintro rfl
          exact (hs x a).2 hE
        exact Walk.cons (Or.inl hE) (ihne hx')
      · subst hx
        exact absurd hE (hs x' a).1
    · refine ⟨fun _ => ?_, fun hx => absurd hx hps⟩
      obtain ⟨u, hu, v, rfl, hwalk⟩ := iheq rfl
      rw [← List.append_assoc]
      refine Walk.cons (Or.inr ⟨rfl, rfl, ?_⟩) hwalk
      rw [mul_assoc]
      exact Language.append_mem_mul ha hu
    · refine ⟨fun hx => absurd rfl hx, fun _ => ?_⟩
      obtain ⟨u, hu, v, rfl, hwalk⟩ := iheq rfl
      refine ⟨a ++ u, ?_, v, by rw [List.append_assoc], hwalk⟩
      obtain ⟨c, hc, d, hd, rfl⟩ := Language.mem_mul.1 hu
      rw [← List.append_assoc]
      exact Language.append_mem_mul (cons_mem_kstar ha hc) hd
    · refine ⟨fun hx => absurd rfl hx, fun _ => ?_⟩
      refine ⟨a, ?_, b, rfl, ihne hqs⟩
      have h1 : ([] : List α) ∈ KStar.kstar G := Language.nil_mem_kstar G
      simpa using Language.append_mem_mul h1 ha

/-- The word of the shortcut edge is spelt by the walk through `s`. -/
private theorem walk_detour (hw : w ∈ F * KStar.kstar G * H) :
    Walk (detour p s q F G H) p w q := by
  obtain ⟨u, hu, c, hc, rfl⟩ := Language.mem_mul.1 hw
  obtain ⟨a, ha, b, hb, rfl⟩ := Language.mem_mul.1 hu
  have h1 : Walk (detour p s q F G H) p a s :=
    Walk.single (Or.inl (Or.inl ⟨rfl, rfl, ha⟩))
  have h2 : Walk (detour p s q F G H) s b s := by
    refine Walk.mono (E := edge s s G) ?_ (Walk.loop ?_)
    · intro x y z hz
      exact Or.inl (Or.inr hz)
    · have : edge s s G s s = G := by
        ext z
        simp
      rwa [this]
  exact (h1.append h2).snoc (Or.inr ⟨rfl, rfl, hc⟩)

/-- A fresh state `s` with one way in, one loop and one way out may be
replaced by one edge, as far as the other states are concerned. -/
theorem agreeOn_eliminate (hs : Isolated E s) (hps : p ≠ s) (hqs : q ≠ s) :
    AgreeOn {x | x ≠ s} (E ⊔ detour p s q F G H)
      (E ⊔ edge p q (F * KStar.kstar G * H)) := by
  intro x hx y hy w
  constructor
  · intro h
    exact (h.of_detour hs hps hqs hy).1 hx
  · intro h
    induction h with
    | nil => exact Walk.nil _
    | @cons x x' y a b hedge hrest ih =>
      rcases hedge with hE | ⟨rfl, rfl, ha⟩
      · have hx' : x' ≠ s := by
          rintro rfl
          exact (hs x a).2 hE
        exact Walk.cons (Or.inl hE) (ih hx' hy)
      · exact ((walk_detour ha).mono fun _ _ _ => Or.inr).append (ih hqs hy)

/-! ## A state that is only entered -/

theorem detour_zero (p s q : σ) : detour p s q F G 0 = edge p s F ⊔ edge s s G := by
  rw [detour, edge_zero, sup_bot_eq]

/-- A fresh state without a way out does not matter to the other states. -/
theorem agreeOn_sink (hs : Isolated E s) (hps : p ≠ s) :
    AgreeOn {x | x ≠ s} (E ⊔ (edge p s F ⊔ edge s s G)) E := by
  have h := agreeOn_eliminate (F := F) (G := G) (H := 0) hs hps hps
  rwa [detour_zero, mul_zero, edge_zero, sup_bot_eq] at h

private theorem Walk.of_sink (hs : Isolated E s) (hps : p ≠ s) {x y : σ}
    (h : Walk (E ⊔ (edge p s F ⊔ edge s s G)) x w y) (hy : y = s) :
    (x = s → w ∈ KStar.kstar G) ∧
      (x ≠ s → ∃ u v, w = u ++ v ∧ Walk E x u p ∧ v ∈ F * KStar.kstar G) := by
  induction h with
  | nil x => exact ⟨fun _ => Language.nil_mem_kstar G, fun hx => absurd hy hx⟩
  | @cons x x' y a b hedge _ ih =>
    obtain ⟨iheq, ihne⟩ := ih hy
    rcases hedge with hE | (⟨rfl, rfl, ha⟩ | ⟨rfl, rfl, ha⟩)
    · refine ⟨fun hx => ?_, fun _ => ?_⟩
      · subst hx
        exact absurd hE (hs x' a).1
      · have hx' : x' ≠ s := by
          rintro rfl
          exact (hs x a).2 hE
        obtain ⟨u, v, rfl, hwalk, hv⟩ := ihne hx'
        exact ⟨a ++ u, v, by rw [List.append_assoc], Walk.cons hE hwalk, hv⟩
    · refine ⟨fun hx => absurd hx hps, fun _ => ?_⟩
      exact ⟨[], a ++ b, rfl, Walk.nil x, Language.append_mem_mul ha (iheq rfl)⟩
    · exact ⟨fun _ => cons_mem_kstar ha (iheq rfl), fun hx => absurd rfl hx⟩

/-- The words from `p` into a fresh state `s` that has only a loop. -/
theorem walk_sink_iff (hs : Isolated E s) (hps : p ≠ s) :
    Walk (E ⊔ (edge p s F ⊔ edge s s G)) p w s ↔
      w ∈ reach E p p * (F * KStar.kstar G) := by
  constructor
  · intro h
    obtain ⟨u, v, rfl, hwalk, hv⟩ := (h.of_sink hs hps rfl).2 hps
    exact Language.append_mem_mul hwalk hv
  · intro h
    obtain ⟨u, hu, v, hv, rfl⟩ := Language.mem_mul.1 h
    obtain ⟨a, ha, b, hb, rfl⟩ := Language.mem_mul.1 hv
    have hloop : Walk (edge s s G) s b s := by
      refine Walk.loop ?_
      have hG : edge s s G s s = G := by
        ext z
        simp
      rwa [hG]
    have hin : a ∈ (E ⊔ (edge p s F ⊔ edge s s G)) p s := Or.inr (Or.inl ⟨rfl, rfl, ha⟩)
    refine (Walk.mono (fun _ _ _ => Or.inl) hu).append (Walk.cons hin (hloop.mono ?_))
    exact fun _ _ _ hz => Or.inr (Or.inr hz)

end LangGraph

end LogSurgeon.Lib
