import LogSurgeon.Lib.Sentences

/-!
# Shift-reduce machines

A machine keeps a stack of states, each with the value of the symbol that led
to it.  A token may be read as one of several symbols, and the first of them
that has a move decides.

* `SoundItems`: what the items of the states say about the moves.  A machine
  with such items reads sentences only, and its reductions find their symbols
  and their next state.
* `CompleteItems`: items with a lookahead that are closed under the moves.  A
  machine with such items accepts every sentence, so a sentence has one value.
-/

namespace LogSurgeon.Lib

inductive Move (Q ι : Type*) where
  | error
  | accept
  | shift (q : Q)
  | reduce (i : ι)

structure ShiftReduce (σ Q ι τ V : Type*) extends Semantics σ ι τ V where
  root : Q
  move : Q → σ → Move Q ι

namespace ShiftReduce

open Grammar Semantics

variable {σ Q ι τ V : Type*} (m : ShiftReduce σ Q ι τ V)

/-! ## The machine -/

/-- The first move for one of the symbols. -/
def look (q : Q) : List σ → Move Q ι
  | [] => .error
  | a :: as =>
    match m.move q a with
    | .error => look q as
    | move => move

def top : List (Q × V) → Q
  | [] => m.root
  | (q, _) :: _ => q

/-- The values of the body become the value of the head. -/
def reduce (i : ι) (stack : List (Q × V)) : Option (List (Q × V)) :=
  let n := (m.rule i).body.length
  if stack.length < n then none
  else
    match m.move (m.top (stack.drop n)) (m.rule i).head with
    | .shift q => some ((q, m.node i ((stack.take n).map Prod.snd).reverse) :: stack.drop n)
    | _ => none

/-- A step on the stack and the tokens that are left. -/
def step : List (Q × V) × List τ → Option (List (Q × V) × List τ)
  | (_, []) => none
  | (stack, t :: input) =>
    match m.look (m.top stack) (m.types t) with
    | .shift q => some ((q, m.leaf t) :: stack, input)
    | .reduce i => (m.reduce i stack).map fun stack => (stack, t :: input)
    | _ => none

def steps : Nat → List (Q × V) × List τ → Option (List (Q × V) × List τ)
  | 0, c => some c
  | n + 1, c => (m.step c).bind (steps n)

/-- The machine stops and accepts. -/
def Accepts (c : List (Q × V) × List τ) : Prop :=
  ∃ t input, c.2 = t :: input ∧ m.look (m.top c.1) (m.types t) = .accept

variable {m} {q q' : Q} {a : σ} {as : List σ} {i : ι} {t : τ} {input : List τ} {v : V}
  {stack stack' : List (Q × V)} {c c' : List (Q × V) × List τ} {n n' : Nat}

@[simp] theorem top_nil : m.top ([] : List (Q × V)) = m.root := rfl

@[simp] theorem top_cons : m.top ((q, v) :: stack) = q := rfl

@[simp] theorem look_singleton : m.look q [a] = m.move q a := by
  unfold look
  cases m.move q a <;> rfl

/-- A move is the move for one of the symbols. -/
theorem exists_move_of_look {move : Move Q ι} (h : m.look q as = move) (hne : move ≠ .error) :
    ∃ a ∈ as, m.move q a = move := by
  induction as with
  | nil => exact absurd h.symm hne
  | cons a as ih =>
    unfold look at h
    split at h
    · obtain ⟨b, hb, hmove⟩ := ih h
      exact ⟨b, List.mem_cons_of_mem a hb, hmove⟩
    · exact ⟨a, List.mem_cons_self, h⟩

theorem reduce_eq_some (hlength : (m.rule i).body.length ≤ stack.length)
    (hgoto : m.move (m.top (stack.drop (m.rule i).body.length)) (m.rule i).head = .shift q) :
    m.reduce i stack =
      some ((q, m.node i ((stack.take (m.rule i).body.length).map Prod.snd).reverse) ::
        stack.drop (m.rule i).body.length) := by
  unfold reduce
  dsimp only
  rw [if_neg (by omega), hgoto]

theorem step_shift (h : m.look (m.top stack) (m.types t) = .shift q) :
    m.step (stack, t :: input) = some ((q, m.leaf t) :: stack, input) := by
  unfold step
  dsimp only
  rw [h]

theorem step_reduce (h : m.look (m.top stack) (m.types t) = .reduce i)
    (hreduce : m.reduce i stack = some stack') :
    m.step (stack, t :: input) = some (stack', t :: input) := by
  unfold step
  dsimp only
  rw [h]
  dsimp only
  rw [hreduce]
  rfl

theorem steps_succ : m.steps (n + 1) c = (m.step c).bind (m.steps n) := rfl

theorem steps_add : m.steps (n + n') c = (m.steps n c).bind (m.steps n') := by
  induction n generalizing c with
  | zero =>
    rw [Nat.zero_add]
    rfl
  | succ n ih =>
    have hshift : n + 1 + n' = n + n' + 1 := by omega
    rw [hshift, steps_succ, steps_succ]
    cases m.step c with
    | none => rfl
    | some c₁ => exact ih

theorem steps_trans (h : m.steps n c = some c') (n' : Nat) :
    m.steps (n + n') c = m.steps n' c' := by
  rw [steps_add, h]
  rfl

theorem steps_one : m.steps 1 c = m.step c := by
  rw [steps_succ]
  cases m.step c <;> rfl

/-- A machine that accepts does not go on. -/
theorem Accepts.step_eq_none (h : m.Accepts c) : m.step c = none := by
  obtain ⟨stack, input⟩ := c
  obtain ⟨t, rest, rfl, hlook⟩ := h
  unfold step
  dsimp only at hlook ⊢
  rw [hlook]

/-- No run is longer than one that accepts. -/
theorem Accepts.le (h : m.Accepts c) {c₀ : List (Q × V) × List τ}
    (hsteps : m.steps n c₀ = some c) (hsteps' : m.steps n' c₀ = some c') : n' ≤ n := by
  by_contra hlt
  have hsplit : n' = n + (n' - n - 1 + 1) := by omega
  rw [hsplit, steps_trans hsteps] at hsteps'
  rw [steps_succ] at hsteps'
  rw [h.step_eq_none] at hsteps'
  cases hsteps'

/-- A run that has not accepted yet goes on. -/
theorem Accepts.exists_step (h : m.Accepts c) {c₀ : List (Q × V) × List τ}
    (hsteps : m.steps n c₀ = some c) (hsteps' : m.steps n' c₀ = some c') (hne : n' ≠ n) :
    ∃ c'', m.step c' = some c'' := by
  have hle := h.le hsteps hsteps'
  have hsplit : n = n' + (n - n' - 1 + 1) := by omega
  rw [hsplit, steps_trans hsteps'] at hsteps
  rw [steps_succ] at hsteps
  obtain ⟨c'', hstep, -⟩ := Option.bind_eq_some_iff.1 hsteps
  exact ⟨c'', hstep⟩

/-- The machine accepts after one number of steps only. -/
theorem Accepts.unique (h : m.Accepts c) (h' : m.Accepts c') {c₀ : List (Q × V) × List τ}
    (hsteps : m.steps n c₀ = some c) (hsteps' : m.steps n' c₀ = some c') : n = n' ∧ c = c' := by
  have heq : n = n' := Nat.le_antisymm (h'.le hsteps' hsteps) (h.le hsteps hsteps')
  subst heq
  rw [hsteps] at hsteps'
  exact ⟨rfl, Option.some.inj hsteps'⟩

/-! ## Sound items -/

/-- The symbols that led to the states of the stack. -/
inductive Linked (m : ShiftReduce σ Q ι τ V) : List (Q × V) → List σ → Prop
  | nil : Linked m [] []
  | push {stack : List (Q × V)} {xs : List σ} {a : σ} {q : Q} {v : V} : Linked m stack xs →
      m.move (m.top stack) a = .shift q → Linked m ((q, v) :: stack) (a :: xs)

/-- `Items q i d`: in the state `q` the body of the rule `i` may have been read
up to `d`. -/
structure SoundItems (m : ShiftReduce σ Q ι τ V) (start : ι)
    (Items : Q → ι → Nat → Prop) : Prop where
  root : ∀ i d, Items m.root i d → d = 0
  back : ∀ q a q', m.move q a = .shift q' → ∀ i d, Items q' i (d + 1) →
    (m.rule i).body[d]? = some a ∧ Items q i d
  reduce : ∀ q a i, m.move q a = .reduce i →
    m.IsRule i ∧ i ≠ start ∧ Items q i (m.rule i).body.length
  goto : ∀ q i, Items q i 0 → i ≠ start → ∃ q', m.move q (m.rule i).head = .shift q'
  accept : ∀ q a, m.move q a = .accept → Items q start (m.rule start).body.length
  onlyRoot : ∀ q, Items q start 0 → q = m.root
  neverRoot : ∀ q a q', m.move q a = .shift q' → q' ≠ m.root

variable {xs ys : List σ} {w w' : List τ} {vs vs' : List V} {start : ι} {Items : Q → ι → Nat → Prop}

theorem Linked.length_eq (h : m.Linked stack xs) : xs.length = stack.length := by
  induction h with
  | nil => rfl
  | push _ _ ih => simp [ih]

theorem Linked.drop (h : m.Linked stack xs) (n : Nat) : m.Linked (stack.drop n) (xs.drop n) := by
  induction h generalizing n with
  | nil =>
    rw [List.drop_nil, List.drop_nil]
    exact .nil
  | push hstack hmove ih =>
    cases n with
    | zero => exact .push hstack hmove
    | succ n => exact ih n

/-- The items of the top state describe the stack below it. -/
theorem SoundItems.pop (hm : m.SoundItems start Items) {d : Nat}
    (h : m.Linked stack xs) (hitem : Items (m.top stack) i d) :
    d ≤ stack.length ∧ Items (m.top (stack.drop d)) i 0 ∧
      (xs.take d).reverse = (m.rule i).body.take d := by
  induction d generalizing stack xs with
  | zero => exact ⟨Nat.zero_le _, hitem, by simp⟩
  | succ d ih =>
    cases h with
    | nil => exact absurd (hm.root i (d + 1) hitem) (Nat.succ_ne_zero d)
    | @push stack xs a q v hstack hmove =>
      obtain ⟨hsymbol, hbelow⟩ := hm.back _ _ _ hmove i d hitem
      obtain ⟨hle, hfirst, hbody⟩ := ih hstack hbelow
      refine ⟨by simp [hle], hfirst, ?_⟩
      rw [List.take_succ_cons, List.reverse_cons, hbody, List.take_add_one, hsymbol]
      rfl

/-- The tokens were read, and the values are theirs. -/
def HasRead (m : ShiftReduce σ Q ι τ V) (stack : List (Q × V))
    (w : List τ) : Prop :=
  ∃ xs, m.Linked stack xs ∧ m.Evaluates xs.reverse w (stack.map Prod.snd).reverse

theorem hasRead_nil : m.HasRead [] [] := ⟨[], .nil, .nil⟩

theorem HasRead.shift (h : m.HasRead stack w) (ht : a ∈ m.types t)
    (hmove : m.move (m.top stack) a = .shift q) :
    m.HasRead ((q, m.leaf t) :: stack) (w ++ [t]) := by
  obtain ⟨xs, hlinked, hvalues⟩ := h
  refine ⟨a :: xs, .push hlinked hmove, ?_⟩
  rw [List.reverse_cons, List.map_cons, List.reverse_cons]
  exact hvalues.append (.token ht .nil)

/-- A reduction finds the symbols of the body on the stack, and a state for the
head. -/
theorem HasRead.reduce (hm : m.SoundItems start Items) (h : m.HasRead stack w)
    (hmove : m.move (m.top stack) a = .reduce i) :
    ∃ stack', m.reduce i stack = some stack' ∧ m.HasRead stack' w := by
  obtain ⟨xs, hlinked, hvalues⟩ := h
  obtain ⟨hrule, hstart, hitem⟩ := hm.reduce _ _ _ hmove
  obtain ⟨hle, hfirst, hbody⟩ := hm.pop hlinked hitem
  obtain ⟨q, hgoto⟩ := hm.goto _ _ hfirst hstart
  rw [List.take_length] at hbody
  refine ⟨_, reduce_eq_some hle hgoto, (m.rule i).head :: xs.drop (m.rule i).body.length,
    .push (hlinked.drop _) hgoto, ?_⟩
  generalize hn : (m.rule i).body.length = n at hle hbody
  -- The symbols and the values are split at the place where the body starts.
  have hsymbols : xs.reverse = (xs.drop n).reverse ++ (m.rule i).body := by
    rw [← hbody, ← List.reverse_append, List.take_append_drop]
  rw [hsymbols] at hvalues
  obtain ⟨w₁, w₂, vs₁, vs₂, rfl, hsplit, h₁, h₂⟩ := hvalues.exists_append
  have hlength : vs₂.length = n := h₂.length_eq.trans hn
  have hparts : vs₂.reverse ++ vs₁.reverse = (stack.take n).map Prod.snd ++
      (stack.drop n).map Prod.snd := by
    rw [← List.map_append, List.take_append_drop, ← List.reverse_append, ← hsplit,
      List.reverse_reverse]
  have htake : vs₂.reverse.length = ((stack.take n).map Prod.snd).length := by
    simp [hlength, hle]
  obtain ⟨hpopped, hkept⟩ := List.append_inj hparts htake
  have hnode := h₁.append (.rule hrule h₂ .nil)
  rw [List.append_nil] at hnode
  rw [List.reverse_cons, List.map_cons, List.reverse_cons, ← hpopped, ← hkept,
    List.reverse_reverse, List.reverse_reverse]
  exact hnode

/-- An accepting machine has reduced everything that it read to the start. -/
theorem HasRead.accept (hm : m.SoundItems start Items) (h : m.HasRead stack w)
    (hmove : m.move (m.top stack) a = .accept) :
    m.Evaluates (m.rule start).body w (stack.map Prod.snd).reverse := by
  obtain ⟨xs, hlinked, hvalues⟩ := h
  obtain ⟨hle, hfirst, hbody⟩ := hm.pop hlinked (hm.accept _ _ hmove)
  have hroot := hm.onlyRoot _ hfirst
  have hempty : xs.drop (m.rule start).body.length = [] := by
    have hbelow := hlinked.drop (m.rule start).body.length
    generalize stack.drop (m.rule start).body.length = below at hroot hbelow
    generalize xs.drop (m.rule start).body.length = ys at hbelow ⊢
    cases hbelow with
    | nil => rfl
    | push _ hshift => exact absurd hroot (hm.neverRoot _ _ _ hshift)
  rw [List.take_length] at hbody
  have hall : xs.take (m.rule start).body.length = xs := by
    have happend := List.take_append_drop (m.rule start).body.length xs
    rwa [hempty, List.append_nil] at happend
  rw [hall] at hbody
  rwa [hbody] at hvalues

/-! ## Complete items -/

/-- `Items q i d l`: in the state `q` the body of the rule `i` is read up to `d`,
and the lookahead behind it is `l`. -/
structure CompleteItems (m : ShiftReduce σ Q ι τ V) (productions : List (Production σ))
    (IsToken : σ → Prop) (start : ι) (endToken : σ)
    (Items : Q → ι → Nat → σ → Prop) : Prop where
  initial : Items m.root start 0 endToken
  closure : ∀ q i d l j a, Items q i d l → (m.rule i).body[d]? = some (m.rule j).head →
    m.IsRule j → Leads productions IsToken ((m.rule i).body.drop (d + 1)) l a → Items q j 0 a
  shift : ∀ q i d l a, Items q i d l → (m.rule i).body[d]? = some a →
    ∃ q', m.move q a = .shift q' ∧ Items q' i (d + 1) l
  reduce : ∀ q i l, m.IsRule i → Items q i (m.rule i).body.length l → m.move q l = .reduce i
  accept : ∀ q, Items q start (m.rule start).body.length endToken → m.move q endToken = .accept

section Complete

variable {productions : List (Production σ)} {IsToken : σ → Prop} {endToken l b : σ}
  {LookItems : Q → ι → Nat → σ → Prop}

/-- The machine reads a sentence of the next symbols of an item, and has their
values on the stack.  The induction is on the sentence. -/
theorem CompleteItems.exists_steps
    (hm : m.CompleteItems productions IsToken start endToken LookItems)
    (hrules : ∀ i, m.IsRule i → m.rule i ∈ productions) (h : m.Evaluates xs w vs)
    (htoken : ∀ t ∈ w, ∀ a ∈ m.types t, IsToken a)
    (hsingle : ∀ t ∈ w, ∃ a, m.types t = [a]) (stack : List (Q × V)) (ys : List σ)
    (input : List τ) {d : Nat} (hitem : LookItems (m.top stack) i d l)
    (hbody : (m.rule i).body.drop d = xs ++ ys) (hnext : m.types t = [b])
    (hleads : Leads productions IsToken ys l b) :
    ∃ n stack', m.steps n (stack, w ++ t :: input) = some (stack', t :: input) ∧
      LookItems (m.top stack') i (d + xs.length) l ∧
      stack'.map Prod.snd = vs.reverse ++ stack.map Prod.snd ∧
      stack'.drop vs.length = stack := by
  induction h generalizing stack i d l ys t input b with
  | nil => exact ⟨0, stack, rfl, hitem, rfl, rfl⟩
  | @token a t' xs w vs ha _ ih =>
    obtain ⟨hfirst, hlater⟩ := List.forall_mem_cons.1 hsingle
    have hsymbol : (m.rule i).body[d]? = some a := by
      rw [← List.head?_drop, hbody]
      rfl
    obtain ⟨q', hmove, hitem'⟩ := hm.shift _ _ _ _ _ hitem hsymbol
    obtain ⟨a', ha'⟩ := hfirst
    rw [ha', List.mem_singleton] at ha
    subst ha
    have hstep : m.step (stack, t' :: (w ++ t :: input)) =
        some ((q', m.leaf t') :: stack, w ++ t :: input) := by
      apply step_shift
      rw [ha', look_singleton, hmove]
    have hbody' : (m.rule i).body.drop (d + 1) = xs ++ ys := by
      rw [← List.drop_drop, hbody]
      rfl
    obtain ⟨n, stack', hsteps, hitem'', hvalues, hdrop⟩ :=
      ih (fun t ht => htoken t (List.mem_cons_of_mem t' ht)) hlater
        ((q', m.leaf t') :: stack) ys input hitem' hbody' hnext hleads
    refine ⟨1 + n, stack', ?_, ?_, ?_, ?_⟩
    · rw [List.cons_append, steps_trans (steps_one.trans hstep), hsteps]
    · rw [List.length_cons, Nat.add_comm xs.length, ← Nat.add_assoc]
      exact hitem''
    · rw [hvalues]
      simp
    · rw [List.length_cons, ← List.drop_drop, hdrop]
      rfl
  | @rule j xs w w' vs vs' hj hchild hrest ihchild ih =>
    rw [List.forall_mem_append] at htoken hsingle
    have hsymbol : (m.rule i).body[d]? = some (m.rule j).head := by
      rw [← List.head?_drop, hbody]
      rfl
    have hbody' : (m.rule i).body.drop (d + 1) = xs ++ ys := by
      rw [← List.drop_drop, hbody]
      rfl
    obtain ⟨t', input', a, hinput, hsingle', hleads'⟩ :=
      hrest.leads hrules htoken.2 hsingle.2 hnext hleads input
    rw [← hbody'] at hleads'
    have hchildItem := hm.closure _ _ _ _ _ _ hitem hsymbol hj hleads'
    obtain ⟨n₁, stack₁, hsteps₁, hitem₁, hvalues₁, hdrop₁⟩ :=
      ihchild htoken.1 hsingle.1 stack [] input' hchildItem
        (by rw [List.drop_zero, List.append_nil]) hsingle' (Or.inr ⟨by simp, rfl⟩)
    rw [Nat.zero_add] at hitem₁
    -- The symbols of the body are reduced to the head.
    obtain ⟨q', hgoto, hitem'⟩ := hm.shift _ _ _ _ _ hitem hsymbol
    have hlength : (m.rule j).body.length = vs'.length := hchild.length_eq.symm
    have htake : ((stack₁.take vs'.length).map Prod.snd).reverse = vs' := by
      rw [List.map_take, hvalues₁, List.take_left' (by simp), List.reverse_reverse]
    have hreduce : m.reduce j stack₁ = some ((q', m.node j vs') :: stack) := by
      have hle : (m.rule j).body.length ≤ stack₁.length := by
        have hcount := congrArg List.length hvalues₁
        simp at hcount
        omega
      rw [reduce_eq_some hle (by rw [hlength, hdrop₁, hgoto]), hlength, htake, hdrop₁]
    have hstep : m.step (stack₁, t' :: input') = some ((q', m.node j vs') :: stack, t' :: input') := by
      refine step_reduce ?_ hreduce
      rw [hsingle', look_singleton]
      exact hm.reduce _ _ _ hj hitem₁
    obtain ⟨n₂, stack₂, hsteps₂, hitem₂, hvalues₂, hdrop₂⟩ :=
      ih htoken.2 hsingle.2 ((q', m.node j vs') :: stack) ys input hitem' hbody' hnext hleads
    refine ⟨n₁ + (1 + n₂), stack₂, ?_, ?_, ?_, ?_⟩
    · rw [List.append_assoc, hinput, steps_trans hsteps₁, steps_trans (steps_one.trans hstep),
        ← hinput, hsteps₂]
    · rw [List.length_cons, Nat.add_comm xs.length, ← Nat.add_assoc]
      exact hitem₂
    · rw [hvalues₂]
      simp
    · rw [List.length_cons, ← List.drop_drop, hdrop₂]
      rfl

/-- Every sentence of the start in front of the end is accepted. -/
theorem CompleteItems.exists_accepts
    (hm : m.CompleteItems productions IsToken start endToken LookItems)
    (hrules : ∀ i, m.IsRule i → m.rule i ∈ productions)
    (h : m.Evaluates (m.rule start).body w vs)
    (htoken : ∀ t ∈ w, ∀ a ∈ m.types t, IsToken a)
    (hsingle : ∀ t ∈ w, ∃ a, m.types t = [a]) (hend : m.types t = [endToken])
    (input : List τ) :
    ∃ n stack', m.steps n ([], w ++ t :: input) = some (stack', t :: input) ∧
      stack'.map Prod.snd = vs.reverse ∧ m.Accepts (stack', t :: input) := by
  obtain ⟨n, stack', hsteps, hitem, hvalues, -⟩ :=
    hm.exists_steps hrules h htoken hsingle [] [] input hm.initial
      (by rw [List.drop_zero, List.append_nil]) hend (Or.inr ⟨by simp, rfl⟩)
  refine ⟨n, stack', hsteps, by simpa using hvalues, t, input, rfl, ?_⟩
  rw [Nat.zero_add] at hitem
  rw [hend, look_singleton]
  exact hm.accept _ hitem

/-- So a sentence has one value. -/
theorem CompleteItems.unique_values
    (hm : m.CompleteItems productions IsToken start endToken LookItems)
    (hrules : ∀ i, m.IsRule i → m.rule i ∈ productions)
    (h : m.Evaluates (m.rule start).body w vs)
    (h' : m.Evaluates (m.rule start).body w vs')
    (htoken : ∀ t ∈ w, ∀ a ∈ m.types t, IsToken a)
    (hsingle : ∀ t ∈ w, ∃ a, m.types t = [a]) (hend : m.types t = [endToken]) : vs = vs' := by
  obtain ⟨n, stack, hsteps, hvalues, haccepts⟩ :=
    hm.exists_accepts hrules h htoken hsingle hend []
  obtain ⟨n', stack', hsteps', hvalues', haccepts'⟩ :=
    hm.exists_accepts hrules h' htoken hsingle hend []
  obtain ⟨-, hsame⟩ := haccepts.unique haccepts' hsteps hsteps'
  obtain rfl : stack = stack' := congrArg Prod.fst hsame
  exact List.reverse_injective (hvalues.symm.trans hvalues')

end Complete

end ShiftReduce

end LogSurgeon.Lib
