import LogSurgeon.LogEventCopy
import Mathlib.Data.List.Pairwise

/-!
# The matches of the captures of a token

`getCaptureMatches` sorts the matches by their positions in the buffer, drops
a match with the positions of an earlier one, and takes a match for a leaf if
the next one does not start inside it.  What a caller wants is `ListsMatches`:
every match once, an outer capture in front of those inside it, the others in
the order of the text, and the leaves as the rules have them.

* `Matched` are the captures with a match and the positions of the match.
* `FollowsRules` is what the lexer keeps to: the spans lie in the token and are
  nested as the captures of the rules are.
* `Separated` says when the positions alone tell the captures apart.
-/

namespace LogSurgeon

/-! ## The ordered set -/

namespace CaptureMatch

variable {a b c x : CaptureMatch} {l : List CaptureMatch}

theorem before_iff :
    a.Before b ↔ a.startPos < b.startPos ∨ a.startPos = b.startPos ∧ b.endPos < a.endPos := by
  unfold Before
  split <;> omega

theorem Before.trans (hab : a.Before b) (hbc : b.Before c) : a.Before c := by
  rw [before_iff] at hab hbc ⊢
  omega

theorem Before.asymm (hab : a.Before b) : ¬ b.Before a := by
  rw [before_iff] at hab ⊢
  omega

theorem Before.startPos_le (hab : a.Before b) : a.startPos ≤ b.startPos := by
  rw [before_iff] at hab
  omega

/-- The positions of two matches are equal. -/
def SamePositions (a b : CaptureMatch) : Prop :=
  a.startPos = b.startPos ∧ a.endPos = b.endPos

theorem before_or_before (h : ¬ a.SamePositions b) : a.Before b ∨ b.Before a := by
  unfold SamePositions at h
  rw [before_iff, before_iff]
  omega

theorem Before.not_samePositions (hab : a.Before b) : ¬ a.SamePositions b := by
  unfold SamePositions
  rw [before_iff] at hab
  omega

theorem mem_of_mem_emplace (h : x ∈ emplace a l) : x = a ∨ x ∈ l := by
  induction l with
  | nil => simpa [emplace] using h
  | cons b bs ih =>
    unfold emplace at h
    split at h
    · simpa using h
    · split at h
      · rcases List.mem_cons.1 h with rfl | h
        · simp
        · have := ih h
          simp only [List.mem_cons]
          tauto
      · exact .inr h

theorem mem_emplace_of_mem (h : x ∈ l) : x ∈ emplace a l := by
  induction l with
  | nil => cases h
  | cons b bs ih =>
    unfold emplace
    split
    · exact List.mem_cons_of_mem _ h
    · split
      · rcases List.mem_cons.1 h with rfl | h
        · exact List.mem_cons_self
        · exact List.mem_cons_of_mem _ (ih h)
      · exact h

/-- The set has a match with the positions of `a`. -/
theorem exists_mem_emplace (a : CaptureMatch) (l : List CaptureMatch) :
    ∃ b ∈ emplace a l, a.SamePositions b := by
  induction l with
  | nil => exact ⟨a, by simp [emplace], rfl, rfl⟩
  | cons b bs ih =>
    unfold emplace
    split
    · exact ⟨a, List.mem_cons_self, rfl, rfl⟩
    · rename_i hab
      split
      · obtain ⟨c, hc, hsame⟩ := ih
        exact ⟨c, List.mem_cons_of_mem _ hc, hsame⟩
      · rename_i hba
        refine ⟨b, List.mem_cons_self, ?_⟩
        by_contra hsame
        exact (before_or_before hsame).elim hab hba

theorem pairwise_emplace (h : l.Pairwise Before) : (emplace a l).Pairwise Before := by
  induction l with
  | nil => simp [emplace]
  | cons b bs ih =>
    obtain ⟨hb, hbs⟩ := List.pairwise_cons.1 h
    unfold emplace
    split
    · rename_i hab
      refine List.pairwise_cons.2 ⟨?_, h⟩
      intro c hc
      rcases List.mem_cons.1 hc with rfl | hc
      · exact hab
      · exact hab.trans (hb c hc)
    · split
      · rename_i hba
        refine List.pairwise_cons.2 ⟨?_, ih hbs⟩
        intro c hc
        rcases mem_of_mem_emplace hc with rfl | hc
        · exact hba
        · exact hb c hc
      · exact h

/-! ## Leaves -/

/-- `a`, which is a leaf if no match of the list behind it starts inside it. -/
def withLeaf (l : List CaptureMatch) (a : CaptureMatch) : CaptureMatch :=
  { a with leaf := decide (∀ b ∈ l, a.Before b → a.endPos ≤ b.startPos) }

/-- Of the matches behind a match, the next one starts first. -/
theorem markLeaves_eq_map (h : l.Pairwise Before) : markLeaves l = l.map (withLeaf l) := by
  induction l with
  | nil => rfl
  | cons a bs ih =>
    obtain ⟨ha, hbs⟩ := List.pairwise_cons.1 h
    have hself : ¬ a.Before a := fun haa => haa.asymm haa
    have hrest : ∀ x ∈ bs, withLeaf (a :: bs) x = withLeaf bs x := by
      intro x hx
      have hxa : ¬ x.Before a := (ha x hx).asymm
      simp [withLeaf, hxa]
    rw [List.map_cons, List.map_congr_left hrest, ← ih hbs]
    cases bs with
    | nil => simp [markLeaves, withLeaf, hself]
    | cons b bs =>
      have hleaf : (∀ c ∈ a :: b :: bs, a.Before c → a.endPos ≤ c.startPos) ↔
          a.endPos ≤ b.startPos := by
        constructor
        · intro hall
          exact hall b (by simp) (ha b (by simp))
        · intro hle c hc hac
          rcases List.mem_cons.1 hc with rfl | hc
          · exact absurd hac hself
          · rcases List.mem_cons.1 hc with rfl | hc
            · exact hle
            · exact hle.trans ((List.pairwise_cons.1 hbs).1 c hc).startPos_le
      simp only [markLeaves, withLeaf, hleaf]

end CaptureMatch

/-! ## The captures of the rules -/

/-- The group of `c` has the group of `d` in it. -/
def RegexAST.Encloses (c d : Capture) : RegexAST → Prop
  | .empty _ | .literal _ _ | .group _ _ => False
  | .or _ l r | .cat _ l r => l.Encloses c d ∨ r.Encloses c d
  | .multiplication _ r _ _ => r.Encloses c d
  | .capture _ r c' => c = c' ∧ d ∈ r.subtreePositiveCaptures ∨ r.Encloses c d

theorem RegexAST.Encloses.mem {c d : Capture} {r : RegexAST} (h : r.Encloses c d) :
    c ∈ r.subtreePositiveCaptures ∧ d ∈ r.subtreePositiveCaptures := by
  induction r with
  | empty | literal | group => cases h
  | or _ l r ihl ihr | cat _ l r ihl ihr =>
    unfold subtreePositiveCaptures
    rw [List.mem_append, List.mem_append]
    rcases h with h | h
    · exact ⟨.inl (ihl h).1, .inl (ihl h).2⟩
    · exact ⟨.inr (ihr h).1, .inr (ihr h).2⟩
  | multiplication _ r _ _ ih => exact ih h
  | capture _ r c' ih =>
    unfold subtreePositiveCaptures
    rw [List.mem_append, List.mem_append, List.mem_singleton]
    rcases h with ⟨rfl, hd⟩ | h
    · exact ⟨.inr rfl, .inl hd⟩
    · exact ⟨.inl (ih h).1, .inl (ih h).2⟩

/-- Groups that occur once are not inside each other. -/
theorem RegexAST.Encloses.asymm {c d : Capture} {r : RegexAST}
    (hnodup : r.subtreePositiveCaptures.Nodup) (h : r.Encloses c d) : ¬ r.Encloses d c := by
  intro h'
  induction r with
  | empty | literal | group => cases h
  | or _ l r ihl ihr | cat _ l r ihl ihr =>
    obtain ⟨hl, hr, hdisjoint⟩ := List.nodup_append.1 hnodup
    rcases h with h | h
    · rcases h' with h' | h'
      · exact ihl hl h h'
      · exact hdisjoint c h.mem.1 c h'.mem.2 rfl
    · rcases h' with h' | h'
      · exact hdisjoint c h'.mem.2 c h.mem.1 rfl
      · exact ihr hr h h'
  | multiplication _ r _ _ ih => exact ih hnodup h h'
  | capture _ r c' ih =>
    obtain ⟨hr, -, hdisjoint⟩ := List.nodup_append.1 hnodup
    have hc' : c' ∉ r.subtreePositiveCaptures := fun hc' => hdisjoint c' hc' c' (by simp) rfl
    rcases h with ⟨rfl, hd⟩ | h
    · rcases h' with ⟨rfl, hc⟩ | h'
      · exact hc' hc
      · exact hc' h'.mem.2
    · rcases h' with ⟨rfl, hc⟩ | h'
      · exact hc' h.mem.2
      · exact ih hr h h'

/-- The captures of the rules of an id. -/
def capturesOf (rules : List LexicalRule) (id : Nat) : List Capture :=
  (rules.filter (·.variableId = id)).flatMap (·.getCaptures)

/-- In a rule of the id, the group of `c` has the group of `d` in it. -/
def Encloses (rules : List LexicalRule) (id : Nat) (c d : Capture) : Prop :=
  ∃ rule ∈ rules, rule.variableId = id ∧ rule.regex.Encloses c d

section Rules

variable {rules : List LexicalRule} {id : Nat} {c d : Capture}

theorem Encloses.asymm (hnodup : (capturesOf rules id).Nodup) (h : Encloses rules id c d) :
    ¬ Encloses rules id d c := by
  rintro ⟨rule', hrule', hid', h'⟩
  obtain ⟨rule, hrule, hid, h⟩ := h
  obtain ⟨hnodups, hdisjoint⟩ := List.nodup_flatMap.1 hnodup
  have hmem : rule ∈ rules.filter (·.variableId = id) :=
    List.mem_filter.2 ⟨hrule, by simpa using hid⟩
  have hmem' : rule' ∈ rules.filter (·.variableId = id) :=
    List.mem_filter.2 ⟨hrule', by simpa using hid'⟩
  by_cases heq : rule = rule'
  · subst heq
    exact h.asymm (hnodups rule hmem) h'
  · have hsymm : Std.Symm (Function.onFun List.Disjoint LexicalRule.getCaptures) :=
      ⟨fun _ _ hab => hab.symm⟩
    exact hdisjoint.forall hmem hmem' heq h.mem.1 h'.mem.2

theorem flatMap_getCaptures_filter (rules : List LexicalRule) :
    (rules.filter (·.getCaptures ≠ [])).flatMap (·.getCaptures) =
      rules.flatMap (·.getCaptures) := by
  induction rules with
  | nil => rfl
  | cons rule rules ih =>
    rw [List.filter_cons]
    by_cases hcaptures : rule.getCaptures = []
    · rw [if_neg (by simpa using hcaptures), ih, List.flatMap_cons, hcaptures, List.nil_append]
    · rw [if_pos (by simpa using hcaptures), List.flatMap_cons, List.flatMap_cons, ih]

/-- The table has the captures of the rules. -/
theorem lookup_ruleIdToCapture (h : capturesOf rules id ≠ []) :
    (ruleIdToCapture rules).lookup id = some (capturesOf rules id) := by
  have hsame : ((rules.filter (·.getCaptures ≠ [])).filter (·.variableId = id)).flatMap
      (·.getCaptures) = capturesOf rules id := by
    rw [List.filter_comm, flatMap_getCaptures_filter, capturesOf]
  have hmem : id ∈ ((rules.filter (·.getCaptures ≠ [])).map (·.variableId)).dedup := by
    obtain ⟨c, hc⟩ := List.exists_mem_of_ne_nil _ h
    rw [← hsame] at hc
    obtain ⟨rule, hrule, -⟩ := List.mem_flatMap.1 hc
    obtain ⟨hrule, hid⟩ := List.mem_filter.1 hrule
    exact List.mem_dedup.2 (List.mem_map.2 ⟨rule, hrule, by simpa using hid⟩)
  unfold ruleIdToCapture
  rw [List.lookup_graph _ hmem, hsame]

end Rules

/-! ## What the matches should be -/

/-- How far into the text of the token the position is. -/
def Token.offset (token : Token) (pos : Nat) : Nat :=
  if token.startPos ≤ pos then pos - token.startPos
  else token.bufferSize - token.startPos + pos

/-- The position is one of the token, or its end. -/
def Token.Holds (token : Token) (pos : Nat) : Prop :=
  if token.startPos ≤ token.endPos then token.startPos ≤ pos ∧ pos ≤ token.endPos
  else token.startPos ≤ pos ∧ pos < token.bufferSize ∨ pos ≤ token.endPos

/-- The span of the text between the positions. -/
def Token.textSpan (token : Token) (position : Nat × Nat) : Nat × Nat :=
  (token.offset position.1, token.offset position.2)

/-- One span ends before the other starts. -/
def Apart (x y : Nat × Nat) : Prop := x.2 ≤ y.1 ∨ y.2 ≤ x.1

instance (x y : Nat × Nat) : Decidable (Apart x y) := inferInstanceAs (Decidable (_ ∨ _))

/-- The span `x` comes before the span `y`, or lies around it if they are not
apart. -/
def AppearsFirst (x y : Nat × Nat) : Prop :=
  if Apart x y then ¬ y.2 ≤ x.1 else x.1 ≤ y.1 ∧ y.2 ≤ x.2

namespace Token

variable {token : Token} {p q : Nat}

/-- A position lies in front of the end of the buffer, or behind the wrap. -/
theorem Holds.cases (h : token.Holds p) (hstarts : token.startPos ≤ token.bufferSize) :
    token.startPos ≤ p ∧ token.offset p = p - token.startPos ∧
        (token.endPos < token.startPos → p < token.bufferSize) ∨
      p < token.startPos ∧ token.endPos < token.startPos ∧
        token.offset p = token.bufferSize - token.startPos + p := by
  unfold Holds at h
  unfold offset
  split at h
  · rw [if_pos h.1]
    omega
  · split
    · omega
    · omega

end Token

section RootVariable

variable (t : LexerTables) (rules : List LexicalRule) (id : Nat) (rootVar : Token)

/-- The token is of a variable with captures, and has their registers. -/
structure IsRootVariable : Prop where
  tables : t.ruleIdToCapture = ruleIdToCapture rules
  typed : rootVar.firstTypeId = .ok id
  hasCaptures : capturesOf rules id ≠ []
  nodup : (capturesOf rules id).Nodup
  registers : ∀ c ∈ capturesOf rules id,
    ∃ position, getCapturePosition t rootVar c = .ok position

/-- The capture has a match at the position. -/
def Matched (c : Capture) (position : Nat × Nat) : Prop :=
  c ∈ capturesOf rules id ∧ getCapturePosition t rootVar c = .ok (some position)

/-- The match `a` has to come before `b`: its group encloses the other one, or
neither does and it appears first in the text. -/
def Precedes (a b : CaptureMatch) : Prop :=
  Encloses rules id a.capture b.capture ∨
    ¬ Encloses rules id b.capture a.capture ∧
      AppearsFirst (rootVar.textSpan (a.startPos, a.endPos))
        (rootVar.textSpan (b.startPos, b.endPos))

/-- The list has every match once and in order, and tells the leaves. -/
structure ListsMatches (captureMatches : List CaptureMatch) : Prop where
  nodup : (captureMatches.map (·.capture)).Nodup
  all : ∀ c startPos endPos, (∃ leaf, ⟨c, startPos, endPos, leaf⟩ ∈ captureMatches) ↔
    Matched t rules id rootVar c (startPos, endPos)
  ordered : captureMatches.Pairwise fun a b => ¬ Precedes rules id rootVar b a
  leaf : ∀ a ∈ captureMatches, a.leaf ↔
    ∀ d position, Matched t rules id rootVar d position → ¬ Encloses rules id a.capture d

/-! ## What the positions tell -/

/-- The match that goes into the ordered set. -/
def matchAt (c : Capture) (position : Nat × Nat) : CaptureMatch :=
  ⟨c, position.1, position.2, true⟩

/-- The positions tell the matches apart, put them in order, and have a match
start inside another one exactly where a group encloses one that matched. -/
structure ToldByPositions : Prop where
  distinct : ∀ c d position, Matched t rules id rootVar c position →
    Matched t rules id rootVar d position → c = d
  order : ∀ c d position position', Matched t rules id rootVar c position →
    Matched t rules id rootVar d position' → c ≠ d →
    Precedes rules id rootVar (matchAt c position) (matchAt d position') →
    (matchAt c position).Before (matchAt d position')
  leaf : ∀ c position, Matched t rules id rootVar c position →
    ((∃ d position', Matched t rules id rootVar d position' ∧ Encloses rules id c d) ↔
      ∃ d position', Matched t rules id rootVar d position' ∧
        (matchAt c position).Before (matchAt d position') ∧ position'.1 < position.2)

/-- The spans lie in the token.  They are nested where the groups are, and the
others do not overlap. -/
structure FollowsRules : Prop where
  starts : rootVar.startPos ≤ rootVar.bufferSize
  inside : ∀ c position, Matched t rules id rootVar c position →
    rootVar.Holds position.1 ∧ rootVar.Holds position.2 ∧
      rootVar.offset position.1 ≤ rootVar.offset position.2
  nested : ∀ c d position position', Matched t rules id rootVar c position →
    Matched t rules id rootVar d position' → Encloses rules id c d →
    rootVar.offset position.1 ≤ rootVar.offset position'.1 ∧
      rootVar.offset position'.2 ≤ rootVar.offset position.2
  apart : ∀ c d position position', Matched t rules id rootVar c position →
    Matched t rules id rootVar d position' → c ≠ d → ¬ Encloses rules id c d →
    ¬ Encloses rules id d c → Apart (rootVar.textSpan position) (rootVar.textSpan position')

/-- No two matches share their positions, the matches start on one side of the
end of the buffer, an empty match does not touch the start of one that is not
around it, and a match around others has one of them start before its end. -/
structure Separated : Prop where
  distinct : ∀ c d position, Matched t rules id rootVar c position →
    Matched t rules id rootVar d position → c = d
  oneSide : ∀ c d position position', Matched t rules id rootVar c position →
    Matched t rules id rootVar d position' →
    (position.1 < rootVar.startPos ↔ position'.1 < rootVar.startPos)
  emptyInFront : ∀ c d startPos endPos, Matched t rules id rootVar c (startPos, startPos) →
    Matched t rules id rootVar d (startPos, endPos) → startPos < endPos → Encloses rules id d c
  startsInside : ∀ c d position position', Matched t rules id rootVar c position →
    Matched t rules id rootVar d position' → Encloses rules id c d →
    ∃ d' position'', Matched t rules id rootVar d' position'' ∧ Encloses rules id c d' ∧
      position''.1 < position.2

/-- The list is the ordered set of the matches. -/
structure OrdersMatches (ordered : List CaptureMatch) : Prop where
  sorted : ordered.Pairwise CaptureMatch.Before
  sound : ∀ a ∈ ordered,
    ∃ c position, Matched t rules id rootVar c position ∧ a = matchAt c position
  complete : ∀ c position, Matched t rules id rootVar c position →
    ∃ a ∈ ordered, (matchAt c position).SamePositions a

end RootVariable

section Matches

open CaptureMatch

variable {t : LexerTables} {rules : List LexicalRule} {id : Nat} {rootVar : Token}

/-- What the loop over the captures adds to the set. -/
theorem orderedMatches_spec {captures : List Capture} {acc : List CaptureMatch}
    (hread : ∀ c ∈ captures, ∃ position, getCapturePosition t rootVar c = .ok position)
    (hacc : acc.Pairwise Before) :
    ∃ ordered, orderedMatches t rootVar captures acc = .ok ordered ∧ ordered.Pairwise Before ∧
      (∀ a ∈ acc, a ∈ ordered) ∧
      (∀ a ∈ ordered, a ∈ acc ∨ ∃ c ∈ captures, ∃ position,
        getCapturePosition t rootVar c = .ok (some position) ∧ a = matchAt c position) ∧
      ∀ c ∈ captures, ∀ position, getCapturePosition t rootVar c = .ok (some position) →
        ∃ a ∈ ordered, (matchAt c position).SamePositions a := by
  induction captures generalizing acc with
  | nil => exact ⟨acc, rfl, hacc, fun a ha => ha, fun a ha => .inl ha, by simp⟩
  | cons c captures ih =>
    obtain ⟨position, hposition⟩ := hread c List.mem_cons_self
    have hreads : ∀ c ∈ captures, ∃ position, getCapturePosition t rootVar c = .ok position :=
      fun d hd => hread d (List.mem_cons_of_mem _ hd)
    unfold orderedMatches
    rw [hposition]
    cases position with
    | none =>
      obtain ⟨ordered, hok, hsorted, hkept, hsound, hcomplete⟩ := ih hreads hacc
      refine ⟨ordered, hok, hsorted, hkept, ?_, ?_⟩
      · intro a ha
        rcases hsound a ha with ha | ⟨d, hd, position, hd', rfl⟩
        · exact .inl ha
        · exact .inr ⟨d, List.mem_cons_of_mem _ hd, position, hd', rfl⟩
      · intro d hd position hd'
        rcases List.mem_cons.1 hd with rfl | hd
        · rw [hposition] at hd'
          cases hd'
        · exact hcomplete d hd position hd'
    | some position =>
      have hemplace := pairwise_emplace (a := matchAt c position) hacc
      obtain ⟨ordered, hok, hsorted, hkept, hsound, hcomplete⟩ := ih hreads hemplace
      refine ⟨ordered, hok, hsorted, fun a ha => hkept a (mem_emplace_of_mem ha), ?_, ?_⟩
      · intro a ha
        rcases hsound a ha with ha | ⟨d, hd, position', hd', rfl⟩
        · rcases mem_of_mem_emplace ha with rfl | ha
          · exact .inr ⟨c, List.mem_cons_self, position, hposition, rfl⟩
          · exact .inl ha
        · exact .inr ⟨d, List.mem_cons_of_mem _ hd, position', hd', rfl⟩
      · intro d hd position' hd'
        rcases List.mem_cons.1 hd with rfl | hd
        · obtain ⟨a, ha, hsame⟩ := exists_mem_emplace (matchAt d position) acc
          rw [hposition] at hd'
          cases hd'
          exact ⟨a, hkept a ha, hsame⟩
        · exact hcomplete d hd position' hd'

theorem getCaptureMatches_spec (h : IsRootVariable t rules id rootVar) :
    ∃ ordered, OrdersMatches t rules id rootVar ordered ∧
      getCaptureMatches t rootVar = .ok (some (ordered.map (withLeaf ordered))) := by
  obtain ⟨ordered, hok, hsorted, -, hsound, hcomplete⟩ :=
    orderedMatches_spec h.registers List.Pairwise.nil
  have hcaptures : t.getCapturesFromRuleId id = some (capturesOf rules id) := by
    unfold LexerTables.getCapturesFromRuleId
    rw [h.tables, lookup_ruleIdToCapture h.hasCaptures]
  refine ⟨ordered, ⟨hsorted, ?_, fun c position hc => hcomplete c hc.1 position hc.2⟩, ?_⟩
  · intro a ha
    rcases hsound a ha with ha | ⟨c, hc, position, hposition, rfl⟩
    · cases ha
    · exact ⟨c, position, ⟨hc, hposition⟩, rfl⟩
  · unfold getCaptureMatches
    rw [h.typed]
    simp only [bind, Except.bind, hcaptures, hok]
    rw [markLeaves_eq_map hsorted]
    rfl

theorem Matched.unique {c : Capture} {position position' : Nat × Nat}
    (h : Matched t rules id rootVar c position) (h' : Matched t rules id rootVar c position') :
    position = position' := by
  have heq := h.2.symm.trans h'.2
  cases heq
  rfl

theorem before_or_before_of_mem {R : CaptureMatch → CaptureMatch → Prop} {l : List CaptureMatch}
    (h : l.Pairwise R) {a b : CaptureMatch} (ha : a ∈ l) (hb : b ∈ l) (hne : a ≠ b) :
    R a b ∨ R b a := by
  have hsymm : Std.Symm fun a b => R a b ∨ R b a := ⟨fun _ _ => Or.symm⟩
  exact (h.imp (S := fun a b => R a b ∨ R b a) Or.inl).forall ha hb hne

section Ordered

variable {ordered : List CaptureMatch}

theorem OrdersMatches.nodup (h : OrdersMatches t rules id rootVar ordered) : ordered.Nodup := by
  refine h.sorted.imp ?_
  intro a b hbefore heq
  rw [heq] at hbefore
  exact hbefore.asymm hbefore

/-- If no two matches share their positions, the set has all of them. -/
theorem OrdersMatches.mem_iff (h : OrdersMatches t rules id rootVar ordered)
    (hdistinct : ∀ c d position, Matched t rules id rootVar c position →
      Matched t rules id rootVar d position → c = d) {a : CaptureMatch} :
    a ∈ ordered ↔
      ∃ c position, Matched t rules id rootVar c position ∧ a = matchAt c position := by
  constructor
  · exact h.sound a
  · intro hmatched
    obtain ⟨c, position, hc, rfl⟩ := hmatched
    obtain ⟨b, hb, hsame⟩ := h.complete c position hc
    obtain ⟨d, position', hd, rfl⟩ := h.sound b hb
    have hposition : position = position' := Prod.ext hsame.1 hsame.2
    subst hposition
    obtain rfl := hdistinct c d position hc hd
    exact hb

/-- A list with all matches tells them apart. -/
theorem distinct_of_listsMatches (h : OrdersMatches t rules id rootVar ordered)
    (hlists : ListsMatches t rules id rootVar (ordered.map (withLeaf ordered)))
    (c d : Capture) (position : Nat × Nat) (hc : Matched t rules id rootVar c position)
    (hd : Matched t rules id rootVar d position) : c = d := by
  have hmem : ∀ c, Matched t rules id rootVar c position →
      ∃ a ∈ ordered, a.capture = c ∧ a.SamePositions (matchAt c position) := by
    intro c hc
    obtain ⟨leaf, hleaf⟩ := (hlists.all c position.1 position.2).2 hc
    obtain ⟨a, ha, heq⟩ := List.mem_map.1 hleaf
    have hstart : a.startPos = position.1 := congrArg CaptureMatch.startPos heq
    have hend : a.endPos = position.2 := congrArg CaptureMatch.endPos heq
    exact ⟨a, ha, congrArg CaptureMatch.capture heq, hstart, hend⟩
  obtain ⟨a, ha, rfl, hastart, haend⟩ := hmem c hc
  obtain ⟨b, hb, rfl, hbstart, hbend⟩ := hmem d hd
  have hsame : a.SamePositions b := ⟨hastart.trans hbstart.symm, haend.trans hbend.symm⟩
  by_contra hne
  have hab : a ≠ b := fun hab => hne (by rw [hab])
  rcases before_or_before_of_mem h.sorted ha hb hab with hbefore | hbefore
  · exact hbefore.not_samePositions hsame
  · exact hbefore.not_samePositions ⟨hsame.1.symm, hsame.2.symm⟩

theorem leaf_withLeaf_iff (h : OrdersMatches t rules id rootVar ordered)
    (hdistinct : ∀ c d position, Matched t rules id rootVar c position →
      Matched t rules id rootVar d position → c = d) (a : CaptureMatch) :
    (withLeaf ordered a).leaf ↔ ¬ ∃ d position, Matched t rules id rootVar d position ∧
      a.Before (matchAt d position) ∧ position.1 < a.endPos := by
  have hdecide : (withLeaf ordered a).leaf ↔
      ∀ b ∈ ordered, a.Before b → a.endPos ≤ b.startPos := decide_eq_true_iff
  rw [hdecide]
  constructor
  · intro hall hexists
    obtain ⟨d, position, hd, hbefore, hlt⟩ := hexists
    have hle := hall _ ((h.mem_iff hdistinct).2 ⟨d, position, hd, rfl⟩) hbefore
    exact absurd hlt (Nat.not_lt.2 hle)
  · intro hnot b hb hbefore
    obtain ⟨d, position, hd, rfl⟩ := h.sound b hb
    by_contra hle
    exact hnot ⟨d, position, hd, hbefore, Nat.lt_of_not_le hle⟩

theorem not_exists_encloses_iff {c : Capture} :
    (¬ ∃ d position, Matched t rules id rootVar d position ∧ Encloses rules id c d) ↔
      ∀ d position, Matched t rules id rootVar d position → ¬ Encloses rules id c d := by
  simp only [not_exists, not_and]

/-- For every assignment of positions, the ordered set lists the matches just
if the positions tell what the rules say. -/
theorem listsMatches_iff_toldByPositions (h : OrdersMatches t rules id rootVar ordered) :
    ListsMatches t rules id rootVar (ordered.map (withLeaf ordered)) ↔
      ToldByPositions t rules id rootVar := by
  constructor
  · intro hlists
    have hdistinct := distinct_of_listsMatches h hlists
    refine ⟨hdistinct, ?_, ?_⟩
    · intro c d position position' hc hd hne hprecedes
      have hboth := h.sorted.and (List.pairwise_map.1 hlists.ordered)
      have hca := (h.mem_iff hdistinct).2 ⟨c, position, hc, rfl⟩
      have hda := (h.mem_iff hdistinct).2 ⟨d, position', hd, rfl⟩
      have hmatches : matchAt c position ≠ matchAt d position' :=
        fun heq => hne (congrArg CaptureMatch.capture heq)
      rcases before_or_before_of_mem hboth hca hda hmatches with ⟨hbefore, -⟩ | ⟨-, hnot⟩
      · exact hbefore
      · exact absurd hprecedes hnot
    · intro c position hc
      have hmem := (h.mem_iff hdistinct).2 ⟨c, position, hc, rfl⟩
      have hleaf := (hlists.leaf _ (List.mem_map_of_mem hmem)).symm.trans
        (leaf_withLeaf_iff h hdistinct (matchAt c position))
      rw [← not_exists_encloses_iff] at hleaf
      exact not_iff_not.1 hleaf
  · intro htold
    have hdistinct := htold.distinct
    refine ⟨?_, ?_, ?_, ?_⟩
    · rw [List.map_map, List.nodup_map_iff_inj_on h.nodup]
      intro a ha b hb heq
      obtain ⟨c, position, hc, rfl⟩ := h.sound a ha
      obtain ⟨d, position', hd, rfl⟩ := h.sound b hb
      obtain rfl : c = d := heq
      rw [hc.unique hd]
    · intro c startPos endPos
      constructor
      · intro hexists
        obtain ⟨leaf, hleaf⟩ := hexists
        obtain ⟨a, ha, heq⟩ := List.mem_map.1 hleaf
        obtain ⟨d, position, hd, rfl⟩ := h.sound a ha
        cases heq
        exact hd
      · intro hc
        have hmem := (h.mem_iff hdistinct).2 ⟨c, (startPos, endPos), hc, rfl⟩
        exact ⟨_, List.mem_map_of_mem hmem⟩
    · refine List.pairwise_map.2 (h.sorted.imp_of_mem ?_)
      intro a b ha hb hbefore hprecedes
      obtain ⟨c, position, hc, rfl⟩ := h.sound a ha
      obtain ⟨d, position', hd, rfl⟩ := h.sound b hb
      by_cases hne : d = c
      · subst hne
        rw [hc.unique hd] at hbefore
        exact hbefore.asymm hbefore
      · exact hbefore.asymm (htold.order d c position' position hd hc hne hprecedes)
    · intro a ha
      obtain ⟨b, hb, rfl⟩ := List.mem_map.1 ha
      obtain ⟨c, position, hc, rfl⟩ := h.sound b hb
      refine (leaf_withLeaf_iff h hdistinct _).trans ?_
      rw [← not_exists_encloses_iff]
      exact (not_congr (htold.leaf c position hc)).symm

end Ordered

/-! ### Positions that follow the rules -/

section Follows

variable {c d : Capture} {position position' : Nat × Nat}

theorem precedes_of_apart (houter : ¬ Encloses rules id d c)
    (hapart : Apart (rootVar.textSpan position) (rootVar.textSpan position'))
    (hfirst : rootVar.offset position.1 < rootVar.offset position'.2) :
    Precedes rules id rootVar (matchAt c position) (matchAt d position') := by
  have happears : AppearsFirst (rootVar.textSpan position) (rootVar.textSpan position') := by
    unfold AppearsFirst
    rw [if_pos hapart]
    exact Nat.not_le.2 hfirst
  exact .inr ⟨houter, happears⟩

/-- A match that starts inside another one belongs to it, unless its group is
the outer one. -/
theorem FollowsRules.encloses_of_before (h : FollowsRules t rules id rootVar)
    (hempty : position.1 = position'.1 → position'.1 = position'.2 → position.1 < position.2 →
      Encloses rules id c d)
    (hc : Matched t rules id rootVar c position) (hd : Matched t rules id rootVar d position')
    (houter : ¬ Encloses rules id d c)
    (hbefore : (matchAt c position).Before (matchAt d position'))
    (hlt : position'.1 < position.2) : Encloses rules id c d := by
  by_contra hinner
  have hne : c ≠ d := by
    intro heq
    subst heq
    rw [hc.unique hd] at hbefore
    exact hbefore.asymm hbefore
  have hle : position.1 ≤ position'.1 := hbefore.startPos_le
  obtain ⟨hstart, hend, hspan⟩ := h.inside c position hc
  obtain ⟨hstart', hend', hspan'⟩ := h.inside d position' hd
  have hapart := h.apart c d position position' hc hd hne hinner houter
  have hcases := hstart.cases h.starts
  have hcases' := hstart'.cases h.starts
  have hcasesEnd := hend.cases h.starts
  have hcasesEnd' := hend'.cases h.starts
  unfold Apart Token.textSpan at hapart
  refine hinner (hempty ?_ ?_ ?_)
  · omega
  · omega
  · omega

/-- A match in front of the wrap comes before one behind it. -/
theorem ToldByPositions.oneSide (htold : ToldByPositions t rules id rootVar)
    (h : FollowsRules t rules id rootVar) (hc : Matched t rules id rootVar c position)
    (hd : Matched t rules id rootVar d position') (hright : position'.1 < rootVar.startPos) :
    position.1 < rootVar.startPos := by
  by_contra hleft
  have hne : c ≠ d := by
    intro heq
    subst heq
    rw [hc.unique hd] at hleft
    exact hleft hright
  obtain ⟨hstart, hend, hspan⟩ := h.inside c position hc
  obtain ⟨hstart', hend', hspan'⟩ := h.inside d position' hd
  have hcases := hstart.cases h.starts
  have hcases' := hstart'.cases h.starts
  have hlt : rootVar.offset position.1 < rootVar.offset position'.1 := by omega
  have houter : ¬ Encloses rules id d c := by
    intro hencloses
    have := (h.nested d c position' position hd hc hencloses).1
    omega
  have hprecedes : Precedes rules id rootVar (matchAt c position) (matchAt d position') := by
    by_cases hinner : Encloses rules id c d
    · exact .inl hinner
    · have hapart := h.apart c d position position' hc hd hne hinner houter
      exact precedes_of_apart houter hapart (by omega)
  have hle := (htold.order c d position position' hc hd hne hprecedes).startPos_le
  have hle : position.1 ≤ position'.1 := hle
  omega

/-- An empty match that touches the start of another one comes before it. -/
theorem ToldByPositions.emptyInFront (htold : ToldByPositions t rules id rootVar)
    (h : FollowsRules t rules id rootVar) {startPos endPos : Nat}
    (hc : Matched t rules id rootVar c (startPos, startPos))
    (hd : Matched t rules id rootVar d (startPos, endPos)) (hlt : startPos < endPos) :
    Encloses rules id d c := by
  by_contra houter
  have hne : c ≠ d := by
    intro heq
    subst heq
    have heq := congrArg Prod.snd (hc.unique hd)
    exact absurd heq (Nat.ne_of_lt hlt)
  obtain ⟨hstart, hend, hspan⟩ := h.inside d (startPos, endPos) hd
  have hcases := hstart.cases h.starts
  have hcasesEnd := hend.cases h.starts
  have hlonger : rootVar.offset startPos < rootVar.offset endPos := by
    simp only at hspan hcases hcasesEnd
    omega
  have hinner : ¬ Encloses rules id c d := by
    intro hencloses
    have hle : rootVar.offset endPos ≤ rootVar.offset startPos :=
      (h.nested c d _ _ hc hd hencloses).2
    omega
  have hapart := h.apart c d _ _ hc hd hne hinner houter
  have hprecedes : Precedes rules id rootVar (matchAt c (startPos, startPos))
      (matchAt d (startPos, endPos)) := precedes_of_apart houter hapart hlonger
  have hbefore := htold.order c d _ _ hc hd hne hprecedes
  rw [before_iff] at hbefore
  simp only [matchAt] at hbefore
  omega

theorem separated_of_toldByPositions (htold : ToldByPositions t rules id rootVar)
    (h : FollowsRules t rules id rootVar) : Separated t rules id rootVar := by
  refine ⟨htold.distinct, ?_, ?_, ?_⟩
  · intro c d position position' hc hd
    constructor
    · exact fun hright => htold.oneSide h hd hc hright
    · exact fun hright => htold.oneSide h hc hd hright
  · intro c d startPos endPos hc hd hlt
    exact htold.emptyInFront h hc hd hlt
  · intro c d position position' hc hd hencloses
    obtain ⟨d', position'', hd', hbefore, hlt⟩ :=
      (htold.leaf c position hc).1 ⟨d, position', hd, hencloses⟩
    refine ⟨d', position'', hd', ?_, hlt⟩
    have hne : d' ≠ c := by
      intro heq
      subst heq
      rw [hc.unique hd'] at hbefore
      exact hbefore.asymm hbefore
    have houter : ¬ Encloses rules id d' c := by
      intro houter
      exact hbefore.asymm (htold.order d' c position'' position hd' hc hne (.inl houter))
    refine h.encloses_of_before ?_ hc hd' houter hbefore hlt
    intro hsame hempty hlonger
    obtain ⟨startPos, endPos⟩ := position
    obtain ⟨startPos', endPos'⟩ := position''
    obtain rfl : startPos = startPos' := hsame
    obtain rfl : startPos = endPos' := hempty
    exact htold.emptyInFront h hd' hc hlonger

/-- In an order that the positions tell, an outer match comes first. -/
theorem Separated.before_of_encloses (hs : Separated t rules id rootVar)
    (h : FollowsRules t rules id rootVar) (hc : Matched t rules id rootVar c position)
    (hd : Matched t rules id rootVar d position') (hne : c ≠ d)
    (hencloses : Encloses rules id c d) :
    (matchAt c position).Before (matchAt d position') := by
  have hdistinct : ¬ (position.1 = position'.1 ∧ position.2 = position'.2) := by
    intro hsame
    have heq : position = position' := Prod.ext hsame.1 hsame.2
    subst heq
    exact hne (hs.distinct c d position hc hd)
  obtain ⟨d', position'', hd', hencloses', hlt⟩ := hs.startsInside c d _ _ hc hd hencloses
  obtain ⟨hstart, hend, hspan⟩ := h.inside c position hc
  obtain ⟨hstart', hend', hspan'⟩ := h.inside d position' hd
  obtain ⟨hstart'', -, -⟩ := h.inside d' position'' hd'
  have hnested := h.nested c d _ _ hc hd hencloses
  have hnested' := (h.nested c d' _ _ hc hd' hencloses').1
  have hside := hs.oneSide c d _ _ hc hd
  have hside' := hs.oneSide c d' _ _ hc hd'
  have hcases := hstart.cases h.starts
  have hcases' := hstart'.cases h.starts
  have hcases'' := hstart''.cases h.starts
  have hcasesEnd := hend.cases h.starts
  have hcasesEnd' := hend'.cases h.starts
  rw [before_iff]
  simp only [matchAt]
  omega

theorem Separated.before_of_appearsFirst (hs : Separated t rules id rootVar)
    (h : FollowsRules t rules id rootVar) (hc : Matched t rules id rootVar c position)
    (hd : Matched t rules id rootVar d position') (hne : c ≠ d)
    (hinner : ¬ Encloses rules id c d) (houter : ¬ Encloses rules id d c)
    (hfirst : AppearsFirst (rootVar.textSpan position) (rootVar.textSpan position')) :
    (matchAt c position).Before (matchAt d position') := by
  have hapart := h.apart c d _ _ hc hd hne hinner houter
  unfold AppearsFirst at hfirst
  rw [if_pos hapart] at hfirst
  unfold Apart at hapart
  simp only [Token.textSpan] at hapart hfirst
  obtain ⟨hstart, hend, hspan⟩ := h.inside c position hc
  obtain ⟨hstart', hend', hspan'⟩ := h.inside d position' hd
  have hside := hs.oneSide c d _ _ hc hd
  have hcases := hstart.cases h.starts
  have hcases' := hstart'.cases h.starts
  have hcasesEnd := hend.cases h.starts
  have hcasesEnd' := hend'.cases h.starts
  rw [before_iff]
  simp only [matchAt]
  have hle : position.1 ≤ position'.1 := by omega
  rcases Nat.lt_or_eq_of_le hle with hlt | heq
  · exact .inl hlt
  · refine .inr ⟨heq, ?_⟩
    -- `c` is empty, so `d` is longer, and ends behind the wrap
    have hempty : position.2 = position.1 := by omega
    by_contra hend
    have hlonger : position.1 < position'.2 := by omega
    obtain ⟨startPos, endPos⟩ := position
    obtain ⟨startPos', endPos'⟩ := position'
    obtain rfl : startPos = startPos' := heq
    obtain rfl : endPos = startPos := hempty
    exact houter (hs.emptyInFront c d _ _ hc hd hlonger)

theorem Separated.toldByPositions (hs : Separated t rules id rootVar)
    (h : FollowsRules t rules id rootVar) (hnodup : (capturesOf rules id).Nodup) :
    ToldByPositions t rules id rootVar := by
  refine ⟨hs.distinct, ?_, ?_⟩
  · intro c d position position' hc hd hne hprecedes
    by_cases hinner : Encloses rules id c d
    · exact hs.before_of_encloses h hc hd hne hinner
    · rcases hprecedes with hencloses | ⟨houter, hfirst⟩
      · exact absurd hencloses hinner
      · exact hs.before_of_appearsFirst h hc hd hne hinner houter hfirst
  · intro c position hc
    constructor
    · intro hexists
      obtain ⟨d, position', hd, hencloses⟩ := hexists
      obtain ⟨d', position'', hd', hencloses', hlt⟩ := hs.startsInside c d _ _ hc hd hencloses
      have hne : c ≠ d' := by
        intro heq
        subst heq
        exact hencloses'.asymm hnodup hencloses'
      exact ⟨d', position'', hd', hs.before_of_encloses h hc hd' hne hencloses', hlt⟩
    · intro hexists
      obtain ⟨d, position', hd, hbefore, hlt⟩ := hexists
      have hne : d ≠ c := by
        intro heq
        subst heq
        rw [hc.unique hd] at hbefore
        exact hbefore.asymm hbefore
      have houter : ¬ Encloses rules id d c := by
        intro houter
        exact hbefore.asymm (hs.before_of_encloses h hd hc hne houter)
      refine ⟨d, position', hd, h.encloses_of_before ?_ hc hd houter hbefore hlt⟩
      intro hsame hempty hlonger
      obtain ⟨startPos, endPos⟩ := position
      obtain ⟨startPos', endPos'⟩ := position'
      obtain rfl : startPos = startPos' := hsame
      obtain rfl : startPos = endPos' := hempty
      exact hs.emptyInFront d c _ _ hd hc hlonger

end Follows

/-- `getCaptureMatches` lists the matches just if the positions tell what the
rules say.  For spans that follow the rules this is so just if the matches are
separated. -/
theorem listsMatches_iff_separated (h : IsRootVariable t rules id rootVar) :
    ((∃ captureMatches, getCaptureMatches t rootVar = .ok (some captureMatches) ∧
        ListsMatches t rules id rootVar captureMatches) ↔ ToldByPositions t rules id rootVar) ∧
      (FollowsRules t rules id rootVar →
        ((∃ captureMatches, getCaptureMatches t rootVar = .ok (some captureMatches) ∧
          ListsMatches t rules id rootVar captureMatches) ↔ Separated t rules id rootVar)) := by
  obtain ⟨ordered, hordered, hmatches⟩ := getCaptureMatches_spec h
  have hlists : (∃ captureMatches, getCaptureMatches t rootVar = .ok (some captureMatches) ∧
      ListsMatches t rules id rootVar captureMatches) ↔ ToldByPositions t rules id rootVar := by
    rw [← listsMatches_iff_toldByPositions hordered, hmatches]
    constructor
    · intro hexists
      obtain ⟨captureMatches, heq, hlists⟩ := hexists
      cases heq
      exact hlists
    · intro hlists
      exact ⟨_, rfl, hlists⟩
  refine ⟨hlists, fun hfollows => hlists.trans ?_⟩
  constructor
  · intro htold
    exact separated_of_toldByPositions htold hfollows
  · intro hseparated
    exact hseparated.toldByPositions hfollows h.nodup

/-! ## One group inside another -/

theorem tables_of_generate {schema : SchemaAST} {parser : Parser}
    {regMapOrder : List (Nat × Nat) → List (Nat × Nat)} {steps : Nat}
    (hparser : addRules schema = .ok parser) (ht : schema.generate regMapOrder steps = .ok t) :
    t.ruleIdToCapture = ruleIdToCapture parser.rules := by
  obtain ⟨parser', hparser', ht⟩ := exists_of_bind_eq_ok ht
  obtain rfl : parser = parser' := Except.ok.inj (hparser.symm.trans hparser')
  obtain ⟨dfa, root, -, -, rfl⟩ := generateTables_cases ht
  rfl

/-- The token has the groups `inner` and `outer`, each with a match. -/
structure TwoGroups (t : LexerTables) (rules : List LexicalRule) (id : Nat) (rootVar : Token)
    (inner outer : Capture) (innerPosition outerPosition : Nat × Nat) : Prop where
  tables : t.ruleIdToCapture = ruleIdToCapture rules
  typed : rootVar.firstTypeId = .ok id
  captures : capturesOf rules id = [inner, outer]
  differ : inner ≠ outer
  encloses : ∀ c d, Encloses rules id c d ↔ c = outer ∧ d = inner
  innerMatch : getCapturePosition t rootVar inner = .ok (some innerPosition)
  outerMatch : getCapturePosition t rootVar outer = .ok (some outerPosition)
  starts : rootVar.startPos = 0
  ends : outerPosition.2 ≤ rootVar.endPos
  within : outerPosition.1 ≤ innerPosition.1 ∧ innerPosition.1 < innerPosition.2 ∧
    innerPosition.2 ≤ outerPosition.2

namespace TwoGroups

variable {inner outer : Capture} {innerPosition outerPosition : Nat × Nat}

theorem isRootVariable
    (h : TwoGroups t rules id rootVar inner outer innerPosition outerPosition) :
    IsRootVariable t rules id rootVar := by
  refine ⟨h.tables, h.typed, ?_, ?_, ?_⟩
  · simp [h.captures]
  · simp [h.captures, h.differ]
  · intro c hc
    rw [h.captures] at hc
    rcases List.mem_cons.1 hc with rfl | hc
    · exact ⟨_, h.innerMatch⟩
    · obtain rfl := List.mem_singleton.1 hc
      exact ⟨_, h.outerMatch⟩

theorem matched_iff (h : TwoGroups t rules id rootVar inner outer innerPosition outerPosition)
    {c : Capture} {position : Nat × Nat} :
    Matched t rules id rootVar c position ↔
      c = inner ∧ position = innerPosition ∨ c = outer ∧ position = outerPosition := by
  have hinner : Matched t rules id rootVar inner innerPosition :=
    ⟨by simp [h.captures], h.innerMatch⟩
  have houter : Matched t rules id rootVar outer outerPosition :=
    ⟨by simp [h.captures], h.outerMatch⟩
  constructor
  · intro hc
    have hmem := hc.1
    rw [h.captures] at hmem
    rcases List.mem_cons.1 hmem with rfl | hmem
    · exact .inl ⟨rfl, hc.unique hinner⟩
    · obtain rfl := List.mem_singleton.1 hmem
      exact .inr ⟨rfl, hc.unique houter⟩
  · rintro (⟨rfl, rfl⟩ | ⟨rfl, rfl⟩)
    · exact hinner
    · exact houter

theorem followsRules (h : TwoGroups t rules id rootVar inner outer innerPosition outerPosition) :
    FollowsRules t rules id rootVar := by
  have hstarts := h.starts
  have hends := h.ends
  have hwithin := h.within
  have hholds : ∀ p, p ≤ outerPosition.2 → rootVar.Holds p := by
    intro p hp
    unfold Token.Holds
    rw [if_pos (by omega)]
    omega
  have hoffset : ∀ p, rootVar.offset p = p := by
    intro p
    simp [Token.offset, hstarts]
  refine ⟨by omega, ?_, ?_, ?_⟩
  · intro c position hc
    rw [hoffset, hoffset]
    rcases h.matched_iff.1 hc with ⟨-, rfl⟩ | ⟨-, rfl⟩
    · exact ⟨hholds _ (by omega), hholds _ (by omega), by omega⟩
    · exact ⟨hholds _ (by omega), hholds _ (by omega), by omega⟩
  · intro c d position position' hc hd hencloses
    obtain ⟨rfl, rfl⟩ := (h.encloses c d).1 hencloses
    rw [hoffset, hoffset, hoffset, hoffset]
    rcases h.matched_iff.1 hc with ⟨heq, -⟩ | ⟨-, rfl⟩
    · exact absurd heq.symm h.differ
    · rcases h.matched_iff.1 hd with ⟨-, rfl⟩ | ⟨heq, -⟩
      · omega
      · exact absurd heq h.differ
  · intro c d position position' hc hd hne hinner houter
    rcases h.matched_iff.1 hc with ⟨rfl, -⟩ | ⟨rfl, -⟩
    · rcases h.matched_iff.1 hd with ⟨rfl, -⟩ | ⟨rfl, -⟩
      · exact absurd rfl hne
      · exact absurd ((h.encloses _ _).2 ⟨rfl, rfl⟩) houter
    · rcases h.matched_iff.1 hd with ⟨rfl, -⟩ | ⟨rfl, -⟩
      · exact absurd ((h.encloses _ _).2 ⟨rfl, rfl⟩) hinner
      · exact absurd rfl hne

/-- The groups are separated just if they do not share their positions. -/
theorem separated_iff (h : TwoGroups t rules id rootVar inner outer innerPosition outerPosition) :
    Separated t rules id rootVar ↔ innerPosition ≠ outerPosition := by
  have hwithin := h.within
  constructor
  · intro hs heq
    refine h.differ (hs.distinct inner outer innerPosition ?_ ?_)
    · exact h.matched_iff.2 (.inl ⟨rfl, rfl⟩)
    · exact h.matched_iff.2 (.inr ⟨rfl, heq⟩)
  · intro hne
    refine ⟨?_, ?_, ?_, ?_⟩
    · intro c d position hc hd
      rcases h.matched_iff.1 hc with ⟨rfl, rfl⟩ | ⟨rfl, rfl⟩
      · rcases h.matched_iff.1 hd with ⟨rfl, -⟩ | ⟨-, heq⟩
        · rfl
        · exact absurd heq hne
      · rcases h.matched_iff.1 hd with ⟨-, heq⟩ | ⟨rfl, -⟩
        · exact absurd heq.symm hne
        · rfl
    · intro c d position position' _ _
      rw [h.starts]
      omega
    · intro c d startPos endPos hc _ _
      rcases h.matched_iff.1 hc with ⟨-, heq⟩ | ⟨-, heq⟩
      · rw [← heq] at hwithin
        omega
      · rw [← heq] at hwithin
        omega
    · intro c d position position' hc _ hencloses
      obtain ⟨rfl, rfl⟩ := (h.encloses c d).1 hencloses
      refine ⟨d, innerPosition, h.matched_iff.2 (.inl ⟨rfl, rfl⟩), hencloses, ?_⟩
      rcases h.matched_iff.1 hc with ⟨heq, -⟩ | ⟨-, rfl⟩
      · exact absurd heq.symm h.differ
      · omega

end TwoGroups

end Matches

def groupB : RegexAST := .mkCapture (.mkLiteral 98) ⟨1, "b"⟩

/-- A variable that is the group `a`. -/
def schemaOfGroupA (inside : RegexAST) : SchemaAST :=
  ⟨[⟨"v", .mkCapture inside ⟨2, "a"⟩⟩], [[10, 32]]⟩

/-- The rules of the schema. -/
def rulesOfGroupA (inside : RegexAST) : List LexicalRule :=
  [⟨6, .mkLiteral 10⟩, ⟨7, schemaVarRegex (schemaOfGroupA inside).delimiterList
    ⟨"v", .mkCapture inside ⟨2, "a"⟩⟩⟩]

theorem encloses_rulesOfGroupA (inside : RegexAST) (c d : Capture) :
    Encloses (rulesOfGroupA inside) 7 c d ↔
      (RegexAST.capture [] (inside.removeDelimitersFromWildcard
        (schemaOfGroupA inside).delimiterList) ⟨2, "a"⟩).Encloses c d := by
  simp [Encloses, rulesOfGroupA, schemaVarRegex, leadingRegex, cTokenHeader, RegexAST.Encloses,
    RegexAST.mkCat, RegexAST.mkGroup, RegexAST.mkCapture, RegexAST.removeDelimitersFromWildcard]

/-- A text that the variable matches is one token with both groups. -/
theorem exists_twoGroups {inside : RegexAST} (text : List UInt8)
    (innerPosition outerPosition : Nat × Nat)
    (hrules : (addRules (schemaOfGroupA inside)).map (·.rules) = .ok (rulesOfGroupA inside))
    (hcaptures : capturesOf (rulesOfGroupA inside) 7 = [⟨1, "b"⟩, ⟨2, "a"⟩])
    (hencloses : ∀ c d, Encloses (rulesOfGroupA inside) 7 c d ↔
      c = ⟨2, "a"⟩ ∧ d = ⟨1, "b"⟩)
    (hwithin : outerPosition.1 ≤ innerPosition.1 ∧ innerPosition.1 < innerPosition.2 ∧
      innerPosition.2 ≤ outerPosition.2)
    (hcheck : checkFirstEvent (schemaOfGroupA inside) 60 text (fun t view =>
      view.logOutputBuffer.tokens.length = 1 ∧
      view.logOutputBuffer.tokens.all fun token => token.firstTypeId = .ok 7 ∧
        getCapturePosition t token ⟨1, "b"⟩ = .ok (some innerPosition) ∧
        getCapturePosition t token ⟨2, "a"⟩ = .ok (some outerPosition) ∧
        token.startPos = 0 ∧ outerPosition.2 ≤ token.endPos) = true) :
    ∃ (t : LexerTables) (p p' : LogParser) (action : ParsingAction) (view : LogEventView)
      (token : Token),
      (schemaOfGroupA inside).generate id 60 = .ok t ∧ (LogParser.new t).reset t = .ok p ∧
      (p.read text).parseAndGenerateMetadata t 60 = .ok (p', .ok (action, view)) ∧
      view.logOutputBuffer.tokens = [token] ∧ TwoGroups t (rulesOfGroupA inside) 7 token
        ⟨1, "b"⟩ ⟨2, "a"⟩ innerPosition outerPosition := by
  obtain ⟨t, p, p', action, view, ht, hreset, hparse, hview⟩ := exists_view_of_check hcheck
  obtain ⟨hlength, hall⟩ := of_decide_eq_true hview
  obtain ⟨token, htokens⟩ := List.length_eq_one_iff.1 hlength
  rw [htokens] at hall
  obtain ⟨htyped, hinner, houter, hstarts, hends⟩ :=
    of_decide_eq_true (List.all_eq_true.1 hall token (List.mem_singleton_self token))
  obtain ⟨parser, hparser, -⟩ := exists_of_bind_eq_ok ht
  rw [hparser] at hrules
  have hrules : parser.rules = rulesOfGroupA inside := Except.ok.inj hrules
  have htables := tables_of_generate hparser ht
  rw [hrules] at htables
  exact ⟨t, p, p', action, view, token, ht, hreset, hparse, htokens, htables, htyped, hcaptures,
    by simp, hencloses, hinner, houter, hstarts, hends, hwithin⟩

/-- The inner group is the end of the outer one. -/
theorem listsMatches_iff_separated_innerGroup :
    ∃ (t : LexerTables) (p p' : LogParser) (action : ParsingAction) (view : LogEventView)
      (token : Token),
      (schemaOfGroupA (.mkCat (.mkLiteral 97) groupB)).generate id 60 = .ok t ∧
      (LogParser.new t).reset t = .ok p ∧
      (p.read [97, 98]).parseAndGenerateMetadata t 60 = .ok (p', .ok (action, view)) ∧
      view.logOutputBuffer.tokens = [token] ∧
      ∃ captureMatches, getCaptureMatches t token = .ok (some captureMatches) ∧
        ListsMatches t (rulesOfGroupA (.mkCat (.mkLiteral 97) groupB)) 7 token captureMatches := by
  have hencloses : ∀ c d, Encloses (rulesOfGroupA (.mkCat (.mkLiteral 97) groupB)) 7 c d ↔
      c = ⟨2, "a"⟩ ∧ d = ⟨1, "b"⟩ := by
    intro c d
    rw [encloses_rulesOfGroupA]
    simp [RegexAST.Encloses, RegexAST.removeDelimitersFromWildcard, RegexAST.mkCat, groupB,
      RegexAST.mkCapture, RegexAST.mkLiteral, RegexAST.subtreePositiveCaptures]
  obtain ⟨t, p, p', action, view, token, ht, hreset, hparse, htokens, htwo⟩ :=
    exists_twoGroups [97, 98] (1, 2) (0, 2) (by decide) (by decide) hencloses (by decide)
      (by decide +kernel)
  have hiff := (listsMatches_iff_separated htwo.isRootVariable).2 htwo.followsRules
  have hlists := hiff.2 (htwo.separated_iff.2 (by decide))
  exact ⟨t, p, p', action, view, token, ht, hreset, hparse, htokens, hlists⟩

/-- Of two groups that match the same text, one is missing. -/
theorem not_listsMatches_sameText :
    ∃ (t : LexerTables) (p p' : LogParser) (action : ParsingAction) (view : LogEventView)
      (token : Token),
      (schemaOfGroupA groupB).generate id 60 = .ok t ∧ (LogParser.new t).reset t = .ok p ∧
      (p.read [98]).parseAndGenerateMetadata t 60 = .ok (p', .ok (action, view)) ∧
      view.logOutputBuffer.tokens = [token] ∧
      IsRootVariable t (rulesOfGroupA groupB) 7 token ∧
      FollowsRules t (rulesOfGroupA groupB) 7 token ∧
      ¬ ∃ captureMatches, getCaptureMatches t token = .ok (some captureMatches) ∧
        ListsMatches t (rulesOfGroupA groupB) 7 token captureMatches := by
  have hencloses : ∀ c d, Encloses (rulesOfGroupA groupB) 7 c d ↔
      c = ⟨2, "a"⟩ ∧ d = ⟨1, "b"⟩ := by
    intro c d
    rw [encloses_rulesOfGroupA]
    simp [RegexAST.Encloses, RegexAST.removeDelimitersFromWildcard, groupB, RegexAST.mkCapture,
      RegexAST.mkLiteral, RegexAST.subtreePositiveCaptures]
  obtain ⟨t, p, p', action, view, token, ht, hreset, hparse, htokens, htwo⟩ :=
    exists_twoGroups [98] (0, 1) (0, 1) (by decide) (by decide) hencloses (by decide)
      (by decide +kernel)
  refine ⟨t, p, p', action, view, token, ht, hreset, hparse, htokens, htwo.isRootVariable,
    htwo.followsRules, ?_⟩
  obtain ⟨ordered, hordered, hmatches⟩ := getCaptureMatches_spec htwo.isRootVariable
  intro hexists
  obtain ⟨captureMatches, heq, hlists⟩ := hexists
  obtain rfl := Option.some.inj (Except.ok.inj (hmatches.symm.trans heq))
  have hdistinct := distinct_of_listsMatches hordered hlists ⟨1, "b"⟩ ⟨2, "a"⟩ (0, 1)
    (htwo.matched_iff.2 (.inl ⟨rfl, rfl⟩)) (htwo.matched_iff.2 (.inr ⟨rfl, rfl⟩))
  exact absurd hdistinct (by decide)

end LogSurgeon
