import Mathlib.Computability.Language
import Mathlib.Data.List.Sort
import LogSurgeon.Constants

/-!
# The regular-expression trees

`RegexAST` is the tree that the schema parser builds for a rule.  Every node
holds its negative captures: the captures of the sibling alternative, which are
unmatched on every path through the node.  The constructors of the source fill
them in bottom-up, and `mkOr` is the only one that sets them.

`RegexASTInteger` is left out.  It occurs only below the repetition rules of
the schema grammar, and its `add_to_nfa` throws.

`denote` is the meaning of a tree, a language over bytes.  It is not part of
the source.
-/

namespace LogSurgeon

/-- A capture group.  The source tells captures apart by their address, which
`address` stands for. -/
structure Capture where
  address : Nat
  name : String
deriving DecidableEq, Repr

/-- An inclusive range of code points. -/
abbrev Range := Nat × Nat

/-! ## Character groups -/

/-- A character group, such as `[a-z]` or `[^a-z]`. -/
structure RegexASTGroup where
  isWildcard : Bool := false
  negate : Bool := true
  ranges : List Range := []
deriving DecidableEq, Repr

namespace RegexASTGroup

/-- The order of `std::sort` on pairs. -/
def rangeLe (a b : Range) : Prop := a.1 < b.1 ∨ a.1 = b.1 ∧ a.2 ≤ b.2

instance : DecidableRel rangeLe := fun _ _ => inferInstanceAs (Decidable (_ ∨ _))

/-- The ranges in the order of `std::sort`. -/
def sorted (ranges : List Range) : List Range := ranges.insertionSort rangeLe

/-- The loop of `merge`, with the range that is still open. -/
def mergeFrom (cur : Range) : List Range → List Range
  | [] => [cur]
  | range :: ranges =>
    if range.1 ≤ cur.2 + 1 then mergeFrom (cur.1, max range.2 cur.2) ranges
    else cur :: mergeFrom range ranges

/-- Joins the ranges that overlap or touch.  The ranges must be sorted. -/
def merge : List Range → List Range
  | [] => []
  | range :: ranges => mergeFrom range ranges

/-- The loop of `complement`, with the least code point not yet handled. -/
def complementFrom (low : Nat) : List Range → List Range
  | [] => if 0 < low then [(low, cUnicodeMax)] else []
  | (first, last) :: ranges =>
    if 0 < first then (low, first - 1) :: complementFrom (last + 1) ranges
    else complementFrom (last + 1) ranges

/-- The code points outside the ranges.  The ranges must be sorted and must
not overlap. -/
def complement (ranges : List Range) : List Range := complementFrom 0 ranges

/-- The ranges for which `add_to_nfa` adds transitions. -/
def transitionRanges (g : RegexASTGroup) : List Range :=
  let merged := merge (sorted g.ranges)
  if g.negate then complement merged else merged

/-- `c` lies in one of the ranges. -/
def Covers (ranges : List Range) (c : Nat) : Prop := ∃ r ∈ ranges, r.1 ≤ c ∧ c ≤ r.2

/-- `c` belongs to the group. -/
def Contains (g : RegexASTGroup) (c : Nat) : Prop :=
  if g.negate then ¬ Covers g.ranges c else Covers g.ranges c

/-- The ranges of the group are ranges of code points. -/
def WellFormed (g : RegexASTGroup) : Prop :=
  ∀ r ∈ g.ranges, r.1 ≤ r.2 ∧ r.2 ≤ cUnicodeMax

instance (g : RegexASTGroup) : Decidable g.WellFormed :=
  inferInstanceAs (Decidable (∀ r ∈ g.ranges, _))

/-! ### What the ranges cover -/

@[simp] theorem covers_nil (c : Nat) : ¬ Covers [] c := by simp [Covers]

@[simp] theorem covers_cons (r : Range) (rs : List Range) (c : Nat) :
    Covers (r :: rs) c ↔ r.1 ≤ c ∧ c ≤ r.2 ∨ Covers rs c := by
  simp [Covers]

/-- The ranges are in order, do not overlap, and start at `low` or later.  A range
may be empty. -/
def Ascending (low : Nat) : List Range → Prop
  | [] => True
  | (first, last) :: ranges =>
    low ≤ first ∧ first ≤ last + 1 ∧ last ≤ cUnicodeMax ∧ Ascending (last + 1) ranges

theorem Ascending.mono {low low' : Nat} {ranges : List Range} (h : Ascending low' ranges)
    (hle : low ≤ low') : Ascending low ranges := by
  cases ranges with
  | nil => trivial
  | cons r rs => exact ⟨Nat.le_trans hle h.1, h.2⟩

theorem Ascending.le_of_covers {low c : Nat} {ranges : List Range}
    (h : Ascending low ranges) (hc : Covers ranges c) : low ≤ c := by
  induction ranges generalizing low with
  | nil => exact absurd hc (covers_nil c)
  | cons r rs ih =>
    obtain ⟨hlow, hr, _, hrs⟩ := h
    rcases (covers_cons r rs c).1 hc with hc | hc
    · omega
    · have := ih hrs hc
      omega

theorem covers_mergeFrom {cur : Range} {ranges : List Range} {c : Nat}
    (hcur : ∀ r ∈ ranges, cur.1 ≤ r.1) (hsorted : ranges.Pairwise (·.1 ≤ ·.1)) :
    Covers (mergeFrom cur ranges) c ↔ cur.1 ≤ c ∧ c ≤ cur.2 ∨ Covers ranges c := by
  induction ranges generalizing cur with
  | nil => simp [mergeFrom]
  | cons r rs ih =>
    obtain ⟨hr, hrs⟩ := List.pairwise_cons.1 hsorted
    have hle : cur.1 ≤ r.1 := hcur r (by simp)
    rw [mergeFrom]
    split
    · rename_i htouch
      have hcur' : ∀ r' ∈ rs, (cur.1, max r.2 cur.2).1 ≤ r'.1 :=
        fun r' hr' => hcur r' (by simp [hr'])
      rw [ih hcur' hrs, covers_cons]
      have hjoin : (cur.1 ≤ c ∧ c ≤ max r.2 cur.2) ↔
          (cur.1 ≤ c ∧ c ≤ cur.2) ∨ (r.1 ≤ c ∧ c ≤ r.2) := by omega
      rw [hjoin, or_assoc]
    · rw [covers_cons, ih hr hrs, covers_cons]

theorem ascending_mergeFrom {cur : Range} {ranges : List Range}
    (hcur : cur.1 ≤ cur.2 + 1 ∧ cur.2 ≤ cUnicodeMax)
    (hwf : ∀ r ∈ ranges, r.1 ≤ r.2 + 1 ∧ r.2 ≤ cUnicodeMax) :
    Ascending cur.1 (mergeFrom cur ranges) := by
  induction ranges generalizing cur with
  | nil => exact ⟨Nat.le_refl _, hcur.1, hcur.2, trivial⟩
  | cons r rs ih =>
    have hr := hwf r (by simp)
    have hrs : ∀ r' ∈ rs, r'.1 ≤ r'.2 + 1 ∧ r'.2 ≤ cUnicodeMax :=
      fun r' hr' => hwf r' (by simp [hr'])
    rw [mergeFrom]
    split
    · have hjoin : (cur.1, max r.2 cur.2).1 ≤ (cur.1, max r.2 cur.2).2 + 1 ∧
          (cur.1, max r.2 cur.2).2 ≤ cUnicodeMax := by
        simp only
        omega
      exact ih hjoin hrs
    · exact ⟨Nat.le_refl _, hcur.1, hcur.2, (ih hr hrs).mono (by omega)⟩

theorem mergeFrom_ne_nil (cur : Range) (ranges : List Range) : mergeFrom cur ranges ≠ [] := by
  induction ranges generalizing cur with
  | nil => simp [mergeFrom]
  | cons r rs ih =>
    rw [mergeFrom]
    split
    · exact ih _
    · simp

theorem covers_complementFrom {low c : Nat} {ranges : List Range}
    (h : Ascending low ranges) (hne : 0 < low ∨ ranges ≠ []) :
    Covers (complementFrom low ranges) c ↔ low ≤ c ∧ c ≤ cUnicodeMax ∧ ¬ Covers ranges c := by
  induction ranges generalizing low with
  | nil =>
    have hlow : 0 < low := by simpa using hne
    simp [complementFrom, hlow]
  | cons r rs ih =>
    obtain ⟨first, last⟩ := r
    obtain ⟨hlow, hr, hmax, hrs⟩ := h
    have hrest := ih hrs (Or.inl (Nat.succ_pos last))
    have hafter : Covers rs c → last + 1 ≤ c := hrs.le_of_covers
    rw [complementFrom]
    split
    · rw [covers_cons, hrest, covers_cons]
      simp only
      by_cases hc : Covers rs c
      · have := hafter hc
        simp only [hc, not_true, or_true, and_false, or_false, iff_false]
        omega
      · simp only [hc, not_false_iff, or_false, and_true]
        omega
    · rw [hrest, covers_cons]
      simp only
      by_cases hc : Covers rs c
      · simp [hc]
      · simp only [hc, not_false_iff, or_false, and_true]
        omega

instance : Std.Total rangeLe := ⟨fun a b => by unfold rangeLe; omega⟩

instance : IsTrans Range rangeLe := ⟨fun a b c => by unfold rangeLe; omega⟩

@[simp] theorem mem_sorted {ranges : List Range} {r : Range} :
    r ∈ sorted ranges ↔ r ∈ ranges := List.mem_insertionSort rangeLe

theorem covers_sorted (ranges : List Range) {c : Nat} :
    Covers (sorted ranges) c ↔ Covers ranges c := by
  simp [Covers]

theorem pairwise_sorted (ranges : List Range) : (sorted ranges).Pairwise (·.1 ≤ ·.1) := by
  refine List.Pairwise.imp ?_ (List.pairwise_insertionSort rangeLe ranges)
  intro a b hab
  unfold rangeLe at hab
  omega

/-- Joining the sorted ranges covers the same code points. -/
theorem covers_merge_sorted {ranges : List Range} {c : Nat} :
    Covers (merge (sorted ranges)) c ↔ Covers ranges c := by
  rw [← covers_sorted ranges]
  have hp := pairwise_sorted ranges
  cases hs : sorted ranges with
  | nil => rfl
  | cons r rs =>
    rw [hs] at hp
    obtain ⟨hr, hrs⟩ := List.pairwise_cons.1 hp
    rw [merge, covers_mergeFrom hr hrs, covers_cons]

/-- The sorted ranges are joined to ranges in order. -/
theorem ascending_merge_sorted {ranges : List Range}
    (hwf : ∀ r ∈ ranges, r.1 ≤ r.2 + 1 ∧ r.2 ≤ cUnicodeMax) :
    Ascending 0 (merge (sorted ranges)) := by
  cases hs : sorted ranges with
  | nil => trivial
  | cons r rs =>
    have hmem : ∀ r' ∈ r :: rs, r'.1 ≤ r'.2 + 1 ∧ r'.2 ≤ cUnicodeMax := by
      intro r' hr'
      rw [← hs, mem_sorted] at hr'
      exact hwf r' hr'
    exact (ascending_mergeFrom (hmem r (by simp))
      fun r' hr' => hmem r' (by simp [hr'])).mono (Nat.zero_le _)

theorem merge_sorted_ne_nil {ranges : List Range} (hne : ranges ≠ []) :
    merge (sorted ranges) ≠ [] := by
  cases hs : sorted ranges with
  | nil =>
    obtain ⟨r, hr⟩ := List.exists_mem_of_ne_nil ranges hne
    rw [← mem_sorted, hs] at hr
    cases hr
  | cons r rs => exact mergeFrom_ne_nil r rs

/-- The complement covers the code points that the ranges leave out, provided
that there is a range. -/
theorem covers_complement_merge_sorted {ranges : List Range} {c : Nat}
    (hwf : ∀ r ∈ ranges, r.1 ≤ r.2 + 1 ∧ r.2 ≤ cUnicodeMax) (hne : ranges ≠ []) :
    Covers (complement (merge (sorted ranges))) c ↔ c ≤ cUnicodeMax ∧ ¬ Covers ranges c := by
  rw [complement, covers_complementFrom (ascending_merge_sorted hwf)
    (Or.inr (merge_sorted_ne_nil hne)), covers_merge_sorted]
  simp

/-- The transitions of a group are those of its members.  A negated group
without ranges has none. -/
theorem covers_transitionRanges (g : RegexASTGroup) {c : Nat} (hwf : g.WellFormed)
    (hc : c ≤ cUnicodeMax) :
    Covers g.transitionRanges c ↔ g.Contains c ∧ ¬ (g.negate = true ∧ g.ranges = []) := by
  unfold transitionRanges Contains
  by_cases hneg : g.negate = true
  · rw [if_pos hneg, if_pos hneg]
    by_cases hnil : g.ranges = []
    · rw [hnil]
      simp [sorted, merge, complement, complementFrom, hneg]
    · have hwf' : ∀ r ∈ g.ranges, r.1 ≤ r.2 + 1 ∧ r.2 ≤ cUnicodeMax :=
        fun r hr => ⟨Nat.le_succ_of_le (hwf r hr).1, (hwf r hr).2⟩
      rw [covers_complement_merge_sorted hwf' hnil]
      simp [hnil, hc]
  · rw [if_neg hneg, if_neg hneg, covers_merge_sorted]
    simp [hneg]

end RegexASTGroup

/-! ## Trees -/

/-- The nodes of a regular expression, each with its negative captures. -/
inductive RegexAST where
  | empty (negativeCaptures : List Capture)
  | literal (negativeCaptures : List Capture) (character : Nat)
  | group (negativeCaptures : List Capture) (group : RegexASTGroup)
  | or (negativeCaptures : List Capture) (left right : RegexAST)
  | cat (negativeCaptures : List Capture) (left right : RegexAST)
  | multiplication (negativeCaptures : List Capture) (operand : RegexAST) (min max : Nat)
  | capture (negativeCaptures : List Capture) (captureRegexAst : RegexAST) (capture : Capture)
deriving DecidableEq, Repr

namespace RegexAST

def negativeCaptures : RegexAST → List Capture
  | empty neg | literal neg _ | group neg _ | or neg _ _ | cat neg _ _
  | multiplication neg _ _ _ | capture neg _ _ => neg

def setNegativeCaptures (neg : List Capture) : RegexAST → RegexAST
  | empty _ => empty neg
  | literal _ c => literal neg c
  | group _ g => group neg g
  | or _ l r => or neg l r
  | cat _ l r => cat neg l r
  | multiplication _ r min max => multiplication neg r min max
  | capture _ r c => capture neg r c

/-- The captures of the subtree.  The source keeps them in every node. -/
def subtreePositiveCaptures : RegexAST → List Capture
  | empty _ | literal _ _ | group _ _ => []
  | or _ l r | cat _ l r => l.subtreePositiveCaptures ++ r.subtreePositiveCaptures
  | multiplication _ r _ _ => r.subtreePositiveCaptures
  | capture _ r c => r.subtreePositiveCaptures ++ [c]

def mkEmpty : RegexAST := empty []

def mkLiteral (c : Nat) : RegexAST := literal [] c

def mkGroup (g : RegexASTGroup) : RegexAST := group [] g

/-- The constructor of an alternation.  Each side negates the captures of the
other. -/
def mkOr (l r : RegexAST) : RegexAST :=
  or [] (l.setNegativeCaptures r.subtreePositiveCaptures)
    (r.setNegativeCaptures l.subtreePositiveCaptures)

def mkCat (l r : RegexAST) : RegexAST := cat [] l r

def mkMultiplication (r : RegexAST) (min max : Nat) : RegexAST := multiplication [] r min max

def mkCapture (r : RegexAST) (c : Capture) : RegexAST := capture [] r c

/-! ## Denotation -/

/-- The one-byte words whose byte satisfies `P`. -/
def byteLanguage (P : Nat → Prop) : Language UInt8 := {w | ∃ b : UInt8, w = [b] ∧ P b.toNat}

theorem forall_mem_of_mem_byteLanguage_pow {P : Nat → Prop} {k : Nat} {w : List UInt8}
    (hw : w ∈ byteLanguage P ^ k) : ∀ b ∈ w, P b.toNat := by
  induction k generalizing w with
  | zero =>
    cases hw
    simp
  | succ k ih =>
    rw [pow_succ] at hw
    obtain ⟨u, hu, v, ⟨b, rfl, hb⟩, rfl⟩ := Language.mem_mul.1 hw
    intro c hc
    rcases List.mem_append.1 hc with hc | hc
    · exact ih hu c hc
    · rw [List.mem_singleton.1 hc]
      exact hb

/-- The words of `L` repeated between `min` and `max` times, where `max = 0`
sets no upper bound. -/
def repetition (L : Language UInt8) (min max : Nat) : Language UInt8 :=
  {w | ∃ k, min ≤ k ∧ (max = 0 ∨ k ≤ max) ∧ w ∈ L ^ k}

/-- The byte strings that the regular expression describes. -/
def denote : RegexAST → Language UInt8
  | empty _ => 1
  | literal _ c => byteLanguage (· = c)
  | group _ g => byteLanguage g.Contains
  | or _ l r => l.denote + r.denote
  | cat _ l r => l.denote * r.denote
  | multiplication _ r min max => repetition r.denote min max
  | capture _ r _ => r.denote

/-- The character groups hold ranges of code points, and a repetition has
`min ≤ max` unless `max = 0`. -/
def WellFormed : RegexAST → Prop
  | empty _ | literal _ _ => True
  | group _ g => g.WellFormed
  | or _ l r | cat _ l r => l.WellFormed ∧ r.WellFormed
  | multiplication _ r min max => r.WellFormed ∧ (max = 0 ∨ min ≤ max)
  | capture _ r _ => r.WellFormed

instance decidableWellFormed : (r : RegexAST) → Decidable r.WellFormed
  | empty _ | literal _ _ => isTrue trivial
  | group _ g => inferInstanceAs (Decidable g.WellFormed)
  | or _ l r | cat _ l r =>
    have := decidableWellFormed l
    have := decidableWellFormed r
    inferInstanceAs (Decidable (l.WellFormed ∧ r.WellFormed))
  | multiplication _ r min max =>
    have := decidableWellFormed r
    inferInstanceAs (Decidable (r.WellFormed ∧ (max = 0 ∨ min ≤ max)))
  | capture _ r _ => decidableWellFormed r

end RegexAST

end LogSurgeon
