import LogSurgeon.Schema

/-!
# Character classes

`merge` joins sorted ranges exactly.  `complement` is exact for a list that has a
range and reaches no end: without a range it stays empty, and behind the last
code point it makes the range from `cUnicodeMax + 1` to `cUnicodeMax`
(`algebra_exact_iff`).

The groups of wildcards are made from the sorted delimiters, and cover the code
points between them (`removesDelimiters`).
-/

namespace LogSurgeon

namespace RegexASTGroup

/-! ## Negated groups -/

/-- What `negate()` makes of the ranges. -/
def negateRanges (ranges : List Range) : List Range := complement (merge (sorted ranges))

/-- The method `negate()`. -/
def negated (g : RegexASTGroup) : RegexASTGroup := { g with ranges := negateRanges g.ranges }

/-- The ranges are in order, and a code point lies between two of them. -/
def Separated (ranges : List Range) : Prop := ranges.Pairwise fun a b => a.2 + 1 < b.1

/-- The merged ranges are separated and cover the same code points. -/
structure MergesExactly (ranges : List Range) : Prop where
  covers : ∀ c, Covers (merge (sorted ranges)) c ↔ Covers ranges c
  separated : Separated (merge (sorted ranges))
  nonempty : ∀ r ∈ merge (sorted ranges), r.1 ≤ r.2

/-- The complement of the merged ranges covers the other code points. -/
structure ComplementsExactly (ranges : List Range) : Prop where
  covers : ∀ c, Covers (complement (merge (sorted ranges))) c ↔
    c ≤ cUnicodeMax ∧ ¬ Covers (merge (sorted ranges)) c
  nonempty : ∀ r ∈ complement (merge (sorted ranges)), r.1 ≤ r.2 ∧ r.2 ≤ cUnicodeMax

/-- A group that is negated twice covers the same code points. -/
def NegatesBack (g : RegexASTGroup) : Prop :=
  ∀ c, Covers g.negated.negated.ranges c ↔ Covers g.ranges c

variable {ranges : List Range} {cur : Range} {low : Nat}

/-! ### Merged ranges -/

theorem le_of_mem_mergeFrom (hcur : cur.1 ≤ cur.2) (hranges : ∀ r ∈ ranges, r.1 ≤ r.2) :
    ∀ r ∈ mergeFrom cur ranges, r.1 ≤ r.2 := by
  induction ranges generalizing cur with
  | nil => simpa [mergeFrom] using hcur
  | cons range ranges ih =>
    have hrest : ∀ r ∈ ranges, r.1 ≤ r.2 := fun r hr => hranges r (List.mem_cons_of_mem _ hr)
    rw [mergeFrom]
    split
    · exact ih (hcur.trans (Nat.le_max_right _ _)) hrest
    · intro r hr
      rcases List.mem_cons.1 hr with heq | hr
      · rwa [heq]
      · exact ih (hranges range List.mem_cons_self) hrest r hr

theorem separated_mergeFrom (hsorted : (cur :: ranges).Pairwise (·.1 ≤ ·.1)) :
    Separated (mergeFrom cur ranges) ∧ ∀ r ∈ mergeFrom cur ranges, cur.1 ≤ r.1 := by
  induction ranges generalizing cur with
  | nil => simp [mergeFrom, Separated]
  | cons range ranges ih =>
    obtain ⟨hcur, hrest⟩ := List.pairwise_cons.1 hsorted
    have hrange : cur.1 ≤ range.1 := hcur range List.mem_cons_self
    rw [mergeFrom]
    split
    · apply ih
      refine List.pairwise_cons.2 ⟨fun r hr => ?_, (List.pairwise_cons.1 hrest).2⟩
      exact hcur r (List.mem_cons_of_mem _ hr)
    · rename_i hgap
      obtain ⟨hseparated, hfirst⟩ := ih hrest
      constructor
      · refine List.pairwise_cons.2 ⟨fun r hr => ?_, hseparated⟩
        have := hfirst r hr
        omega
      · intro r hr
        rcases List.mem_cons.1 hr with heq | hr
        · rw [heq]
        · exact hrange.trans (hfirst r hr)

theorem mergesExactly (hwf : ∀ r ∈ ranges, r.1 ≤ r.2) : MergesExactly ranges := by
  have hsorted := pairwise_sorted ranges
  have hle : ∀ r ∈ sorted ranges, r.1 ≤ r.2 := fun r hr => hwf r (mem_sorted.1 hr)
  refine ⟨fun c => covers_merge_sorted, ?_, ?_⟩
  · cases hs : sorted ranges with
    | nil => exact List.Pairwise.nil
    | cons r rs =>
      rw [hs] at hsorted
      exact (separated_mergeFrom hsorted).1
  · cases hs : sorted ranges with
    | nil => simp [merge]
    | cons r rs =>
      rw [hs] at hle
      obtain ⟨hr, hrs⟩ := List.forall_mem_cons.1 hle
      exact le_of_mem_mergeFrom hr hrs

/-! ### Complements -/

/-- The range behind the last range. -/
theorem mem_complementFrom_of_getLast {r : Range} (h : r ∈ ranges.getLast?) :
    (r.2 + 1, cUnicodeMax) ∈ complementFrom low ranges := by
  induction ranges generalizing low with
  | nil => simp at h
  | cons range ranges ih =>
    have hrest : (r.2 + 1, cUnicodeMax) ∈ complementFrom (range.2 + 1) ranges := by
      cases ranges with
      | nil =>
        obtain rfl : range = r := by simpa using h
        simp [complementFrom]
      | cons => exact ih (by simpa using h)
    rw [complementFrom]
    split
    · exact List.mem_cons_of_mem _ hrest
    · exact hrest

theorem complementFrom_ne_nil (hne : ranges ≠ []) : complementFrom low ranges ≠ [] := by
  obtain ⟨r, hr⟩ := Option.ne_none_iff_exists'.1 (mt List.getLast?_eq_none_iff.1 hne)
  exact List.ne_nil_of_mem (mem_complementFrom_of_getLast hr)

/-- The ranges of a complement are empty at most. -/
theorem le_succ_of_mem_complementFrom (h : Ascending low ranges) (hlow : low ≤ cUnicodeMax + 1) :
    ∀ r ∈ complementFrom low ranges, r.1 ≤ r.2 + 1 ∧ r.2 ≤ cUnicodeMax := by
  induction ranges generalizing low with
  | nil =>
    rw [complementFrom]
    split <;> simp [hlow]
  | cons range ranges ih =>
    obtain ⟨hle, hrange, hmax, hrest⟩ := h
    have hbehind := ih hrest (Nat.succ_le_succ hmax)
    rw [complementFrom]
    split
    · refine List.forall_mem_cons.2 ⟨?_, hbehind⟩
      show low ≤ range.1 - 1 + 1 ∧ range.1 - 1 ≤ cUnicodeMax
      omega
    · exact hbehind

/-- If no range reaches the end, no range of the complement is empty. -/
theorem le_of_mem_complementFrom (hseparated : Separated ranges)
    (hranges : ∀ r ∈ ranges, r.1 ≤ r.2 ∧ r.2 < cUnicodeMax)
    (hfirst : ∀ r ∈ ranges, r.1 = 0 ∨ low < r.1) (hlow : low ≤ cUnicodeMax) :
    ∀ r ∈ complementFrom low ranges, r.1 ≤ r.2 ∧ r.2 ≤ cUnicodeMax := by
  induction ranges generalizing low with
  | nil =>
    rw [complementFrom]
    split <;> simp [hlow]
  | cons range ranges ih =>
    obtain ⟨hgap, hseparated⟩ := List.pairwise_cons.1 hseparated
    obtain ⟨⟨hle, hmax⟩, hranges⟩ := List.forall_mem_cons.1 hranges
    have hbefore := hfirst range List.mem_cons_self
    have hbehind := ih hseparated hranges (fun r hr => Or.inr (hgap r hr)) hmax
    rw [complementFrom]
    split
    · refine List.forall_mem_cons.2 ⟨?_, hbehind⟩
      show low ≤ range.1 - 1 ∧ range.1 - 1 ≤ cUnicodeMax
      omega
    · exact hbehind

theorem covers_of_mem {r : Range} {c : Nat} (hr : r ∈ ranges) (hle : r.1 ≤ c) (hc : c ≤ r.2) :
    Covers ranges c := ⟨r, hr, hle, hc⟩

/-- A list of ranges that is merged reaches as far as the list. -/
theorem le_of_mem_merge {r : Range} {bound : Nat} (hwf : ∀ r ∈ ranges, r.1 ≤ r.2)
    (hbound : ∀ r ∈ ranges, r.2 ≤ bound) (hr : r ∈ merge (sorted ranges)) : r.2 ≤ bound := by
  have hle := (mergesExactly hwf).nonempty r hr
  obtain ⟨r', hr', -, hc⟩ :=
    ((mergesExactly hwf).covers r.2).1 (covers_of_mem hr hle (Nat.le_refl _))
  exact hc.trans (hbound r' hr')

theorem complementsExactly (hwf : ∀ r ∈ ranges, r.1 ≤ r.2) (hne : ranges ≠ [])
    (hmax : ∀ r ∈ ranges, r.2 < cUnicodeMax) : ComplementsExactly ranges := by
  have hbound : ∀ r ∈ merge (sorted ranges), r.2 < cUnicodeMax := by
    intro r hr
    have hpos : 0 < cUnicodeMax := by decide
    have hle := le_of_mem_merge hwf (fun r hr => Nat.le_sub_one_of_lt (hmax r hr)) hr
    omega
  constructor
  · intro c
    rw [covers_merge_sorted]
    exact covers_complement_merge_sorted
      (fun r hr => ⟨Nat.le_succ_of_le (hwf r hr), (hmax r hr).le⟩) hne
  · refine le_of_mem_complementFrom (mergesExactly hwf).separated
      (fun r hr => ⟨(mergesExactly hwf).nonempty r hr, hbound r hr⟩) (fun r _ => ?_)
      (Nat.zero_le _)
    exact (Nat.eq_zero_or_pos r.1)

/-- Without a range, the complement has none either. -/
theorem not_complementsExactly_nil : ¬ ComplementsExactly [] := by
  intro h
  have hcovers := (h.covers 0).2 ⟨Nat.zero_le _, covers_nil 0⟩
  exact covers_nil 0 hcovers

/-- Behind a range that reaches the end, the complement has an empty range. -/
theorem lt_of_complementsExactly (hwf : ∀ r ∈ ranges, r.1 ≤ r.2 ∧ r.2 ≤ cUnicodeMax)
    (h : ComplementsExactly ranges) : ∀ r ∈ ranges, r.2 < cUnicodeMax := by
  intro r hr
  have hle : ∀ r ∈ ranges, r.1 ≤ r.2 := fun r hr => (hwf r hr).1
  have hmerge := mergesExactly hle
  obtain ⟨r', hr', -, hc⟩ :=
    (hmerge.covers r.2).2 (covers_of_mem hr (hwf r hr).1 (Nat.le_refl _))
  obtain ⟨last, hlast⟩ := Option.ne_none_iff_exists'.1
    (mt List.getLast?_eq_none_iff.1 (List.ne_nil_of_mem hr'))
  have htail := h.nonempty _ (mem_complementFrom_of_getLast hlast)
  have htail : last.2 + 1 ≤ cUnicodeMax := htail.1
  have hreach : r'.2 ≤ last.2 := by
    obtain ⟨init, hinit⟩ := List.getLast?_eq_some_iff.1 hlast
    have hseparated : Separated (init ++ [last]) := hinit ▸ hmerge.separated
    have hnonempty := hmerge.nonempty last (List.mem_of_getLast? hlast)
    rw [hinit] at hr'
    rcases List.mem_append.1 hr' with hr' | hr'
    · have hgap := (List.pairwise_append.1 hseparated).2.2 r' hr' last List.mem_cons_self
      omega
    · rw [List.mem_singleton.1 hr']
  omega

/-- A group that is negated twice covers the same code points, whatever its
ranges are. -/
theorem negatesBack {g : RegexASTGroup} (hwf : g.WellFormed) : NegatesBack g := by
  intro c
  by_cases hne : g.ranges = []
  · show Covers (negateRanges (negateRanges g.ranges)) c ↔ _
    rw [hne]
    rfl
  · have hwf' : ∀ r ∈ g.ranges, r.1 ≤ r.2 + 1 ∧ r.2 ≤ cUnicodeMax :=
      fun r hr => ⟨Nat.le_succ_of_le (hwf r hr).1, (hwf r hr).2⟩
    have hnegated : ∀ r ∈ negateRanges g.ranges, r.1 ≤ r.2 + 1 ∧ r.2 ≤ cUnicodeMax :=
      le_succ_of_mem_complementFrom (ascending_merge_sorted hwf') (Nat.zero_le _)
    have hne' : negateRanges g.ranges ≠ [] := complementFrom_ne_nil (merge_sorted_ne_nil hne)
    show Covers (negateRanges (negateRanges g.ranges)) c ↔ _
    unfold negateRanges at hnegated hne' ⊢
    rw [covers_complement_merge_sorted hnegated hne', covers_complement_merge_sorted hwf' hne]
    constructor
    · intro ⟨hc, hno⟩
      by_contra hcovers
      exact hno ⟨hc, hcovers⟩
    · intro hcovers
      obtain ⟨r, hr, -, hc⟩ := id hcovers
      exact ⟨hc.trans (hwf r hr).2, fun hno => hno.2 hcovers⟩

/-- The algebra of the ranges is exact if there is a range and none of them
reaches the end. -/
theorem algebra_exact_iff (hwf : ∀ r ∈ ranges, r.1 ≤ r.2 ∧ r.2 ≤ cUnicodeMax) :
    (MergesExactly ranges ∧ ComplementsExactly ranges ∧
      ∀ g : RegexASTGroup, g.ranges = ranges → NegatesBack g) ↔
      ranges ≠ [] ∧ ∀ r ∈ ranges, r.2 ≠ cUnicodeMax := by
  have hle : ∀ r ∈ ranges, r.1 ≤ r.2 := fun r hr => (hwf r hr).1
  constructor
  · rintro ⟨-, hcomplement, -⟩
    constructor
    · intro hnil
      rw [hnil] at hcomplement
      exact not_complementsExactly_nil hcomplement
    · intro r hr
      exact (lt_of_complementsExactly hwf hcomplement r hr).ne
  · intro ⟨hne, hmax⟩
    refine ⟨mergesExactly hle, ?_, ?_⟩
    · exact complementsExactly hle hne fun r hr => Nat.lt_of_le_of_ne (hwf r hr).2 (hmax r hr)
    · intro g hg
      apply negatesBack
      unfold WellFormed
      rwa [hg]

theorem algebra_exact_iff_digits :
    (∀ r ∈ [(48, 57)], r.1 ≤ r.2 ∧ r.2 ≤ cUnicodeMax) ∧
      ((MergesExactly [(48, 57)] ∧ ComplementsExactly [(48, 57)] ∧
        ∀ g : RegexASTGroup, g.ranges = [(48, 57)] → NegatesBack g) ↔
        [(48, 57)] ≠ ([] : List Range) ∧ ∀ r ∈ [(48, 57)], r.2 ≠ cUnicodeMax) :=
  ⟨by decide, algebra_exact_iff (by decide)⟩

/-- The ranges of `\\D` reach the end.  Their complement has the range from
`cUnicodeMax + 1` to `cUnicodeMax`. -/
theorem not_complementsExactly_notDigits :
    (∀ r ∈ [(0, 47), (58, cUnicodeMax)], r.1 ≤ r.2 ∧ r.2 ≤ cUnicodeMax) ∧
      (cUnicodeMax + 1, cUnicodeMax) ∈ complement (merge (sorted [(0, 47), (58, cUnicodeMax)])) ∧
      ¬ ComplementsExactly [(0, 47), (58, cUnicodeMax)] := by
  have hmem : (cUnicodeMax + 1, cUnicodeMax) ∈
      complement (merge (sorted [(0, 47), (58, cUnicodeMax)])) := by decide
  refine ⟨by decide, hmem, fun h => ?_⟩
  exact absurd (h.nonempty _ hmem).1 (by decide)

/-! ## Wildcards -/

/-- The ranges of the group cover the code points outside the list. -/
structure CoversOutside (delimiters : List Nat) (g : RegexASTGroup) : Prop where
  covers : ∀ c, Covers g.ranges c ↔ c ≤ cUnicodeMax ∧ c ∉ delimiters
  nonempty : ∀ r ∈ g.ranges, r.1 ≤ r.2

section Outside

variable {delimiters : List Nat} {previous : Nat}

theorem covers_rangesBehind (hsorted : (previous :: delimiters).Pairwise (· ≤ ·))
    (hmax : ∀ d ∈ previous :: delimiters, d ≤ cUnicodeMax) (c : Nat) :
    Covers (rangesBehind previous delimiters) c ↔
      previous < c ∧ c ≤ cUnicodeMax ∧ c ∉ delimiters := by
  induction delimiters generalizing previous with
  | nil =>
    have hprevious := hmax previous List.mem_cons_self
    rw [rangesBehind]
    split
    · simp only [covers_cons, covers_nil, or_false, List.not_mem_nil, not_false_iff, and_true]
      omega
    · simp only [covers_nil, List.not_mem_nil, not_false_iff, and_true, false_iff]
      omega
  | cons delimiter delimiters ih =>
    obtain ⟨hle, hrest⟩ := List.pairwise_cons.1 hsorted
    have hdelimiter := hle delimiter List.mem_cons_self
    have hbound := hmax delimiter (by simp)
    have hbehind := ih hrest fun d hd => hmax d (List.mem_cons_of_mem _ hd)
    have hbefore : c < delimiter → c ∉ delimiters := by
      intro hlt hc
      have := (List.pairwise_cons.1 hrest).1 c hc
      omega
    have hgap : Covers (rangesBehind previous (delimiter :: delimiters)) c ↔
        previous < c ∧ c < delimiter ∨ Covers (rangesBehind delimiter delimiters) c := by
      rw [rangesBehind]
      split
      · rw [covers_cons]
        simp only
        refine or_congr_left ?_
        omega
      · rw [or_iff_right]
        omega
    rw [hgap, hbehind, List.mem_cons, not_or]
    constructor
    · intro hc
      rcases hc with ⟨hlow, hhigh⟩ | ⟨hlow, hhigh, hno⟩
      · exact ⟨hlow, by omega, by omega, hbefore hhigh⟩
      · exact ⟨by omega, hhigh, by omega, hno⟩
    · intro hc
      obtain ⟨hlow, hhigh, hne, hno⟩ := hc
      rcases Nat.lt_or_gt_of_ne hne with hlt | hgt
      · exact Or.inl ⟨hlow, hlt⟩
      · exact Or.inr ⟨hgt, hhigh, hno⟩

theorem le_of_mem_rangesBehind (hmax : ∀ d ∈ previous :: delimiters, d ≤ cUnicodeMax) :
    ∀ r ∈ rangesBehind previous delimiters, r.1 ≤ r.2 := by
  induction delimiters generalizing previous with
  | nil =>
    have hprevious := hmax previous List.mem_cons_self
    rw [rangesBehind]
    split
    · simp only [List.mem_singleton, forall_eq]
      omega
    · simp
  | cons delimiter delimiters ih =>
    have hrest := ih fun d hd => hmax d (List.mem_cons_of_mem _ hd)
    rw [rangesBehind]
    split
    · refine List.forall_mem_cons.2 ⟨?_, hrest⟩
      show previous + 1 ≤ delimiter - 1
      omega
    · exact hrest

theorem covers_rangesOutside (hne : delimiters ≠ []) (hsorted : delimiters.Pairwise (· ≤ ·))
    (hmax : ∀ d ∈ delimiters, d ≤ cUnicodeMax) (c : Nat) :
    Covers (rangesOutside delimiters) c ↔ c ≤ cUnicodeMax ∧ c ∉ delimiters := by
  cases delimiters with
  | nil => exact absurd rfl hne
  | cons delimiter delimiters =>
    have hbehind := covers_rangesBehind hsorted hmax c
    have hbound := hmax delimiter List.mem_cons_self
    have hbefore : c < delimiter → c ∉ delimiters := by
      intro hlt hc
      have := (List.pairwise_cons.1 hsorted).1 c hc
      omega
    have hgap : Covers (rangesOutside (delimiter :: delimiters)) c ↔
        c < delimiter ∨ Covers (rangesBehind delimiter delimiters) c := by
      rw [rangesOutside]
      split
      · rw [covers_cons]
        simp only
        refine or_congr_left ?_
        omega
      · rw [or_iff_right]
        omega
    rw [hgap, hbehind, List.mem_cons, not_or]
    constructor
    · intro hc
      rcases hc with hlt | ⟨hlow, hhigh, hno⟩
      · exact ⟨by omega, by omega, hbefore hlt⟩
      · exact ⟨hhigh, by omega, hno⟩
    · intro ⟨hhigh, hne, hno⟩
      rcases Nat.lt_or_gt_of_ne hne with hlt | hgt
      · exact Or.inl hlt
      · exact Or.inr ⟨hgt, hhigh, hno⟩

theorem le_of_mem_rangesOutside (hmax : ∀ d ∈ delimiters, d ≤ cUnicodeMax) :
    ∀ r ∈ rangesOutside delimiters, r.1 ≤ r.2 := by
  cases delimiters with
  | nil => simp [rangesOutside]
  | cons delimiter delimiters =>
    have hrest := le_of_mem_rangesBehind hmax
    rw [rangesOutside]
    split
    · exact List.forall_mem_cons.2 ⟨Nat.zero_le _, hrest⟩
    · exact hrest

/-- A wildcard covers the code points outside the delimiters. -/
theorem coversOutside_removeDelimiters {g : RegexASTGroup} (hwildcard : g.isWildcard = true)
    (hne : delimiters ≠ []) (hmax : ∀ d ∈ delimiters, d ≤ cUnicodeMax) :
    (g.removeDelimitersFromWildcard delimiters).CoversOutside delimiters := by
  have hmem : ∀ d, d ∈ delimiters.insertionSort (· ≤ ·) ↔ d ∈ delimiters :=
    fun d => List.mem_insertionSort _
  have hne' : delimiters.insertionSort (· ≤ ·) ≠ [] := by
    obtain ⟨d, hd⟩ := List.exists_mem_of_ne_nil _ hne
    exact List.ne_nil_of_mem ((hmem d).2 hd)
  have hmax' : ∀ d ∈ delimiters.insertionSort (· ≤ ·), d ≤ cUnicodeMax :=
    fun d hd => hmax d ((hmem d).1 hd)
  unfold removeDelimitersFromWildcard
  rw [if_neg (by simp [hwildcard, hne])]
  constructor
  · intro c
    rw [← hmem c]
    exact covers_rangesOutside hne' (List.pairwise_insertionSort _ _) hmax' c
  · exact le_of_mem_rangesOutside hmax'

theorem isWildcard_removeDelimiters (delimiters : List Nat) (g : RegexASTGroup) :
    (g.removeDelimitersFromWildcard delimiters).isWildcard = g.isWildcard := by
  unfold removeDelimitersFromWildcard
  split <;> rfl

/-- The order of the delimiters does not count, and neither does a second time. -/
theorem removeDelimiters_twice {delimiters' : List Nat} (hperm : delimiters'.Perm delimiters)
    (g : RegexASTGroup) :
    (g.removeDelimitersFromWildcard delimiters).removeDelimitersFromWildcard delimiters' =
      g.removeDelimitersFromWildcard delimiters := by
  have hsort : delimiters'.insertionSort (· ≤ ·) = delimiters.insertionSort (· ≤ ·) := by
    refine List.Perm.eq_of_pairwise (fun a b _ _ => Nat.le_antisymm)
      (List.pairwise_insertionSort _ _) (List.pairwise_insertionSort _ _) ?_
    exact (List.perm_insertionSort _ _).trans (hperm.trans (List.perm_insertionSort _ _).symm)
  have hnil : delimiters' = [] ↔ delimiters = [] := by
    rw [← List.length_eq_zero_iff, hperm.length_eq, List.length_eq_zero_iff]
  unfold removeDelimitersFromWildcard
  by_cases hskip : ¬ g.isWildcard ∨ delimiters = []
  · have hskip' : ¬ g.isWildcard ∨ delimiters' = [] := by rwa [hnil]
    rw [if_pos hskip, if_pos hskip']
  · have hskip' : ¬ (¬ g.isWildcard ∨ delimiters' = []) := by rwa [hnil]
    rw [if_neg hskip]
    dsimp only
    rw [if_neg hskip', hsort]

end Outside

end RegexASTGroup

namespace RegexAST

open RegexASTGroup

/-- The groups of the tree, from left to right. -/
def groups : RegexAST → List RegexASTGroup
  | empty _ | literal _ _ => []
  | group _ g => [g]
  | or _ l r | cat _ l r => l.groups ++ r.groups
  | multiplication _ r _ _ => r.groups
  | capture _ r _ => r.groups

/-- The trees are the same up to the ranges of the wildcards. -/
inductive SameOffWildcards : RegexAST → RegexAST → Prop where
  | empty (neg : List Capture) : SameOffWildcards (empty neg) (empty neg)
  | literal (neg : List Capture) (c : Nat) : SameOffWildcards (literal neg c) (literal neg c)
  | group (neg : List Capture) {g : RegexASTGroup} (hno : ¬ g.isWildcard = true) :
      SameOffWildcards (group neg g) (group neg g)
  | «wildcard» (neg : List Capture) {g : RegexASTGroup} (ranges : List Range)
      (hwildcard : g.isWildcard = true) :
      SameOffWildcards (group neg g) (group neg { g with ranges := ranges })
  | or (neg : List Capture) {l l' r r' : RegexAST} (hleft : SameOffWildcards l l')
      (hright : SameOffWildcards r r') : SameOffWildcards (or neg l r) (or neg l' r')
  | cat (neg : List Capture) {l l' r r' : RegexAST} (hleft : SameOffWildcards l l')
      (hright : SameOffWildcards r r') : SameOffWildcards (cat neg l r) (cat neg l' r')
  | multiplication (neg : List Capture) {r r' : RegexAST} (min max : Nat)
      (hoperand : SameOffWildcards r r') :
      SameOffWildcards (multiplication neg r min max) (multiplication neg r' min max)
  | capture (neg : List Capture) {r r' : RegexAST} (c : Capture)
      (hregex : SameOffWildcards r r') : SameOffWildcards (capture neg r c) (capture neg r' c)

variable {delimiters : List Nat}

/-- The groups of the tree are changed one by one. -/
theorem groups_removeDelimiters (tree : RegexAST) :
    (tree.removeDelimitersFromWildcard delimiters).groups =
      tree.groups.map (·.removeDelimitersFromWildcard delimiters) := by
  induction tree with
  | empty => rfl
  | literal => rfl
  | group => rfl
  | or _ _ _ ihl ihr => simp [removeDelimitersFromWildcard, groups, ihl, ihr]
  | cat _ _ _ ihl ihr => simp [removeDelimitersFromWildcard, groups, ihl, ihr]
  | multiplication _ _ _ _ ih => exact ih
  | capture _ _ _ ih => exact ih

theorem sameOffWildcards_removeDelimiters (tree : RegexAST) :
    SameOffWildcards tree (tree.removeDelimitersFromWildcard delimiters) := by
  induction tree with
  | empty neg => exact .empty neg
  | literal neg c => exact .literal neg c
  | group neg g =>
    show SameOffWildcards _ (.group neg (g.removeDelimitersFromWildcard delimiters))
    by_cases hwildcard : g.isWildcard = true
    · unfold RegexASTGroup.removeDelimitersFromWildcard
      split
      · exact .wildcard neg g.ranges hwildcard
      · exact .wildcard neg _ hwildcard
    · unfold RegexASTGroup.removeDelimitersFromWildcard
      rw [if_pos (Or.inl hwildcard)]
      exact .group neg hwildcard
  | or neg _ _ ihl ihr => exact .or neg ihl ihr
  | cat neg _ _ ihl ihr => exact .cat neg ihl ihr
  | multiplication neg _ min max ih => exact .multiplication neg min max ih
  | capture neg _ c ih => exact .capture neg c ih

theorem removeDelimiters_twice {delimiters' : List Nat} (hperm : delimiters'.Perm delimiters)
    (tree : RegexAST) :
    (tree.removeDelimitersFromWildcard delimiters).removeDelimitersFromWildcard delimiters' =
      tree.removeDelimitersFromWildcard delimiters := by
  induction tree with
  | empty => rfl
  | literal => rfl
  | group neg g => exact congrArg (group neg) (RegexASTGroup.removeDelimiters_twice hperm g)
  | or _ _ _ ihl ihr => simp [removeDelimitersFromWildcard, ihl, ihr]
  | cat _ _ _ ihl ihr => simp [removeDelimitersFromWildcard, ihl, ihr]
  | multiplication _ _ _ _ ih => simp [removeDelimitersFromWildcard, ih]
  | capture _ _ _ ih => simp [removeDelimitersFromWildcard, ih]

/-- Every wildcard of the tree covers the code points outside the delimiters, the
rest of the tree stays, and a second time changes nothing. -/
theorem removesDelimiters (tree : RegexAST) (hne : delimiters ≠ [])
    (hmax : ∀ d ∈ delimiters, d ≤ cUnicodeMax) :
    (∀ g ∈ (tree.removeDelimitersFromWildcard delimiters).groups, g.isWildcard = true →
        g.CoversOutside delimiters) ∧
      SameOffWildcards tree (tree.removeDelimitersFromWildcard delimiters) ∧
      ∀ delimiters', delimiters'.Perm delimiters →
        (tree.removeDelimitersFromWildcard delimiters).removeDelimitersFromWildcard delimiters' =
          tree.removeDelimitersFromWildcard delimiters := by
  refine ⟨?_, sameOffWildcards_removeDelimiters tree,
    fun _ hperm => removeDelimiters_twice hperm tree⟩
  intro g hg hwildcard
  rw [groups_removeDelimiters, List.mem_map] at hg
  obtain ⟨g, -, rfl⟩ := hg
  rw [isWildcard_removeDelimiters] at hwildcard
  exact coversOutside_removeDelimiters hwildcard hne hmax

/-- The wildcard `.` with the delimiters blank and newline. -/
theorem removesDelimiters_wildcard :
    ((RegexAST.mkGroup ⟨true, false, [(0, cUnicodeMax)]⟩).removeDelimitersFromWildcard
        [32, 10]).groups = [⟨true, false, [(0, 9), (11, 31), (33, cUnicodeMax)]⟩] ∧
      RegexASTGroup.CoversOutside [32, 10]
        ⟨true, false, [(0, 9), (11, 31), (33, cUnicodeMax)]⟩ := by
  have hgroups : ((RegexAST.mkGroup ⟨true, false, [(0, cUnicodeMax)]⟩).removeDelimitersFromWildcard
      [32, 10]).groups = [⟨true, false, [(0, 9), (11, 31), (33, cUnicodeMax)]⟩] := by decide
  have hcovers := (removesDelimiters (.mkGroup ⟨true, false, [(0, cUnicodeMax)]⟩)
    (by decide : [32, 10] ≠ []) (by decide)).1
  exact ⟨hgroups, hcovers _ (by rw [hgroups]; exact List.mem_singleton_self _) rfl⟩

end RegexAST

end LogSurgeon
