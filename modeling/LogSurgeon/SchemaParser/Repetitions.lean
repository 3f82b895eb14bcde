import LogSurgeon.FiniteAutomata.RegexAST
import Mathlib.Data.Nat.Digits.Defs
import Mathlib.Order.CompletePartialOrder

/-!
# Repetitions in a schema

The rules of the schema grammar for `R*`, `R+`, `R?`, `R{N}` and `R{N,M}`, and
the integers in their braces.

* An integer is the list of its digits.  Its value is accumulated in 32 bits
  from floating powers of ten.
* The cast of a power that does not fit 32 bits is not specified, so `castPow`
  is a parameter.
* A maximum of 0 in a `RegexASTMultiplication` is no maximum, which `R{0}` runs
  into (`repetitions_iff`).
-/

namespace LogSurgeon

namespace SchemaParser

/-! ## Integers -/

/-- The digits of an integer, the first one first. -/
structure RegexASTInteger where
  digits : List UInt32
deriving DecidableEq, Repr

def regexNewIntegerRule (token : UInt8) : RegexASTInteger := ⟨[token.toUInt32 - 48]⟩

def regexExistingIntegerRule (left : RegexASTInteger) (token : UInt8) : RegexASTInteger :=
  ⟨left.digits ++ [token.toUInt32 - 48]⟩

/-- `static_cast<uint32_t>(pow(10, exponent))`, which is exact where the power
fits. -/
def CastsPowers (castPow : Nat → UInt32) : Prop :=
  ∀ exponent, 10 ^ exponent < 2 ^ 32 → (castPow exponent).toNat = 10 ^ exponent

/-- The loop over the digits. -/
def accumulate (castPow : Nat → UInt32) : UInt32 → List UInt32 → UInt32
  | reps, [] => reps
  | reps, digit :: digits => accumulate castPow (reps + digit * castPow digits.length) digits

def RegexASTInteger.value (castPow : Nat → UInt32) (integer : RegexASTInteger) : UInt32 :=
  accumulate castPow 0 integer.digits

/-! ## The rules -/

def regexMatchZeroOrMoreRule (regex : RegexAST) : RegexAST :=
  .mkOr .mkEmpty (.mkMultiplication regex 1 0)

def regexMatchOneOrMoreRule (regex : RegexAST) : RegexAST := .mkMultiplication regex 1 0

def regexMatchZeroOrOneRule (regex : RegexAST) : RegexAST := .mkOr .mkEmpty regex

def regexMatchExactlyRule (castPow : Nat → UInt32) (regex : RegexAST)
    (integer : RegexASTInteger) : RegexAST :=
  let reps := integer.value castPow
  .mkMultiplication regex reps.toNat reps.toNat

def regexMatchRangeRule (castPow : Nat → UInt32) (regex : RegexAST)
    (minInteger maxInteger : RegexASTInteger) : RegexAST :=
  let min := minInteger.value castPow
  let max := maxInteger.value castPow
  if 0 = min then .mkOr .mkEmpty (.mkMultiplication regex 1 max.toNat)
  else .mkMultiplication regex min.toNat max.toNat

/-! ## The value of a numeral -/

/-- The characters of a decimal numeral. -/
structure Numeral where
  first : UInt8
  rest : List UInt8
  digits : ∀ c ∈ first :: rest, 48 ≤ c.toNat ∧ c.toNat ≤ 57

namespace Numeral

/-- What the numeral says. -/
def value (n : Numeral) : Nat :=
  Nat.ofDigits 10 ((n.first :: n.rest).map fun c => c.toNat - 48).reverse

/-- What the grammar makes of the numeral. -/
def parse (n : Numeral) : RegexASTInteger :=
  n.rest.foldl regexExistingIntegerRule (regexNewIntegerRule n.first)

end Numeral

theorem foldl_regexExistingIntegerRule (integer : RegexASTInteger) (tokens : List UInt8) :
    (tokens.foldl regexExistingIntegerRule integer).digits =
      integer.digits ++ tokens.map fun token => token.toUInt32 - 48 := by
  induction tokens generalizing integer with
  | nil => simp
  | cons token tokens ih =>
    rw [List.foldl_cons, ih]
    simp [regexExistingIntegerRule]

theorem Numeral.digits_parse (n : Numeral) :
    n.parse.digits = (n.first :: n.rest).map fun c => c.toUInt32 - 48 :=
  foldl_regexExistingIntegerRule (regexNewIntegerRule n.first) n.rest

theorem toNat_digit {c : UInt8} (hc : 48 ≤ c.toNat) :
    (c.toUInt32 - 48).toNat = c.toNat - 48 := by
  have hle : (48 : UInt32) ≤ c.toUInt32 := by
    rw [UInt32.le_iff_toNat_le, UInt8.toNat_toUInt32]
    exact hc
  rw [UInt32.toNat_sub_of_le _ _ hle, UInt8.toNat_toUInt32]
  rfl

theorem ofDigits_reverse_cons (d : Nat) (ds : List Nat) :
    Nat.ofDigits 10 (d :: ds).reverse =
      d * 10 ^ ds.length + Nat.ofDigits 10 ds.reverse := by
  rw [List.reverse_cons, Nat.ofDigits_append, Nat.ofDigits_singleton, List.length_reverse,
    Nat.add_comm, Nat.mul_comm]

/-- The loop adds up the digits.  A power that does not fit meets the digit 0
only. -/
theorem toNat_accumulate {castPow : Nat → UInt32} (hpow : CastsPowers castPow) {reps : UInt32}
    {digits : List UInt32}
    (h : reps.toNat + Nat.ofDigits 10 (digits.map UInt32.toNat).reverse < 2 ^ 32) :
    (accumulate castPow reps digits).toNat =
      reps.toNat + Nat.ofDigits 10 (digits.map UInt32.toNat).reverse := by
  induction digits generalizing reps with
  | nil => simp [accumulate]
  | cons digit digits ih =>
    rw [List.map_cons, ofDigits_reverse_cons, List.length_map] at h ⊢
    have hstep : (reps + digit * castPow digits.length).toNat =
        reps.toNat + digit.toNat * 10 ^ digits.length := by
      rw [UInt32.toNat_add, UInt32.toNat_mul]
      rcases Nat.eq_zero_or_pos digit.toNat with hzero | hpos
      · rw [hzero, Nat.zero_mul, Nat.zero_mul, Nat.zero_mod]
        exact Nat.mod_eq_of_lt reps.toNat_lt
      · have hle : 10 ^ digits.length ≤ digit.toNat * 10 ^ digits.length :=
          Nat.le_mul_of_pos_left _ hpos
        rw [hpow _ (by omega), Nat.mod_eq_of_lt (a := digit.toNat * _) (by omega),
          Nat.mod_eq_of_lt (by omega)]
    rw [accumulate, ih (by omega), hstep]
    omega

theorem toNat_value_parse {castPow : Nat → UInt32} (hpow : CastsPowers castPow) (n : Numeral)
    (hn : n.value < 2 ^ 32) : (n.parse.value castPow).toNat = n.value := by
  have hdigits : n.parse.digits.map UInt32.toNat =
      (n.first :: n.rest).map fun c => c.toNat - 48 := by
    rw [n.digits_parse, List.map_map]
    exact List.map_congr_left fun c hc => toNat_digit (n.digits c hc).1
  have hvalue : n.value = Nat.ofDigits 10 (n.parse.digits.map UInt32.toNat).reverse := by
    rw [hdigits]
    rfl
  have h := @toNat_accumulate castPow hpow 0 n.parse.digits (by
    rw [← hvalue]
    exact (Nat.zero_add _).trans_lt hn)
  rw [← hvalue] at h
  exact h.trans (Nat.zero_add _)

/-! ## What the rules denote -/

open RegexAST

/-- The words of `L` repeated between `min` and `max` times. -/
def between (L : Language UInt8) (min max : Nat) : Language UInt8 :=
  {w | ∃ k, min ≤ k ∧ k ≤ max ∧ w ∈ L ^ k}

theorem denote_setNegativeCaptures (neg : List Capture) (r : RegexAST) :
    (r.setNegativeCaptures neg).denote = r.denote := by
  cases r <;> rfl

theorem denote_mkOr_mkEmpty (r : RegexAST) : (mkOr mkEmpty r).denote = 1 + r.denote := by
  unfold mkOr mkEmpty
  rw [denote, denote_setNegativeCaptures, denote_setNegativeCaptures]
  rfl

section Repetition

variable {L : Language UInt8} {min max k : Nat}

theorem repetition_of_max (hmax : max ≠ 0) : repetition L min max = between L min max := by
  ext w
  constructor
  · rintro ⟨k, hmin, hzero | hmax', hw⟩
    · exact absurd hzero hmax
    · exact ⟨k, hmin, hmax', hw⟩
  · rintro ⟨k, hmin, hmax', hw⟩
    exact ⟨k, hmin, Or.inr hmax', hw⟩

theorem between_self : between L k k = L ^ k := by
  ext w
  constructor
  · rintro ⟨j, hmin, hmax, hw⟩
    rw [Nat.le_antisymm hmax hmin] at hw
    exact hw
  · exact fun hw => ⟨k, le_rfl, le_rfl, hw⟩

/-- The empty word is the repetition of length 0. -/
theorem one_add_between_one : 1 + between L 1 max = between L 0 max := by
  ext w
  rw [Language.mem_add]
  constructor
  · rintro (hw | ⟨k, -, hmax, hw⟩)
    · exact ⟨0, le_rfl, Nat.zero_le _, by rw [pow_zero]; exact hw⟩
    · exact ⟨k, Nat.zero_le _, hmax, hw⟩
  · rintro ⟨k, -, hmax, hw⟩
    rcases Nat.eq_zero_or_pos k with rfl | hk
    · rw [pow_zero] at hw
      exact Or.inl hw
    · exact Or.inr ⟨k, hk, hmax, hw⟩

theorem repetition_zero_zero : repetition L 0 0 = KStar.kstar L := by
  ext w
  rw [Language.kstar_eq_iSup_pow, Language.mem_iSup]
  exact ⟨fun ⟨k, _, _, hw⟩ => ⟨k, hw⟩, fun ⟨k, hw⟩ => ⟨k, Nat.zero_le _, Or.inl rfl, hw⟩⟩

theorem repetition_one_zero : repetition L 1 0 = L * KStar.kstar L := by
  ext w
  rw [Language.kstar_eq_iSup_pow, Language.mul_iSup, Language.mem_iSup]
  constructor
  · rintro ⟨k, hk, -, hw⟩
    obtain ⟨j, rfl⟩ := Nat.exists_eq_add_of_le' hk
    rw [pow_succ'] at hw
    exact ⟨j, hw⟩
  · rintro ⟨j, hw⟩
    rw [← pow_succ'] at hw
    exact ⟨j + 1, Nat.le_add_left 1 j, Or.inl rfl, hw⟩

/-- Repeating without bounds adds words, unless there is only the empty one. -/
theorem repetition_zero_zero_eq_one_iff : repetition L 0 0 = L ^ 0 ↔ L ≤ 1 := by
  rw [repetition_zero_zero, pow_zero]
  constructor
  · intro h
    rw [← h]
    exact le_kstar
  · intro h
    exact le_antisymm (kstar_le_of_mul_le_left le_rfl (by rwa [one_mul])) one_le_kstar

end Repetition

theorem denote_zeroOrMore (r : RegexAST) :
    (regexMatchZeroOrMoreRule r).denote = KStar.kstar r.denote := by
  unfold regexMatchZeroOrMoreRule
  rw [denote_mkOr_mkEmpty, mkMultiplication, denote, repetition_one_zero,
    Language.one_add_self_mul_kstar_eq_kstar]

theorem denote_oneOrMore (r : RegexAST) :
    (regexMatchOneOrMoreRule r).denote = r.denote * KStar.kstar r.denote := by
  unfold regexMatchOneOrMoreRule
  rw [mkMultiplication, denote, repetition_one_zero]

section Counts

variable {castPow : Nat → UInt32} {n m : Numeral}

theorem denote_range (hpow : CastsPowers castPow) (r : RegexAST) (hn : n.value < 2 ^ 32)
    (hm : m.value < 2 ^ 32) (hpos : 1 ≤ m.value) :
    (regexMatchRangeRule castPow r n.parse m.parse).denote = between r.denote n.value m.value := by
  have hvalue := toNat_value_parse hpow n hn
  have hmax := toNat_value_parse hpow m hm
  unfold regexMatchRangeRule
  dsimp only
  split
  · rename_i hzero
    have hzero : n.value = 0 := by
      rw [← hvalue, ← hzero]
      rfl
    rw [denote_mkOr_mkEmpty, mkMultiplication, denote, hmax, repetition_of_max (by omega),
      one_add_between_one, hzero]
  · rw [mkMultiplication, denote, hvalue, hmax, repetition_of_max (by omega)]

theorem denote_exactly (hpow : CastsPowers castPow) (r : RegexAST) (hn : n.value < 2 ^ 32) :
    (regexMatchExactlyRule castPow r n.parse).denote = repetition r.denote n.value n.value := by
  unfold regexMatchExactlyRule
  rw [mkMultiplication, denote, toNat_value_parse hpow n hn]

/-- The numeral of one digit. -/
def Numeral.ofDigit (d : UInt8) (h : 48 ≤ d.toNat ∧ d.toNat ≤ 57) : Numeral where
  first := d
  rest := []
  digits := by
    intro c hc
    rw [List.mem_singleton.1 hc]
    exact h

/-- The cast that keeps the low 32 bits. -/
def truncatePow (exponent : Nat) : UInt32 := .ofNat (10 ^ exponent)

theorem castsPowers_truncatePow : CastsPowers truncatePow :=
  fun _ h => UInt32.toNat_ofNat_of_lt' h

end Counts

end SchemaParser

end LogSurgeon
