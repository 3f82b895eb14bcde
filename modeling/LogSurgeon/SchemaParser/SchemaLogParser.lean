import LogSurgeon.SchemaParser.SchemaCalls

/-!
# Log parsers of schema texts

What the constructor of `LogParser` does with the schema of a text, and with those
that a `Schema` releases.

* `set_delimiters` writes to an array of `cSizeOfByte` elements without a check.
  A byte from `0x80` on is a negative `char`, so its index is beyond the array
  (`cSizeOfByte_le_charValue`).  The rules do not keep such a byte out.
* `newLogParser_yields`: nothing else is undefined, and the tables that the
  constructor returns are those that the lexer relies on.
-/

namespace LogSurgeon

open Lib

/-- A delimiter is a byte from `0x80` on. -/
def SchemaAST.HasHighDelimiter (schema : SchemaAST) : Prop :=
  ∃ delimiters ∈ schema.delimiters, ∃ b : UInt8, 128 ≤ b ∧ charValue b ∈ delimiters

namespace SchemaParser

/-- The array of delimiters ends before the values of these characters. -/
theorem cSizeOfByte_le_charValue {b : UInt8} : cSizeOfByte ≤ charValue b ↔ 128 ≤ b := by
  have hsize : cSizeOfByte = 256 := rfl
  have hlt : b < 128 ↔ b.toNat < 128 := UInt8.lt_iff_toNat_lt
  have hle : 128 ≤ b ↔ 128 ≤ b.toNat := UInt8.le_iff_toNat_le
  unfold charValue
  rw [hle, hsize]
  split_ifs with hb
  · have hb := hlt.1 hb
    omega
  · have hb := mt hlt.2 hb
    omega

section Constructor

variable {ast : Option ParserAST} {schema : SchemaAST}

theorem hasHighDelimiter_iff (h : ReadsAs ast schema) :
    schema.delimiters.any (·.any (cSizeOfByte ≤ ·)) ↔ schema.HasHighDelimiter := by
  simp only [List.any_eq_true, decide_eq_true_eq]
  constructor
  · rintro ⟨delimiters, hdelimiters, c, hc, hle⟩
    obtain ⟨b, rfl⟩ := (h.2 delimiters hdelimiters).2 c hc
    exact ⟨delimiters, hdelimiters, b, cSizeOfByte_le_charValue.1 hle, hc⟩
  · rintro ⟨delimiters, hdelimiters, b, hb, hmem⟩
    exact ⟨delimiters, hdelimiters, charValue b, hmem, cSizeOfByte_le_charValue.2 hb⟩

/-- Where a list of delimiters is set, the start-of-file character is one of them. -/
theorem delimiterList_eq_nil_iff : schema.delimiterList = [] ↔ schema.delimiters = [] := by
  constructor
  · intro h
    by_contra hne
    have hlast : schema.delimiters.getLast? = some (schema.delimiters.getLast hne) :=
      List.getLast?_eq_getLast_of_ne_nil hne
    have hmem : cCharStartOfFile.toNat ∈ schema.delimiterList := by
      refine LexerTables.mem_delimiterList.2 ⟨by decide, ?_⟩
      unfold isDelimiterOf
      rw [hlast]
      simp
    rw [h] at hmem
    cases hmem
  · intro h
    refine List.eq_nil_iff_forall_not_mem.2 fun b hb => ?_
    have hdelimiter := (LexerTables.mem_delimiterList.1 hb).2
    unfold isDelimiterOf at hdelimiter
    rw [h] at hdelimiter
    cases hdelimiter

/-- The write beyond the array comes first, then the check for delimiters. -/
theorem addRules_cases (h : ReadsAs ast schema) :
    schema.HasHighDelimiter ∧ addRules schema = .error .outOfBounds ∨
      ¬ schema.HasHighDelimiter ∧ schema.delimiters = [] ∧ addRules schema = .error .thrown ∨
      ¬ schema.HasHighDelimiter ∧ schema.delimiters ≠ [] ∧
        ∃ parser, addRules schema = .ok parser := by
  have hhigh := hasHighDelimiter_iff h
  unfold addRules
  split_ifs with hany hnil
  · exact Or.inl ⟨hhigh.1 hany, rfl⟩
  · exact Or.inr (Or.inl ⟨fun hd => hany (hhigh.2 hd), delimiterList_eq_nil_iff.1 hnil, rfl⟩)
  · exact Or.inr (Or.inr ⟨fun hd => hany (hhigh.2 hd),
      fun hd => hnil (delimiterList_eq_nil_iff.2 hd), _, rfl⟩)

/-- What the constructor of `LogParser` does with a schema. -/
structure Constructs (schema : SchemaAST) (regMapOrder : List (Nat × Nat) → List (Nat × Nat))
    (fuel : Nat) : Prop where
  outOfBounds : schema.generate regMapOrder fuel = .error .outOfBounds ↔ schema.HasHighDelimiter
  thrown : schema.delimiters = [] → schema.generate regMapOrder fuel = .error .thrown
  yields : Yields (schema.generate regMapOrder fuel) (LexerTables.OfSchema schema)
    fun fault => fault.IsDefined ∨ fault = .outOfBounds

theorem constructs_of_readsAs (h : ReadsAs ast schema)
    {regMapOrder : List (Nat × Nat) → List (Nat × Nat)}
    (horder : ∀ regMap, (regMapOrder regMap).Perm regMap) (fuel : Nat) :
    Constructs schema regMapOrder fuel := by
  have htables : ∀ t, schema.generate regMapOrder fuel = .ok t →
      LexerTables.OfSchema schema t :=
    fun t ht => LexerTables.ofSchema_generate horder ht
  rcases addRules_cases h with
    ⟨hhigh, hadd⟩ | ⟨hhigh, hnil, hadd⟩ | ⟨hhigh, hne, parser, hadd⟩
  · have hgenerate : schema.generate regMapOrder fuel = .error .outOfBounds := by
      unfold SchemaAST.generate
      rw [hadd]
      rfl
    refine ⟨iff_of_true hgenerate hhigh, fun hnil => ?_, ?_⟩
    · obtain ⟨delimiters, hmem, -⟩ := hhigh
      rw [hnil] at hmem
      cases hmem
    · rw [hgenerate]
      exact Or.inr rfl
  · have hgenerate : schema.generate regMapOrder fuel = .error .thrown := by
      unfold SchemaAST.generate
      rw [hadd]
      rfl
    refine ⟨iff_of_false (fun hout => ?_) hhigh, fun _ => hgenerate, ?_⟩
    · rw [hgenerate] at hout
      cases hout
    · rw [hgenerate]
      exact Or.inl (Or.inl rfl)
  · have hgenerate : schema.generate regMapOrder fuel =
        generateTables (isDelimiterOf schema.delimiters) parser.rules regMapOrder fuel := by
      unfold SchemaAST.generate
      rw [hadd]
      rfl
    have hyields := generateTables_yields (isDelimiterOf schema.delimiters) parser.rules
      regMapOrder fuel
    rw [← hgenerate] at hyields
    refine ⟨iff_of_false (fun hout => ?_) hhigh, fun hnil => absurd hnil hne, ?_⟩
    · have hdefined := hyields.of_error hout
      unfold Fault.IsDefined at hdefined
      simp at hdefined
    · cases hresult : schema.generate regMapOrder fuel with
      | ok t => exact htables t hresult
      | error fault => exact Or.inl (hyields.of_error hresult)

/-- What it does with the schema behind a pointer, whatever the order of the hash
table of registers. -/
def ConstructsFrom (ast : Option ParserAST) : Prop :=
  ∃ schema, ReadsAs ast schema ∧ ∀ regMapOrder fuel,
    (∀ regMap, (regMapOrder regMap).Perm regMap) → Constructs schema regMapOrder fuel

theorem constructsFrom_of_readsAs (h : ReadsAs ast schema) : ConstructsFrom ast :=
  ⟨schema, h, fun _ fuel horder => constructs_of_readsAs h horder fuel⟩

/-- Every schema that a run releases is one that it was for. -/
theorem constructsFrom_of_released {r : SchemaRun} {k : KeptSchemas}
    (h : SchemaRun.Refines r k) : ∀ ast ∈ r.released, ConstructsFrom ast := by
  have hreleased := h.released
  generalize r.released = asts at hreleased
  generalize k.released = schemas at hreleased
  induction hreleased with
  | nil => exact List.forall_mem_nil _
  | cons hast _ ih => exact List.forall_mem_cons.2 ⟨constructsFrom_of_readsAs hast, ih⟩

end Constructor

end SchemaParser

end LogSurgeon
