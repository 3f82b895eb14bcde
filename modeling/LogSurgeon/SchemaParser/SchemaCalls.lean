import LogSurgeon.SchemaParser.SchemaText
import Mathlib.Data.List.InsertIdx

/-!
# Schemas made by calls

The class `Schema`: a schema that starts empty or from a file, gets the variables
and delimiters of further texts, and is released to `LogParser`.

* `addVariable` and `addDelimiters` parse their text as a schema of its own.
  They throw before they change anything.
* The size of the vector is cast to `int`, and an insertion behind the end of the
  vector is undefined.
* `KeptSchemas` is what the calls are for: a list of variables in the order of
  their priority, where a call inserts one at its place.
* `runCalls_refine`: every run of calls does this, without undefined behaviour.
-/

namespace LogSurgeon

open Lib

/-- `m_schema_ast`. -/
structure Schema where
  schemaAst : Option ParserAST

/-- The variables and the delimiters behind a pointer to a `SchemaAST`. -/
def derefSchema : Option ParserAST →
    Except ParseFault (List (Option ParserAST) × List (Option ParserAST))
  | some (.schema schemaVars delimiters) => .ok (schemaVars, delimiters)
  | _ => .error (.parser .nullPointer)

@[simp] theorem derefSchema_some (schemaVars delimiters : List (Option ParserAST)) :
    derefSchema (some (.schema schemaVars delimiters)) = .ok (schemaVars, delimiters) := rfl

/-- `SchemaAST::add_schema_var` -/
def addSchemaVar (schemaVar : Option ParserAST) (pos : Int32)
    (schemaVars : List (Option ParserAST)) : Except ParseFault (List (Option ParserAST)) :=
  if pos = -1 then .ok (schemaVars ++ [schemaVar])
  else if 0 ≤ pos.toInt ∧ pos.toInt ≤ schemaVars.length then
    .ok (schemaVars.insertIdx pos.toInt.toNat schemaVar)
  else .error (.parser .outOfBounds)

inductive SchemaCall where
  | addVariable (varSchema : List UInt8) (inversePriority : Int32)
  | addDelimiters (delimitersSchema : List UInt8)
  | releaseSchemaAstPtr

namespace Schema

open SchemaParser

def new : Schema := ⟨some (.schema [] [])⟩

section Calls

variable (platform : Platform) (fuel steps : Nat)

def ofFile (file : Except ErrorCode Reader) : Except ParseFault Schema := do
  return ⟨← trySchemaFile platform fuel steps file⟩

def addVariable (varSchema : List UInt8) (inversePriority : Int32) :
    EStateM ParseFault Schema Unit := do
  let newAst ← MonadExcept.ofExcept (trySchemaString platform fuel steps varSchema)
  let (newVars, _) ← MonadExcept.ofExcept (derefSchema newAst)
  match newVars with
  | [] => throw (.parser .thrown)
  | schemaVar :: _ =>
    if inversePriority < -1 then throw (.parser .thrown)
    else
      let (schemaVars, delimiters) ← MonadExcept.ofExcept (derefSchema (← get).schemaAst)
      if Int32.ofNat schemaVars.length < inversePriority then throw (.parser .thrown)
      else
        let schemaVars ← MonadExcept.ofExcept (addSchemaVar schemaVar inversePriority schemaVars)
        set (Schema.mk (some (.schema schemaVars delimiters)))

def addDelimiters (delimitersSchema : List UInt8) : EStateM ParseFault Schema Unit := do
  let newAst ← MonadExcept.ofExcept (trySchemaString platform fuel steps delimitersSchema)
  let (_, newDelimiters) ← MonadExcept.ofExcept (derefSchema newAst)
  match newDelimiters with
  | [] => throw (.parser .thrown)
  | delimiterString :: _ =>
    let (schemaVars, delimiters) ← MonadExcept.ofExcept (derefSchema (← get).schemaAst)
    set (Schema.mk (some (.schema schemaVars (delimiters ++ [delimiterString]))))

/-- The schema goes to the caller. -/
def releaseSchemaAstPtr : EStateM ParseFault Schema (Option ParserAST) := do
  let schema ← get
  set Schema.new
  return schema.schemaAst

/-- A call, and what it releases. -/
def call : SchemaCall → EStateM ParseFault Schema (List (Option ParserAST))
  | .addVariable varSchema inversePriority => do
    addVariable platform fuel steps varSchema inversePriority
    return []
  | .addDelimiters delimitersSchema => do
    addDelimiters platform fuel steps delimitersSchema
    return []
  | .releaseSchemaAstPtr => do
    return [← releaseSchemaAstPtr]

end Calls

end Schema

/-! ## What the calls are for -/

/-- The place of a variable.  The lowest priority is behind the others. -/
def placeOf (inversePriority : Int32) (size : Nat) : Option Nat :=
  if inversePriority < -1 ∨ Int32.ofNat size < inversePriority then none
  else if inversePriority = -1 then some size
  else some inversePriority.toInt.toNat

theorem toInt_ofNat_le (size : Nat) : (Int32.ofNat size).toInt ≤ size := by
  rw [Int32.toInt_ofNat']
  show (size : Int).bmod 4294967296 ≤ size
  rw [Int.bmod_def]
  split <;> omega

/-- `-1` is the end, and no place is behind it. -/
theorem placeOf_cases {inversePriority : Int32} {size place : Nat}
    (h : placeOf inversePriority size = some place) :
    inversePriority = -1 ∧ place = size ∨
      inversePriority ≠ -1 ∧ inversePriority.toInt = place ∧ place ≤ size := by
  have hone : (-1 : Int32).toInt = -1 := rfl
  unfold placeOf at h
  split_ifs at h with hout hend
  · exact Or.inl ⟨hend, (Option.some.inj h).symm⟩
  · simp only [not_or, Int32.lt_iff_toInt_lt, hone] at hout
    have hle := toInt_ofNat_le size
    have hne : inversePriority.toInt ≠ -1 := fun heq => hend (Int32.toInt.inj heq)
    have hplace := Option.some.inj h
    exact Or.inr ⟨hend, by omega, by omega⟩

theorem placeOf_eq_none_iff {inversePriority : Int32} {size : Nat} :
    placeOf inversePriority size = none ↔
      inversePriority < -1 ∨ Int32.ofNat size < inversePriority := by
  unfold placeOf
  split_ifs with hout hend
  · exact iff_of_true rfl hout
  · exact iff_of_false (by simp) hout
  · exact iff_of_false (by simp) hout

/-- Where the size of the vector is an `int`, the priorities in bounds are the
places of the list, and `-1`. -/
theorem placeOf_eq_some_iff {inversePriority : Int32} {size place : Nat} (hsize : size < 2 ^ 31) :
    placeOf inversePriority size = some place ↔
      inversePriority = -1 ∧ place = size ∨ inversePriority.toInt = place ∧ place ≤ size := by
  have hone : (-1 : Int32).toInt = -1 := rfl
  constructor
  · intro h
    rcases placeOf_cases h with hend | ⟨-, hplace⟩
    · exact Or.inl hend
    · exact Or.inr hplace
  · intro h
    unfold placeOf
    simp only [Int32.lt_iff_toInt_lt, Int32.toInt_ofNat_of_lt hsize, hone]
    rcases h with ⟨rfl, rfl⟩ | ⟨hplace, hle⟩
    · rw [if_neg (by omega), if_pos rfl]
    · have hne : inversePriority ≠ -1 := fun heq => by
        rw [heq, hone] at hplace
        omega
      rw [if_neg (by omega), if_neg hne, hplace, Int.toNat_natCast]

/-- The insertion is within the vector. -/
theorem addSchemaVar_eq {inversePriority : Int32} {schemaVars : List (Option ParserAST)}
    {place : Nat} (h : placeOf inversePriority schemaVars.length = some place)
    (schemaVar : Option ParserAST) :
    addSchemaVar schemaVar inversePriority schemaVars =
      .ok (schemaVars.insertIdx place schemaVar) := by
  unfold addSchemaVar
  rcases placeOf_cases h with ⟨hend, rfl⟩ | ⟨hend, hplace, hle⟩
  · rw [if_pos hend, List.insertIdx_length_self]
  · rw [if_neg hend, if_pos ⟨by omega, by omega⟩, hplace, Int.toNat_natCast]

/-- The schema after a call, if the call does not throw.  `parsed` is the schema
of a text. -/
def SchemaCall.edit (parsed : List UInt8 → Option SchemaAST) (schema : SchemaAST) :
    SchemaCall → Option SchemaAST
  | .addVariable varSchema inversePriority => do
    let schemaVar ← (← parsed varSchema).schemaVars.head?
    let place ← placeOf inversePriority schema.schemaVars.length
    return { schema with schemaVars := schema.schemaVars.insertIdx place schemaVar }
  | .addDelimiters delimitersSchema => do
    let delimiterString ← (← parsed delimitersSchema).delimiters.head?
    return { schema with delimiters := schema.delimiters ++ [delimiterString] }
  | .releaseSchemaAstPtr => some ⟨[], []⟩

/-- The schemas that a call hands out. -/
def SchemaCall.handsOut (schema : SchemaAST) : SchemaCall → List SchemaAST
  | .releaseSchemaAstPtr => [schema]
  | _ => []

structure KeptSchemas where
  kept : SchemaAST
  released : List SchemaAST := []
  rejected : Nat := 0

def KeptSchemas.apply (parsed : List UInt8 → Option SchemaAST) (k : KeptSchemas)
    (c : SchemaCall) : KeptSchemas :=
  match c.edit parsed k.kept with
  | some schema => { k with kept := schema, released := k.released ++ c.handsOut k.kept }
  | none => { k with rejected := k.rejected + 1 }

/-! ## Runs of calls -/

/-- A schema after some calls, the schemas that they released and the exceptions
that they threw. -/
structure SchemaRun where
  schema : Schema
  released : List (Option ParserAST) := []
  faults : List ParseFault := []

namespace SchemaRun

open SchemaParser

section Step

variable (platform : Platform) (fuel steps : Nat)

def step (r : SchemaRun) (c : SchemaCall) : SchemaRun :=
  match (Schema.call platform fuel steps c).run r.schema with
  | .ok released schema => { r with schema := schema, released := r.released ++ released }
  | .error fault schema => { r with schema := schema, faults := r.faults ++ [fault] }

def runCalls (schema : Schema) (calls : List SchemaCall) : SchemaRun :=
  calls.foldl (step platform fuel steps) { schema := schema }

/-- The schema of a text, if it has one. -/
def parsed (text : List UInt8) : Option SchemaAST :=
  match trySchemaString platform fuel steps text with
  | .ok ast => toSchema ast
  | .error _ => none

end Step

/-! ## Every call -/

section Lifted

variable {ε σ α : Type} (s : σ)

@[simp] theorem run_ofExcept_ok (a : α) :
    (MonadExcept.ofExcept (.ok a : Except ε α) : EStateM ε σ α).run s = .ok a s := rfl

@[simp] theorem run_ofExcept_error (e : ε) :
    (MonadExcept.ofExcept (.error e : Except ε α) : EStateM ε σ α).run s = .error e s := rfl

@[simp] theorem run_map_throw (f : PUnit → α) (e : ε) :
    (f <$> (throw e : EStateM ε σ PUnit)).run s = .error e s := rfl

@[simp] theorem run_map_set (f : PUnit → α) (s' : σ) :
    (f <$> (set s' : EStateM ε σ PUnit)).run s = .ok (f ⟨⟩) s' := rfl

end Lifted

theorem mapM_eq_some_iff_map {α β : Type} {f : α → Option β} {xs : List α} {ys : List β} :
    xs.mapM f = some ys ↔ xs.map f = ys.map some := by
  induction xs generalizing ys with
  | nil => cases ys <;> simp
  | cons x xs ih =>
    cases ys with
    | nil => simp [Option.bind_eq_some_iff]
    | cons y ys => simp [Option.bind_eq_some_iff, ← ih]

theorem exists_head_of_map {α β : Type} {f : α → Option β} {x : α} {xs : List α} {ys : List β}
    (h : (x :: xs).map f = ys.map some) : ∃ y, f x = some y ∧ ys.head? = some y := by
  cases ys with
  | nil => cases h
  | cons y ys => exact ⟨y, (List.cons.inj h).1, rfl⟩

theorem toSchema_eq_some_iff {ast : Option ParserAST} {schema : SchemaAST} :
    toSchema ast = some schema ↔ ∃ schemaVars delimiters,
      ast = some (.schema schemaVars delimiters) ∧
      schemaVars.map toSchemaVar = schema.schemaVars.map some ∧
      delimiters.map toDelimiters = schema.delimiters.map some := by
  constructor
  · intro h
    unfold toSchema at h
    split at h
    · rename_i schemaVars delimiters
      simp only [Option.bind_eq_bind, Option.bind_eq_some_iff, Option.pure_def,
        Option.some.injEq] at h
      obtain ⟨vars, hvars, lists, hlists, rfl⟩ := h
      exact ⟨schemaVars, delimiters, rfl, mapM_eq_some_iff_map.1 hvars,
        mapM_eq_some_iff_map.1 hlists⟩
    · cases h
  · rintro ⟨schemaVars, delimiters, rfl, hvars, hlists⟩
    unfold toSchema
    dsimp only
    rw [mapM_eq_some_iff_map.2 hvars, mapM_eq_some_iff_map.2 hlists]
    rfl

section Every

variable (platform : Platform) (fuel steps : Nat)

/-- A text has a schema, or an exception ends its parse. -/
theorem parsed_cases (text : List UInt8) :
    (∃ ast schema, trySchemaString platform fuel steps text = .ok ast ∧
        ReadsAs ast schema ∧ parsed platform fuel steps text = some schema) ∨
      ∃ fault, trySchemaString platform fuel steps text = .error fault ∧
        fault.IsAllowed (· ∈ reported) ∧ parsed platform fuel steps text = none := by
  have hyields := trySchemaString_yields platform fuel steps text
  unfold parsed
  cases htext : trySchemaString platform fuel steps text with
  | ok ast =>
    obtain ⟨schema, hschema⟩ := hyields.of_ok htext
    exact Or.inl ⟨ast, schema, rfl, hschema, hschema.1⟩
  | error fault => exact Or.inr ⟨fault, rfl, hyields.of_error htext, rfl⟩

theorem thrown_isAllowed {Allowed : RuleFault → Prop} :
    (ParseFault.parser .thrown).IsAllowed Allowed := Or.inl rfl

/-- What a call does to a schema: it returns and the schema is the edited one, or
it throws and nothing is changed. -/
def Follows (c : SchemaCall) (schema : Schema) (ast : SchemaAST) : Prop :=
  match (Schema.call platform fuel steps c).run schema with
  | .ok released schema' => ∃ edited, c.edit (parsed platform fuel steps) ast = some edited ∧
    ReadsAs schema'.schemaAst edited ∧ List.Forall₂ ReadsAs released (c.handsOut ast)
  | .error fault schema' => c.edit (parsed platform fuel steps) ast = none ∧
    schema' = schema ∧ fault.IsAllowed (· ∈ reported)

variable {platform fuel steps} {schema : Schema} {ast : SchemaAST}

theorem follows_of_ok {c : SchemaCall} {schema' : Schema} {released : List (Option ParserAST)}
    {edited : SchemaAST}
    (hrun : (Schema.call platform fuel steps c).run schema = .ok released schema')
    (hedited : c.edit (parsed platform fuel steps) ast = some edited)
    (hschema' : ReadsAs schema'.schemaAst edited)
    (hreleased : List.Forall₂ ReadsAs released (c.handsOut ast)) :
    Follows platform fuel steps c schema ast := by
  unfold Follows
  rw [hrun]
  exact ⟨edited, hedited, hschema', hreleased⟩

theorem follows_of_error {c : SchemaCall} {fault : ParseFault}
    (hallowed : fault.IsAllowed (· ∈ reported))
    (hrun : (Schema.call platform fuel steps c).run schema = .error fault schema)
    (hedited : c.edit (parsed platform fuel steps) ast = none) :
    Follows platform fuel steps c schema ast := by
  unfold Follows
  rw [hrun]
  exact ⟨hedited, rfl, hallowed⟩

theorem addVariable_follows (h : ReadsAs schema.schemaAst ast)
    (varSchema : List UInt8) (inversePriority : Int32) :
    Follows platform fuel steps (.addVariable varSchema inversePriority) schema ast := by
  obtain ⟨schemaVars, delimiters, hschema, hvars, hdelimiters⟩ := toSchema_eq_some_iff.1 h.1
  have hsize : ast.schemaVars.length = schemaVars.length := by
    simpa using congrArg List.length hvars.symm
  rcases parsed_cases platform fuel steps varSchema with
    ⟨newAst, new, hparse, hnew, hparsed⟩ | ⟨fault, hparse, hallowed, hparsed⟩
  · obtain ⟨newVars, newDelimiters, rfl, hnewVars, -⟩ := toSchema_eq_some_iff.1 hnew.1
    cases newVars with
    | nil =>
      have hnone : new.schemaVars = [] := by simpa using hnewVars.symm
      refine follows_of_error thrown_isAllowed ?_ ?_
      · simp [Schema.call, Schema.addVariable, hparse]
      · simp [SchemaCall.edit, hparsed, hnone]
    | cons schemaVar newVars =>
      obtain ⟨var, hvar, hhead⟩ := exists_head_of_map hnewVars
      cases hplace : placeOf inversePriority schemaVars.length with
      | none =>
        refine follows_of_error thrown_isAllowed ?_ ?_
        · by_cases hlow : inversePriority < -1
          · simp [Schema.call, Schema.addVariable, hparse, hlow]
          · have hhigh := (placeOf_eq_none_iff.1 hplace).resolve_left hlow
            simp [Schema.call, Schema.addVariable, hparse, hlow, hschema, hhigh]
        · simp [SchemaCall.edit, hparsed, hsize, hplace]
      | some place =>
        have hbounds : ¬ (inversePriority < -1 ∨
            Int32.ofNat schemaVars.length < inversePriority) :=
          fun hout => by simp [placeOf_eq_none_iff.2 hout] at hplace
        rw [not_or] at hbounds
        have hrun : (Schema.call platform fuel steps
            (.addVariable varSchema inversePriority)).run schema =
            .ok [] ⟨some (.schema (schemaVars.insertIdx place schemaVar) delimiters)⟩ := by
          simp [Schema.call, Schema.addVariable, hparse, hbounds, hschema,
            addSchemaVar_eq hplace]
        have hedited : (SchemaCall.addVariable varSchema inversePriority).edit
            (parsed platform fuel steps) ast =
            some { ast with schemaVars := ast.schemaVars.insertIdx place var } := by
          simp [SchemaCall.edit, hparsed, hhead, hsize, hplace]
        refine follows_of_ok hrun hedited ⟨?_, h.2⟩ .nil
        refine toSchema_eq_some_iff.2 ⟨_, _, rfl, ?_, hdelimiters⟩
        rw [List.map_insertIdx, List.map_insertIdx, hvars, hvar]
  · refine follows_of_error hallowed ?_ ?_
    · simp [Schema.call, Schema.addVariable, hparse]
    · simp [SchemaCall.edit, hparsed]

theorem addDelimiters_follows (h : ReadsAs schema.schemaAst ast)
    (delimitersSchema : List UInt8) :
    Follows platform fuel steps (.addDelimiters delimitersSchema) schema ast := by
  obtain ⟨schemaVars, delimiters, hschema, hvars, hdelimiters⟩ := toSchema_eq_some_iff.1 h.1
  rcases parsed_cases platform fuel steps delimitersSchema with
    ⟨newAst, new, hparse, hnew, hparsed⟩ | ⟨fault, hparse, hallowed, hparsed⟩
  · obtain ⟨newVars, newDelimiters, rfl, -, hnewDelimiters⟩ := toSchema_eq_some_iff.1 hnew.1
    cases newDelimiters with
    | nil =>
      have hnone : new.delimiters = [] := by simpa using hnewDelimiters.symm
      refine follows_of_error thrown_isAllowed ?_ ?_
      · simp [Schema.call, Schema.addDelimiters, hparse]
      · simp [SchemaCall.edit, hparsed, hnone]
    | cons delimiterString newDelimiters =>
      obtain ⟨characters, hcharacters, hhead⟩ := exists_head_of_map hnewDelimiters
      have hrun : (Schema.call platform fuel steps (.addDelimiters delimitersSchema)).run schema =
          .ok [] ⟨some (.schema schemaVars (delimiters ++ [delimiterString]))⟩ := by
        simp [Schema.call, Schema.addDelimiters, hparse, hschema]
      have hedited : (SchemaCall.addDelimiters delimitersSchema).edit
          (parsed platform fuel steps) ast =
          some { ast with delimiters := ast.delimiters ++ [characters] } := by
        simp [SchemaCall.edit, hparsed, hhead]
      have hkept : ∀ ds ∈ ast.delimiters ++ [characters], ds ≠ [] ∧ ∀ c ∈ ds, IsCharacter c :=
        List.forall_mem_append.2 ⟨h.2,
          List.forall_mem_singleton.2 (hnew.2 characters (List.mem_of_head? hhead))⟩
      refine follows_of_ok hrun hedited ⟨?_, hkept⟩ .nil
      refine toSchema_eq_some_iff.2 ⟨_, _, rfl, hvars, ?_⟩
      rw [List.map_append, List.map_append, hdelimiters, List.map_singleton, hcharacters]
      rfl
  · refine follows_of_error hallowed ?_ ?_
    · simp [Schema.call, Schema.addDelimiters, hparse]
    · simp [SchemaCall.edit, hparsed]

theorem readsAs_new : ReadsAs Schema.new.schemaAst ⟨[], []⟩ := ⟨rfl, List.forall_mem_nil _⟩

theorem releaseSchemaAstPtr_follows (h : ReadsAs schema.schemaAst ast) :
    Follows platform fuel steps .releaseSchemaAstPtr schema ast := by
  have hrun : (Schema.call platform fuel steps .releaseSchemaAstPtr).run schema =
      .ok [schema.schemaAst] .new := rfl
  exact follows_of_ok hrun rfl readsAs_new (.cons h .nil)

theorem call_follows (h : ReadsAs schema.schemaAst ast) (c : SchemaCall) :
    Follows platform fuel steps c schema ast := by
  cases c with
  | addVariable varSchema inversePriority => exact addVariable_follows h varSchema inversePriority
  | addDelimiters delimitersSchema => exact addDelimiters_follows h delimitersSchema
  | releaseSchemaAstPtr => exact releaseSchemaAstPtr_follows h

/-! ## Every run -/

/-- A run and what it is for: the schemas are the same, as `LogParser` reads them,
and every call that is rejected has thrown an exception. -/
structure Refines (r : SchemaRun) (k : KeptSchemas) : Prop where
  kept : ReadsAs r.schema.schemaAst k.kept
  released : List.Forall₂ ReadsAs r.released k.released
  rejected : r.faults.length = k.rejected
  allowed : ∀ fault ∈ r.faults, fault.IsAllowed (· ∈ reported)

theorem Refines.step {r : SchemaRun} {k : KeptSchemas} (h : Refines r k) (c : SchemaCall) :
    Refines (r.step platform fuel steps c) (k.apply (parsed platform fuel steps) c) := by
  have hcall : Follows platform fuel steps c r.schema k.kept := call_follows h.kept c
  unfold Follows at hcall
  unfold SchemaRun.step KeptSchemas.apply
  cases hrun : (Schema.call platform fuel steps c).run r.schema with
  | ok released schema' =>
    rw [hrun] at hcall
    obtain ⟨edited, hedited, hkept, hreleased⟩ := hcall
    rw [hedited]
    exact ⟨hkept, List.rel_append h.released hreleased, h.rejected, h.allowed⟩
  | error fault schema' =>
    rw [hrun] at hcall
    obtain ⟨hedited, rfl, hallowed⟩ := hcall
    rw [hedited]
    refine ⟨h.kept, h.released, ?_, ?_⟩
    · simp only [List.length_append, List.length_singleton, h.rejected]
    · exact List.forall_mem_append.2 ⟨h.allowed, List.forall_mem_singleton.2 hallowed⟩

theorem Refines.foldl {r : SchemaRun} {k : KeptSchemas} (h : Refines r k)
    (calls : List SchemaCall) :
    Refines (calls.foldl (SchemaRun.step platform fuel steps) r)
      (calls.foldl (KeptSchemas.apply (parsed platform fuel steps)) k) := by
  induction calls generalizing r k with
  | nil => exact h
  | cons c calls ih => exact ih (h.step c)

theorem refines_runCalls (h : ReadsAs schema.schemaAst ast) (calls : List SchemaCall) :
    Refines (runCalls platform fuel steps schema calls)
      (calls.foldl (KeptSchemas.apply (parsed platform fuel steps)) { kept := ast }) :=
  Refines.foldl ⟨h, .nil, rfl, List.forall_mem_nil _⟩ calls

end Every

end SchemaRun

end LogSurgeon
