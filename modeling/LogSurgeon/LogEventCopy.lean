import LogSurgeon.LogEvent
import LogSurgeon.Schema

/-!
# Copies of log events

A copy of an event has the texts and the types of its tokens, but no
registers, and its first token is in slot 0.  Without a header the readers
start at slot 1, so they miss the first token of the copy and take the second
one for the first.

* `copiedTokens` are the tokens of the copy.
* `SameEvent` says that a copy shows what the view shows.
* `KeptByCopy` says when it does.
-/

namespace LogSurgeon

/-! ## The tokens of a copy -/

namespace LogEventView

/-- The tokens of a copy, whose first one starts at `startPos`. -/
def copiedTokens (buffer : Nat → UInt8) (bufferSize : Nat) : Nat → List Token → List Token
  | _, [] => []
  | startPos, token :: tokens =>
    copiedToken buffer bufferSize startPos token ::
      copiedTokens buffer bufferSize (startPos + token.toString.length) tokens

variable {buffer behind : Nat → UInt8} {bufferSize : Nat}

theorem foldl_copyToken (tokens : List Token) (startPos : Nat) (b : LogParserOutputBuffer) :
    let copied := (tokens.foldl (copyToken buffer bufferSize) (startPos, b)).2
    copied.filled = b.filled ++ copiedTokens buffer bufferSize startPos tokens ∧
      copied.hasHeader = b.hasHeader ∧ copied.timestamp = b.timestamp := by
  induction tokens generalizing startPos b with
  | nil => simp [copiedTokens]
  | cons token tokens ih =>
    obtain ⟨hfilled, hheader, htimestamp⟩ := ih (startPos + token.toString.length)
      (copyToken buffer bufferSize (startPos, b) token).2
    refine ⟨?_, ?_, ?_⟩
    · rw [List.foldl_cons]
      refine hfilled.trans ?_
      simp [copyToken, LogParserOutputBuffer.filled_advanceToNextToken, copiedTokens]
    · rw [List.foldl_cons]
      refine hheader.trans ?_
      simp [copyToken]
    · rw [List.foldl_cons]
      refine htimestamp.trans ?_
      simp [copyToken]

theorem subspan_copyBuffer (behind : Nat → UInt8) (before text after : List UInt8) :
    subspan (copyBuffer behind (before ++ (text ++ after))) before.length text.length = text := by
  apply List.ext_getElem
  · rw [length_subspan]
  · intro i hi hi'
    have hget : (before ++ (text ++ after))[before.length + i]? = some text[i] := by
      rw [List.getElem?_append_right (Nat.le_add_right _ _), Nat.add_sub_cancel_left,
        List.getElem?_append_left hi', List.getElem?_eq_getElem hi']
    simp [subspan, copyBuffer, hget]

theorem toString_copiedToken (behind : Nat → UInt8) (before : List UInt8) (token : Token)
    (after : List UInt8) :
    (copiedToken (copyBuffer behind (before ++ (token.toString ++ after))) bufferSize
      before.length token).toString = token.toString := by
  rw [Token.toString_of_le (Nat.le_add_right _ _)]
  unfold copiedToken
  rw [Nat.add_sub_cancel_left]
  exact subspan_copyBuffer behind before token.toString after

/-- The copied tokens have the texts of the tokens. -/
theorem toString_copiedTokens (before : List UInt8) (tokens : List Token) :
    (copiedTokens (copyBuffer behind (before ++ tokens.flatMap (·.toString))) bufferSize
      before.length tokens).map (·.toString) = tokens.map (·.toString) := by
  induction tokens generalizing before with
  | nil => rfl
  | cons token tokens ih =>
    rw [copiedTokens, List.map_cons, List.map_cons, List.flatMap_cons]
    congr 1
    · exact toString_copiedToken behind before token _
    · have ih := ih (before ++ token.toString)
      rwa [List.length_append, List.append_assoc] at ih

end LogEventView

/-! ## Occurrences -/

/-- The token has a type. -/
def Token.Typed (token : Token) : Prop := ∃ id, token.firstTypeId = .ok id

/-- The tokens of a variable. -/
def occurrencesOf (variableId : Nat) (tokens : List Token) : List Token :=
  tokens.filter fun token => token.firstTypeId = .ok variableId

namespace LogEventView

theorem addTokens_spec {tokens : List Token} {view view' : LogEventView}
    (h : addTokens tokens view = .ok view') :
    (∀ token ∈ tokens, token.Typed) ∧
      view'.logOutputBuffer = view.logOutputBuffer ∧ view'.multiline = view.multiline ∧
      ∀ id, view'.getVariables id = view.getVariables id ++ occurrencesOf id tokens := by
  induction tokens generalizing view with
  | nil =>
    cases h
    simp [occurrencesOf]
  | cons token tokens ih =>
    unfold addTokens at h
    cases htype : token.firstTypeId with
    | error fault =>
      rw [htype] at h
      cases h
    | ok typeId =>
      rw [htype] at h
      obtain ⟨htyped, hbuffer, hmultiline, hvariables⟩ := ih h
      refine ⟨fun token' htoken => ?_, hbuffer, hmultiline, fun id => ?_⟩
      · cases htoken with
        | head => exact ⟨typeId, htype⟩
        | tail _ htoken => exact htyped token' htoken
      · rw [hvariables id]
        by_cases hid : id = typeId
        · simp [getVariables, addToken, occurrencesOf, htype, hid]
        · have hid' : typeId ≠ id := Ne.symm hid
          simp [getVariables, addToken, occurrencesOf, htype, hid, hid']

theorem exists_addTokens {tokens : List Token} (h : ∀ token ∈ tokens, token.Typed)
    (view : LogEventView) : ∃ view', addTokens tokens view = .ok view' := by
  induction tokens generalizing view with
  | nil => exact ⟨view, rfl⟩
  | cons token tokens ih =>
    obtain ⟨typeId, htype⟩ := h token List.mem_cons_self
    obtain ⟨view', hview⟩ := ih (fun token' htoken => h token' (List.mem_cons_of_mem _ htoken))
      (view.addToken typeId token)
    refine ⟨view', ?_⟩
    unfold addTokens
    rw [htype]
    exact hview

end LogEventView

/-! ## Log types -/

namespace Token

/-- The token is static text. -/
def IsStatic (token : Token) : Prop :=
  token.firstTypeId = .ok SymbolId.tokenUncaughtString.toNat

/-- The token is of a variable that starts with a delimiter. -/
def HasDelimiter (token : Token) : Prop :=
  ∃ id, token.firstTypeId = .ok id ∧ id ≠ SymbolId.tokenUncaughtString.toNat ∧
    id ≠ SymbolId.tokenNewline.toNat

/-- The token is static text or of a variable without captures. -/
def Plain (t : LexerTables) (token : Token) : Prop :=
  token.IsStatic ∨ ∃ id, token.firstTypeId = .ok id ∧ t.getCapturesFromRuleId id = none

end Token

/-- What a plain token adds to a log type. -/
def plainText (idSymbol : Nat → String) (isFirstToken : Bool) (token : Token) : List UInt8 :=
  match token.firstTypeId with
  | .ok id =>
    if id = SymbolId.tokenUncaughtString.toNat then token.toString
    else
      (if id ≠ SymbolId.tokenNewline.toNat ∧ ¬ isFirstToken then [token.getFirstChar]
        else []) ++ placeholder (idSymbol id)
  | .error _ => []

section

variable {t : LexerTables} {idSymbol : Nat → String}

@[simp] theorem firstTypeId_splitDelimiter (isFirstToken : Bool) (ruleId : Nat) (token : Token) :
    (splitDelimiter isFirstToken ruleId token).2.firstTypeId = token.firstTypeId := by
  unfold splitDelimiter
  split <;> rfl

@[simp] theorem regHandler_splitDelimiter (isFirstToken : Bool) (ruleId : Nat) (token : Token) :
    (splitDelimiter isFirstToken ruleId token).2.regHandler = token.regHandler := by
  unfold splitDelimiter
  split <;> rfl

theorem splitDelimiter_fst (isFirstToken : Bool) (ruleId : Nat) (token : Token) :
    (splitDelimiter isFirstToken ruleId token).1 =
      if ruleId ≠ SymbolId.tokenNewline.toNat ∧ ¬ isFirstToken then [token.getFirstChar]
      else [] := by
  unfold splitDelimiter
  split <;> rfl

theorem variableLogtype_of_none {token : Token} {id : Nat} (hid : token.firstTypeId = .ok id)
    (hnone : t.getCapturesFromRuleId id = none) (ruleId : Nat) :
    variableLogtype t idSymbol ruleId token = .ok (placeholder (idSymbol ruleId)) := by
  unfold variableLogtype getCaptureMatches
  rw [hid]
  simp only [bind, Except.bind, hnone]
  rfl

theorem logtypeOf_plain {token : Token} (h : token.Plain t) (isFirstToken : Bool) :
    logtypeOf t idSymbol isFirstToken token = .ok (plainText idSymbol isFirstToken token) := by
  unfold logtypeOf plainText
  rcases h with hstatic | ⟨id, hid, hnone⟩
  · rw [hstatic]
    rfl
  · rw [hid]
    by_cases hstatic : id = SymbolId.tokenUncaughtString.toNat
    · rw [hstatic]
      rfl
    · have hvariable : variableLogtype t idSymbol id (splitDelimiter isFirstToken id token).2 =
          .ok (placeholder (idSymbol id)) :=
        variableLogtype_of_none ((firstTypeId_splitDelimiter _ _ _).trans hid) hnone id
      simp only [bind, Except.bind, if_neg hstatic, hvariable, splitDelimiter_fst]
      rfl

theorem logtypeOfRest_plain {tokens : List Token} (h : ∀ token ∈ tokens, token.Plain t) :
    logtypeOfRest t idSymbol tokens = .ok (tokens.flatMap (plainText idSymbol false)) := by
  induction tokens with
  | nil => rfl
  | cons token tokens ih =>
    have htokens := ih fun token' htoken => h token' (List.mem_cons_of_mem _ htoken)
    unfold logtypeOfRest
    rw [logtypeOf_plain (h token List.mem_cons_self) false, htokens]
    rfl

/-- No variable has an empty list of captures. -/
def LexerTables.CapturesNonempty (t : LexerTables) : Prop :=
  ∀ id captures, t.getCapturesFromRuleId id = some captures → captures ≠ []

/-- Without registers the captures cannot be read. -/
theorem getCapturePosition_new {token : Token} (h : token.regHandler = .new)
    (capture : Capture) : getCapturePosition t token capture = .error .thrown := by
  have hpositions : ∀ regId, token.getReversedRegPositions regId = .error .thrown := by
    intro regId
    unfold Token.getReversedRegPositions
    rw [h]
    rfl
  unfold getCapturePosition LexerTables.getRegIdsFromCapture
  simp only [bind, Except.bind, hpositions]
  cases t.getTagIdPairFromCapture capture with
  | none => rfl
  | some tagIds =>
    simp only [derefOr_some]
    cases t.getRegIdFromTagId tagIds.1 with
    | none => rfl
    | some startRegId => cases t.getRegIdFromTagId tagIds.2 <;> rfl

theorem logtypeOf_new {token : Token} (ht : t.CapturesNonempty) (h : token.regHandler = .new)
    (htyped : token.Typed) (hplain : ¬ token.Plain t) (isFirstToken : Bool) :
    logtypeOf t idSymbol isFirstToken token = .error .thrown := by
  obtain ⟨id, hid⟩ := htyped
  have hstatic : id ≠ SymbolId.tokenUncaughtString.toNat := by
    rintro rfl
    exact hplain (.inl hid)
  cases hcaptures : t.getCapturesFromRuleId id with
  | none => exact absurd (.inr ⟨id, hid, hcaptures⟩) hplain
  | some captures =>
    cases captures with
    | nil => exact absurd rfl (ht id [] hcaptures)
    | cons capture captures =>
      have hmatches : getCaptureMatches t (splitDelimiter isFirstToken id token).2 =
          .error .thrown := by
        unfold getCaptureMatches orderedMatches
        rw [firstTypeId_splitDelimiter, hid]
        simp only [bind, Except.bind, hcaptures]
        rw [getCapturePosition_new ((regHandler_splitDelimiter _ _ _).trans h)]
      unfold logtypeOf variableLogtype
      rw [hid]
      simp only [bind, Except.bind, if_neg hstatic, hmatches]

/-- A copy has a log type only if its tokens are plain. -/
theorem plain_of_logtypeOfRest {tokens : List Token} (ht : t.CapturesNonempty)
    (h : ∀ token ∈ tokens, token.regHandler = .new) (htyped : ∀ token ∈ tokens, token.Typed)
    {logtype : List UInt8} (hlogtype : logtypeOfRest t idSymbol tokens = .ok logtype) :
    ∀ token ∈ tokens, token.Plain t := by
  induction tokens generalizing logtype with
  | nil => simp
  | cons token tokens ih =>
    unfold logtypeOfRest at hlogtype
    by_cases hplain : token.Plain t
    · rw [logtypeOf_plain hplain] at hlogtype
      cases hrest : logtypeOfRest t idSymbol tokens with
      | error fault =>
        rw [hrest] at hlogtype
        cases hlogtype
      | ok rest =>
        have hplains := ih (fun token' htoken => h token' (List.mem_cons_of_mem _ htoken))
          (fun token' htoken => htyped token' (List.mem_cons_of_mem _ htoken)) hrest
        exact List.forall_mem_cons.2 ⟨hplain, hplains⟩
    · rw [logtypeOf_new ht (h token List.mem_cons_self) (htyped token List.mem_cons_self)
        hplain] at hlogtype
      cases hlogtype

/-! ### The first token -/

/-- Matches add the name of a leaf. -/
theorem replaceLeaves_ne_nil {token : Token} {a : CaptureMatch} {as : List CaptureMatch}
    {prevEndPos : Nat} {logtype : List UInt8}
    (h : replaceLeaves token (CaptureMatch.markLeaves (a :: as)) prevEndPos = .ok logtype) :
    logtype ≠ [] := by
  have hleaf : ∀ (b : CaptureMatch) (bs : List CaptureMatch), b.leaf →
      replaceLeaves token (b :: bs) prevEndPos = .ok logtype → logtype ≠ [] := by
    intro b bs hb hlogtype
    unfold replaceLeaves at hlogtype
    rw [if_pos hb] at hlogtype
    obtain ⟨before, -, hlogtype⟩ := exists_of_bind_eq_ok hlogtype
    obtain ⟨after, -, hlogtype⟩ := exists_of_bind_eq_ok hlogtype
    cases hlogtype
    simp [placeholder]
  induction as generalizing a with
  | nil => exact hleaf _ _ rfl h
  | cons b bs ih =>
    unfold CaptureMatch.markLeaves at h
    by_cases hle : a.endPos ≤ b.startPos
    · exact hleaf _ _ (decide_eq_true hle) h
    · unfold replaceLeaves at h
      rw [if_neg (by simpa using hle)] at h
      exact ih h

/-- The first token adds nothing to the log type if it is static text or has
no match of its captures, and is empty. -/
structure Token.AddsNothing (t : LexerTables) (token : Token) : Prop where
  empty : token.toString = []
  silent : token.IsStatic ∨
    getCaptureMatches t token = .ok (some []) ∧ token.startPos < token.bufferSize ∧
      token.endPos ≤ token.bufferSize

theorem splitDelimiter_true (ruleId : Nat) (token : Token) :
    splitDelimiter true ruleId token = ([], token) := by
  simp [splitDelimiter]

theorem eq_markLeaves {token : Token} {captureMatches : List CaptureMatch}
    (h : getCaptureMatches t token = .ok (some captureMatches)) :
    ∃ ordered, captureMatches = CaptureMatch.markLeaves ordered := by
  obtain ⟨id, -, h⟩ := exists_of_bind_eq_ok h
  cases hcaptures : t.getCapturesFromRuleId id with
  | none =>
    rw [hcaptures] at h
    cases h
  | some captures =>
    rw [hcaptures] at h
    obtain ⟨ordered, -, h⟩ := exists_of_bind_eq_ok h
    cases h
    exact ⟨ordered, rfl⟩

theorem replaceLeaves_nil (token : Token) (prevEndPos : Nat) :
    replaceLeaves token [] prevEndPos =
      if prevEndPos ≥ token.bufferSize ∨ token.endPos > token.bufferSize then .error .thrown
      else .ok (token.setStartPos prevEndPos).toString := by
  unfold replaceLeaves Token.getSubToken
  split <;> rfl

theorem logtypeOf_eq_nil_iff {token : Token} (htyped : token.Typed)
    (hempty : token.toString = []) :
    logtypeOf t idSymbol true token = .ok [] ↔ token.AddsNothing t := by
  obtain ⟨id, hid⟩ := htyped
  constructor
  · intro h
    refine ⟨hempty, ?_⟩
    by_cases hstatic : id = SymbolId.tokenUncaughtString.toNat
    · rw [hstatic] at hid
      exact .inl hid
    · right
      unfold logtypeOf at h
      simp only [bind, Except.bind, hid, if_neg hstatic, splitDelimiter_true] at h
      cases hvariable : variableLogtype t idSymbol id token with
      | error fault =>
        rw [hvariable] at h
        cases h
      | ok text =>
        have htext : text = [] := by simpa [hvariable, pure, Except.pure] using h
        obtain ⟨captureMatches, hmatches, hreplace⟩ := exists_of_bind_eq_ok hvariable
        cases captureMatches with
        | none =>
          cases hreplace
          cases htext
        | some captureMatches =>
          obtain ⟨ordered, rfl⟩ := eq_markLeaves hmatches
          cases ordered with
          | cons a as => exact absurd htext (replaceLeaves_ne_nil hreplace)
          | nil =>
            have hbounds : replaceLeaves token [] token.startPos = .ok text := hreplace
            rw [replaceLeaves_nil] at hbounds
            split at hbounds
            · cases hbounds
            · rename_i hinside
              exact ⟨hmatches, by omega, by omega⟩
  · rintro ⟨-, hstatic | ⟨hmatches, hstart, hend⟩⟩
    · unfold logtypeOf
      rw [hstatic]
      exact congrArg Except.ok hempty
    · unfold logtypeOf
      by_cases hstatic : id = SymbolId.tokenUncaughtString.toNat
      · simp only [bind, Except.bind, hid, hstatic, if_true]
        exact congrArg Except.ok hempty
      · have hinside :
            ¬ (token.startPos ≥ token.bufferSize ∨ token.endPos > token.bufferSize) := by
          omega
        have hvariable : variableLogtype t idSymbol id token = .ok [] := by
          unfold variableLogtype
          rw [hmatches]
          refine (replaceLeaves_nil token token.startPos).trans ?_
          rw [if_neg hinside]
          exact congrArg Except.ok hempty
        simp only [bind, Except.bind, hid, if_neg hstatic, splitDelimiter_true, hvariable]
        rfl

/-! ### The delimiters -/

/-- The bytes that the tokens release are those at their places in the
buffer. -/
def DelimitersAt (buffer : Nat → UInt8) (startPos : Nat) (tokens : List Token) : Prop :=
  ∀ before token after, tokens = before ++ token :: after → token.HasDelimiter →
    token.getFirstChar = buffer (startPos + (before.flatMap (·.toString)).length)

theorem delimitersAt_cons {buffer : Nat → UInt8} {startPos : Nat} {token : Token}
    {tokens : List Token} :
    DelimitersAt buffer startPos (token :: tokens) ↔
      (token.HasDelimiter → token.getFirstChar = buffer startPos) ∧
        DelimitersAt buffer (startPos + token.toString.length) tokens := by
  constructor
  · intro h
    refine ⟨fun hdelimiter => h [] token tokens rfl hdelimiter, ?_⟩
    intro before token' after heq hdelimiter
    have hplace := h (token :: before) token' after (by rw [heq]; rfl) hdelimiter
    rwa [List.flatMap_cons, List.length_append, ← Nat.add_assoc] at hplace
  · rintro ⟨hhead, htail⟩ before token' after heq hdelimiter
    cases before with
    | nil =>
      cases heq
      exact hhead hdelimiter
    | cons token'' before =>
      cases heq
      rw [List.flatMap_cons, List.length_append, ← Nat.add_assoc]
      exact htail before token' after rfl hdelimiter

theorem firstTypeId_copiedToken (buffer : Nat → UInt8) (bufferSize startPos : Nat)
    (token : Token) :
    (LogEventView.copiedToken buffer bufferSize startPos token).firstTypeId =
      token.firstTypeId := rfl

/-- The copy of a plain token adds the same text if it has the same delimiter,
and text of the same length in any case. -/
theorem plainText_copiedToken (idSymbol : Nat → String) {buffer : Nat → UInt8}
    {bufferSize startPos : Nat} {token : Token}
    (htext : (LogEventView.copiedToken buffer bufferSize startPos token).toString =
      token.toString) (htyped : token.Typed) :
    (plainText idSymbol false (LogEventView.copiedToken buffer bufferSize startPos token)).length =
        (plainText idSymbol false token).length ∧
      (plainText idSymbol false (LogEventView.copiedToken buffer bufferSize startPos token) =
          plainText idSymbol false token ↔
        (token.HasDelimiter → token.getFirstChar = buffer startPos)) := by
  obtain ⟨id, hid⟩ := htyped
  have hdelimiter : token.HasDelimiter ↔ id ≠ SymbolId.tokenUncaughtString.toNat ∧
      id ≠ SymbolId.tokenNewline.toNat := by
    simp [Token.HasDelimiter, hid]
  have hfirst : (LogEventView.copiedToken buffer bufferSize startPos token).getFirstChar =
      buffer startPos := rfl
  unfold plainText
  rw [firstTypeId_copiedToken, hid]
  dsimp only
  rw [htext, hfirst, hdelimiter]
  by_cases hstatic : id = SymbolId.tokenUncaughtString.toNat
  · simp [hstatic]
  · by_cases hnewline : id = SymbolId.tokenNewline.toNat
    · simp [hnewline]
    · simp [hstatic, hnewline, eq_comm]

theorem flatMap_copiedTokens_eq_iff (idSymbol : Nat → String) {buffer : Nat → UInt8}
    {bufferSize startPos : Nat} {tokens : List Token}
    (htext : (LogEventView.copiedTokens buffer bufferSize startPos tokens).map (·.toString) =
      tokens.map (·.toString)) (htyped : ∀ token ∈ tokens, token.Typed) :
    ((LogEventView.copiedTokens buffer bufferSize startPos tokens).flatMap
          (plainText idSymbol false)).length =
        (tokens.flatMap (plainText idSymbol false)).length ∧
      ((LogEventView.copiedTokens buffer bufferSize startPos tokens).flatMap
            (plainText idSymbol false) =
          tokens.flatMap (plainText idSymbol false) ↔
        DelimitersAt buffer startPos tokens) := by
  induction tokens generalizing startPos with
  | nil => simp [LogEventView.copiedTokens, DelimitersAt]
  | cons token tokens ih =>
    rw [LogEventView.copiedTokens, List.map_cons, List.map_cons, List.cons.injEq] at htext
    obtain ⟨hlength, hiff⟩ :=
      plainText_copiedToken idSymbol htext.1 (htyped token List.mem_cons_self)
    obtain ⟨hlengths, hiffs⟩ :=
      ih htext.2 fun token' htoken => htyped token' (List.mem_cons_of_mem _ htoken)
    rw [LogEventView.copiedTokens, List.flatMap_cons, List.flatMap_cons, delimitersAt_cons]
    refine ⟨by rw [List.length_append, List.length_append, hlength, hlengths], ?_⟩
    rw [← hiff, ← hiffs]
    constructor
    · intro heq
      exact List.append_inj heq hlength
    · rintro ⟨hhead, htail⟩
      rw [hhead, htail]

/-! ### Log types of copies -/

variable {buffer : Nat → UInt8} {bufferSize startPos : Nat}

theorem forall_plain_copiedTokens {tokens : List Token} :
    (∀ token ∈ LogEventView.copiedTokens buffer bufferSize startPos tokens, token.Plain t) ↔
      ∀ token ∈ tokens, token.Plain t := by
  induction tokens generalizing startPos with
  | nil => simp [LogEventView.copiedTokens]
  | cons token tokens ih =>
    rw [LogEventView.copiedTokens, List.forall_mem_cons, List.forall_mem_cons, ih]
    rfl

theorem regHandler_copiedTokens {tokens : List Token} :
    ∀ token ∈ LogEventView.copiedTokens buffer bufferSize startPos tokens,
      token.regHandler = .new := by
  induction tokens generalizing startPos with
  | nil => simp [LogEventView.copiedTokens]
  | cons token tokens ih =>
    rw [LogEventView.copiedTokens]
    exact List.forall_mem_cons.2 ⟨rfl, ih⟩

theorem typed_copiedTokens {tokens : List Token} (h : ∀ token ∈ tokens, token.Typed) :
    ∀ token ∈ LogEventView.copiedTokens buffer bufferSize startPos tokens, token.Typed := by
  induction tokens generalizing startPos with
  | nil => simp [LogEventView.copiedTokens]
  | cons token tokens ih =>
    rw [LogEventView.copiedTokens]
    obtain ⟨htoken, htokens⟩ := List.forall_mem_cons.1 h
    exact List.forall_mem_cons.2 ⟨htoken, ih htokens⟩

theorem plain_of_logtypeOfTokens {tokens : List Token} (ht : t.CapturesNonempty)
    (h : ∀ token ∈ tokens, token.regHandler = .new) (htyped : ∀ token ∈ tokens, token.Typed)
    {logtype : List UInt8} (hlogtype : logtypeOfTokens t idSymbol tokens = .ok logtype) :
    ∀ token ∈ tokens, token.Plain t := by
  cases tokens with
  | nil => simp
  | cons token tokens =>
    obtain ⟨text, htoken, hlogtype⟩ := exists_of_bind_eq_ok hlogtype
    obtain ⟨rest, hrest, -⟩ := exists_of_bind_eq_ok hlogtype
    have hplains := plain_of_logtypeOfRest ht
      (fun token' htoken => h token' (List.mem_cons_of_mem _ htoken))
      (fun token' htoken => htyped token' (List.mem_cons_of_mem _ htoken)) hrest
    refine List.forall_mem_cons.2 ⟨?_, hplains⟩
    by_contra hplain
    rw [logtypeOf_new ht (h token List.mem_cons_self) (htyped token List.mem_cons_self)
      hplain] at htoken
    cases htoken

theorem logtypeOfTokens_plain {token : Token} {tokens : List Token}
    (h : ∀ token' ∈ token :: tokens, token'.Plain t) :
    logtypeOfTokens t idSymbol (token :: tokens) =
      .ok (plainText idSymbol true token ++ tokens.flatMap (plainText idSymbol false)) := by
  obtain ⟨htoken, htokens⟩ := List.forall_mem_cons.1 h
  simp only [logtypeOfTokens]
  rw [logtypeOf_plain htoken, logtypeOfRest_plain htokens]
  rfl

/-- The first token keeps its delimiter in the log type. -/
theorem plainText_true_copiedToken {token : Token}
    (htext : (LogEventView.copiedToken buffer bufferSize startPos token).toString =
      token.toString) :
    plainText idSymbol true (LogEventView.copiedToken buffer bufferSize startPos token) =
      plainText idSymbol true token := by
  unfold plainText
  rw [firstTypeId_copiedToken, htext]
  simp

/-- With a header the readers of the copy start at its first token. -/
theorem logtype_same_iff_of_header (ht : t.CapturesNonempty) {token : Token}
    {tokens : List Token} (htyped : ∀ token' ∈ token :: tokens, token'.Typed)
    (htext : (LogEventView.copiedTokens buffer bufferSize startPos (token :: tokens)).map
      (·.toString) = (token :: tokens).map (·.toString)) :
    (∃ logtype, logtypeOfTokens t idSymbol (token :: tokens) = .ok logtype ∧
        logtypeOfTokens t idSymbol
          (LogEventView.copiedTokens buffer bufferSize startPos (token :: tokens)) =
            .ok logtype) ↔
      (∀ token' ∈ token :: tokens, token'.Plain t) ∧
        DelimitersAt buffer (startPos + token.toString.length) tokens := by
  have htexts := (List.cons.injEq _ _ _ _).mp htext
  have hiff := (flatMap_copiedTokens_eq_iff idSymbol htexts.2
    fun token' htoken => htyped token' (List.mem_cons_of_mem _ htoken)).2
  have hlogtypes (hplain : ∀ token' ∈ token :: tokens, token'.Plain t) :
      logtypeOfTokens t idSymbol
        (LogEventView.copiedTokens buffer bufferSize startPos (token :: tokens)) =
          .ok (plainText idSymbol true token ++
            (LogEventView.copiedTokens buffer bufferSize (startPos + token.toString.length)
              tokens).flatMap (plainText idSymbol false)) := by
    have hcopied : ∀ token' ∈ LogEventView.copiedTokens buffer bufferSize startPos
        (token :: tokens), token'.Plain t := forall_plain_copiedTokens.2 hplain
    rw [LogEventView.copiedTokens] at hcopied ⊢
    rw [logtypeOfTokens_plain hcopied, plainText_true_copiedToken htexts.1]
  constructor
  · rintro ⟨logtype, hview, hcopy⟩
    have hplain := forall_plain_copiedTokens.1
      (plain_of_logtypeOfTokens ht regHandler_copiedTokens (typed_copiedTokens htyped) hcopy)
    rw [logtypeOfTokens_plain hplain] at hview
    rw [hlogtypes hplain, ← hview] at hcopy
    exact ⟨hplain, hiff.1 (List.append_cancel_left (Except.ok.inj hcopy))⟩
  · rintro ⟨hplain, hdelimiters⟩
    refine ⟨_, logtypeOfTokens_plain hplain, ?_⟩
    rw [hlogtypes hplain, hiff.2 hdelimiters]

/-- Behind the first token a variable adds its delimiter too. -/
theorem plainText_false_cases (idSymbol : Nat → String) {token : Token} (htyped : token.Typed) :
    ¬ token.HasDelimiter ∧ plainText idSymbol false token = plainText idSymbol true token ∨
      token.HasDelimiter ∧
        plainText idSymbol false token = token.getFirstChar :: plainText idSymbol true token := by
  obtain ⟨id, hid⟩ := htyped
  have hdelimiter : token.HasDelimiter ↔ id ≠ SymbolId.tokenUncaughtString.toNat ∧
      id ≠ SymbolId.tokenNewline.toNat := by
    simp [Token.HasDelimiter, hid]
  unfold plainText
  rw [hdelimiter, hid]
  by_cases hstatic : id = SymbolId.tokenUncaughtString.toNat
  · simp [hstatic]
  · by_cases hnewline : id = SymbolId.tokenNewline.toNat
    · simp [hnewline]
    · simp [hstatic, hnewline]

/-- Without a header the readers of the copy start behind its first token. -/
theorem logtype_same_iff_of_no_header (ht : t.CapturesNonempty) {token : Token}
    {tokens : List Token} (hempty : token.toString = [])
    (htyped : ∀ token' ∈ token :: tokens, token'.Typed)
    (htext : (LogEventView.copiedTokens buffer bufferSize startPos tokens).map
      (·.toString) = tokens.map (·.toString)) :
    (∃ logtype, logtypeOfTokens t idSymbol (token :: tokens) = .ok logtype ∧
        logtypeOfTokens t idSymbol
          (LogEventView.copiedTokens buffer bufferSize startPos tokens) = .ok logtype) ↔
      (∀ token' ∈ tokens, token'.Plain t) ∧ token.AddsNothing t ∧
        (∀ second ∈ tokens.head?, ¬ second.HasDelimiter) ∧
          DelimitersAt buffer startPos tokens := by
  obtain ⟨htoken, htokens⟩ := List.forall_mem_cons.1 htyped
  have hnothing : logtypeOf t idSymbol true token = .ok [] ↔ token.AddsNothing t :=
    logtypeOf_eq_nil_iff htoken hempty
  -- The log type of the view is that of the first token and those of the others.
  have hview (hplain : ∀ token' ∈ tokens, token'.Plain t) (logtype : List UInt8) :
      logtypeOfTokens t idSymbol (token :: tokens) = .ok logtype ↔
        ∃ text, logtypeOf t idSymbol true token = .ok text ∧
          text ++ tokens.flatMap (plainText idSymbol false) = logtype := by
    simp only [logtypeOfTokens]
    rw [logtypeOfRest_plain hplain]
    cases logtypeOf t idSymbol true token with
    | error fault => simp [bind, Except.bind]
    | ok text => simp [bind, Except.bind, pure, Except.pure]
  cases tokens with
  | nil =>
    have hplain : ∀ token' ∈ ([] : List Token), token'.Plain t := by simp
    have hdelimiters : DelimitersAt buffer startPos [] := by simp [DelimitersAt]
    constructor
    · rintro ⟨logtype, hlogtype, hcopy⟩
      cases hcopy
      obtain ⟨text, htext, hnil⟩ := (hview hplain []).1 hlogtype
      rw [List.flatMap_nil, List.append_nil] at hnil
      rw [hnil] at htext
      exact ⟨hplain, hnothing.1 htext, by simp, hdelimiters⟩
    · rintro ⟨-, hadds, -, -⟩
      exact ⟨[], (hview hplain []).2 ⟨[], hnothing.2 hadds, rfl⟩, rfl⟩
  | cons second tokens =>
    have htexts := (List.cons.injEq _ _ _ _).mp htext
    obtain ⟨hsecond, hrest⟩ := List.forall_mem_cons.1 htokens
    obtain ⟨hlength, hiff⟩ := flatMap_copiedTokens_eq_iff idSymbol htexts.2 hrest
    have hcopy (hplain : ∀ token' ∈ second :: tokens, token'.Plain t) :
        logtypeOfTokens t idSymbol
          (LogEventView.copiedTokens buffer bufferSize startPos (second :: tokens)) =
            .ok (plainText idSymbol true second ++
              (LogEventView.copiedTokens buffer bufferSize (startPos + second.toString.length)
                tokens).flatMap (plainText idSymbol false)) := by
      have hcopied : ∀ token' ∈ LogEventView.copiedTokens buffer bufferSize startPos
          (second :: tokens), token'.Plain t := forall_plain_copiedTokens.2 hplain
      rw [LogEventView.copiedTokens] at hcopied ⊢
      rw [logtypeOfTokens_plain hcopied, plainText_true_copiedToken htexts.1]
    simp only [List.head?_cons, Option.mem_some_iff, forall_eq', delimitersAt_cons]
    constructor
    · rintro ⟨logtype, hlogtype, hcopied⟩
      have hplain := forall_plain_copiedTokens.1
        (plain_of_logtypeOfTokens ht regHandler_copiedTokens (typed_copiedTokens htokens) hcopied)
      obtain ⟨text, htext, happend⟩ := (hview hplain logtype).1 hlogtype
      rw [hcopy hplain, ← happend, List.flatMap_cons] at hcopied
      have heq := Except.ok.inj hcopied
      have hlengths := congrArg List.length heq
      simp only [List.length_append] at hlengths
      -- The texts of the first token and of the delimiter have no room.
      rcases plainText_false_cases idSymbol hsecond with
        ⟨hnone, hpiece⟩ | ⟨hdelimiter, hpiece⟩
      · rw [hpiece] at hlengths heq
        have hnil : text = [] := List.length_eq_zero_iff.1 (by omega)
        rw [hnil, List.nil_append] at heq
        rw [hnil] at htext
        exact ⟨hplain, hnothing.1 htext, hnone, fun h => absurd h hnone,
          hiff.1 (List.append_cancel_left heq)⟩
      · rw [hpiece, List.length_cons] at hlengths
        omega
    · rintro ⟨hplain, hadds, hnone, -, hdelimiters⟩
      refine ⟨_, (hview hplain _).2 ⟨[], hnothing.2 hadds, rfl⟩, ?_⟩
      rw [hcopy hplain, hiff.2 hdelimiters, List.nil_append, List.flatMap_cons]
      rcases plainText_false_cases idSymbol hsecond with
        ⟨-, hpiece⟩ | ⟨hdelimiter, -⟩
      · rw [hpiece]
      · exact absurd hdelimiter hnone

end

/-! ## The copy -/

namespace LogEventView

variable {behind : Nat → UInt8} {view copy : LogEventView}

theorem generateLogEventViewMetadata_spec {b : LogParserOutputBuffer}
    (h : generateLogEventViewMetadata b = .ok view) :
    view.logOutputBuffer = b ∧ (∀ token ∈ b.tokens, token.Typed) ∧
      ∀ id, view.getVariables id = occurrencesOf id b.tokens := by
  obtain ⟨added, hadded, h⟩ := exists_of_bind_eq_ok h
  obtain ⟨htyped, hbuffer, -, hvariables⟩ := addTokens_spec hadded
  have hnothing : ∀ id, ({ logOutputBuffer := b } : LogEventView).getVariables id = [] :=
    fun _ => rfl
  split at h
  · cases h
    exact ⟨hbuffer, htyped, fun id => (hvariables id).trans (by rw [hnothing, List.nil_append])⟩
  · cases h
    exact ⟨hbuffer, htyped, fun id => (hvariables id).trans (by rw [hnothing, List.nil_append])⟩

theorem totalLength_eq (tokens : List Token) :
    totalLength tokens = (tokens.flatMap (·.toString)).length := by
  induction tokens with
  | nil => rfl
  | cons token tokens ih =>
    rw [totalLength, ih, List.flatMap_cons, List.length_append, token.length_toString]

theorem totalLength_tokens (view : LogEventView) :
    totalLength view.logOutputBuffer.tokens = view.toString.length :=
  totalLength_eq view.logOutputBuffer.tokens

/-- The text of the event has to fit into the buffer of the copy. -/
theorem length_of_deepCopy (h : view.deepCopy behind = .ok copy) :
    0 < view.toString.length ∧ view.toString.length < 2 ^ 32 := by
  unfold deepCopy at h
  simp only [totalLength_tokens] at h
  split at h
  · cases h
  · rename_i hne
    split at h
    · cases h
    · rename_i hle
      have hmod : toUInt32 view.toString.length < 2 ^ 32 := Nat.mod_lt _ (by decide)
      have hself : toUInt32 view.toString.length ≤ view.toString.length := Nat.mod_le _ _
      omega

/-- What a copy holds. -/
structure CopyOf (behind : Nat → UInt8) (view copy : LogEventView) : Prop where
  filled : copy.logOutputBuffer.filled =
    copiedTokens (copyBuffer behind view.toString) view.toString.length 0
      view.logOutputBuffer.tokens
  hasHeader : copy.logOutputBuffer.hasHeader = view.logOutputBuffer.hasHeader
  timestamp : copy.getTimestamp = view.getTimestamp
  multiline : copy.isMultiline = view.isMultiline
  occurrences : ∀ id, copy.getVariables id = occurrencesOf id copy.logOutputBuffer.filled

theorem exists_deepCopy (htyped : ∀ token ∈ view.logOutputBuffer.tokens, token.Typed)
    (hpos : 0 < view.toString.length) (hlt : view.toString.length < 2 ^ 32) :
    ∃ copy, view.deepCopy behind = .ok copy ∧ CopyOf behind view copy := by
  have hsize : toUInt32 view.toString.length = view.toString.length := toUInt32_of_lt hlt
  let new : LogParserOutputBuffer :=
    { LogParserOutputBuffer.new with
      hasHeader := view.logOutputBuffer.hasHeader
      timestamp := view.logOutputBuffer.timestamp }
  let outputBuffer := (view.logOutputBuffer.tokens.foldl
    (copyToken (copyBuffer behind view.toString) view.toString.length) (0, new)).2
  obtain ⟨hfilled, hheader, htimestamp⟩ :
      outputBuffer.filled = new.filled ++ copiedTokens (copyBuffer behind view.toString)
          view.toString.length 0 view.logOutputBuffer.tokens ∧
        outputBuffer.hasHeader = new.hasHeader ∧ outputBuffer.timestamp = new.timestamp :=
    foldl_copyToken view.logOutputBuffer.tokens 0 new
  have hnew : new.filled = [] := rfl
  rw [hnew, List.nil_append] at hfilled
  have hcopied : ∀ token ∈ outputBuffer.filled, token.Typed := by
    rw [hfilled]
    exact typed_copiedTokens htyped
  obtain ⟨copy, hcopy⟩ := exists_addTokens hcopied
    { logOutputBuffer := outputBuffer, multiline := view.isMultiline }
  obtain ⟨-, hbuffer, hmultiline, hoccurrences⟩ := addTokens_spec hcopy
  refine ⟨copy, ?_, ?_⟩
  · unfold deepCopy
    simp only [totalLength_tokens]
    rw [hsize, if_neg (by omega), if_neg (by omega)]
    exact hcopy
  · constructor
    · rw [hbuffer]
      exact hfilled
    · rw [hbuffer]
      exact hheader
    · unfold getTimestamp
      rw [hbuffer]
      exact htimestamp
    · exact hmultiline
    · intro id
      rw [hbuffer]
      exact hoccurrences id

theorem occurrencesOf_copiedTokens {buffer : Nat → UInt8} {bufferSize startPos : Nat}
    {tokens : List Token}
    (htext : (copiedTokens buffer bufferSize startPos tokens).map (·.toString) =
      tokens.map (·.toString)) (id : Nat) :
    (occurrencesOf id (copiedTokens buffer bufferSize startPos tokens)).map (·.toString) =
      (occurrencesOf id tokens).map (·.toString) := by
  induction tokens generalizing startPos with
  | nil => rfl
  | cons token tokens ih =>
    have htexts := (List.cons.injEq _ _ _ _).mp htext
    have ih := ih htexts.2
    unfold occurrencesOf at ih ⊢
    rw [copiedTokens, List.filter_cons, List.filter_cons, firstTypeId_copiedToken]
    split
    · rw [List.map_cons, List.map_cons, ih]
      exact congrArg (· :: _) htexts.1
    · exact ih

end LogEventView

/-! ## When a copy is the same event -/

/-- The copy shows what the view shows. -/
structure SameEvent (t : LexerTables) (idSymbol : Nat → String) (view copy : LogEventView) :
    Prop where
  text : copy.toString = view.toString
  logtype : ∃ logtype, view.getLogtype t idSymbol = .ok logtype ∧
    copy.getLogtype t idSymbol = .ok logtype
  timestamp : copy.getTimestamp = view.getTimestamp
  multiline : copy.isMultiline = view.isMultiline
  variableTexts : ∀ id, (copy.getVariables id).map (·.toString) =
    (view.getVariables id).map (·.toString)

/-- The events that survive a copy.  The readers of the copy read the tokens
from its slot `start` on, none of which may need its registers.  Without a
header they miss the first token, which must add nothing to the event. -/
structure KeptByCopy (t : LexerTables) (behind : Nat → UInt8) (view : LogEventView) : Prop where
  length_pos : 0 < view.toString.length
  length_lt : view.toString.length < 2 ^ 32
  plain : ∀ token ∈ view.logOutputBuffer.tokens.drop view.logOutputBuffer.start, token.Plain t
  delimiters : DelimitersAt (LogEventView.copyBuffer behind view.toString)
    ((view.logOutputBuffer.tokens.take (view.logOutputBuffer.start + 1)).flatMap
      (·.toString)).length
    (view.logOutputBuffer.tokens.drop (view.logOutputBuffer.start + 1))
  first : view.logOutputBuffer.hasHeader ∨
    (∀ first ∈ view.logOutputBuffer.tokens.head?, first.AddsNothing t) ∧
      ∀ second ∈ view.logOutputBuffer.tokens[1]?, ¬ second.HasDelimiter

theorem flatMap_toString_congr {tokens tokens' : List Token}
    (h : tokens.map (·.toString) = tokens'.map (·.toString)) :
    tokens.flatMap (·.toString) = tokens'.flatMap (·.toString) := by
  rw [List.flatMap_def, List.flatMap_def, h]

section

variable {t : LexerTables} {idSymbol : Nat → String} {behind : Nat → UInt8}
variable {view copy : LogEventView}

namespace LogEventView.CopyOf

/-- The tokens that the readers of the copy read. -/
theorem tokens (h : CopyOf behind view copy) :
    copy.logOutputBuffer.tokens =
      (copiedTokens (copyBuffer behind view.toString) view.toString.length 0
        view.logOutputBuffer.tokens).drop view.logOutputBuffer.start := by
  rw [LogParserOutputBuffer.tokens_eq_drop, h.filled]
  unfold LogParserOutputBuffer.start
  rw [h.hasHeader]

theorem texts (behind : Nat → UInt8) (view : LogEventView) (bufferSize : Nat) :
    (copiedTokens (copyBuffer behind view.toString) bufferSize 0
      view.logOutputBuffer.tokens).map (·.toString) =
        view.logOutputBuffer.tokens.map (·.toString) :=
  toString_copiedTokens [] view.logOutputBuffer.tokens

/-- Only the text and the log type of a copy may differ. -/
theorem sameEvent_iff (h : CopyOf behind view copy)
    (hoccurrences : ∀ id, view.getVariables id = occurrencesOf id view.logOutputBuffer.tokens) :
    SameEvent t idSymbol view copy ↔
      copy.toString = view.toString ∧ ∃ logtype, view.getLogtype t idSymbol = .ok logtype ∧
        copy.getLogtype t idSymbol = .ok logtype := by
  constructor
  · intro hsame
    exact ⟨hsame.text, hsame.logtype⟩
  · rintro ⟨htext, hlogtype⟩
    refine ⟨htext, hlogtype, h.timestamp, h.multiline, fun id => ?_⟩
    rw [h.occurrences id, hoccurrences id, h.filled]
    exact occurrencesOf_copiedTokens (texts behind view _) id

theorem sameEvent_iff_of_header (ht : t.CapturesNonempty) (h : CopyOf behind view copy)
    (hheader : view.logOutputBuffer.hasHeader = true)
    (htyped : ∀ token ∈ view.logOutputBuffer.tokens, token.Typed)
    (hoccurrences : ∀ id, view.getVariables id = occurrencesOf id view.logOutputBuffer.tokens)
    (hlength : 0 < view.toString.length ∧ view.toString.length < 2 ^ 32) :
    SameEvent t idSymbol view copy ↔ KeptByCopy t behind view := by
  have hstart : view.logOutputBuffer.start = 0 := if_pos hheader
  have htexts := texts behind view view.toString.length
  have htokens := h.tokens
  rw [hstart, List.drop_zero] at htokens
  have htext : copy.toString = view.toString := by
    unfold toString LogParserOutputBuffer.toString at htokens htexts ⊢
    rw [htokens]
    exact flatMap_toString_congr htexts
  have hkept : KeptByCopy t behind view ↔
      (∀ token ∈ view.logOutputBuffer.tokens, token.Plain t) ∧
        DelimitersAt (copyBuffer behind view.toString)
          ((view.logOutputBuffer.tokens.take 1).flatMap (·.toString)).length
          (view.logOutputBuffer.tokens.drop 1) := by
    constructor
    · intro hkept
      have hplain := hkept.plain
      have hdelimiters := hkept.delimiters
      rw [hstart] at hplain hdelimiters
      exact ⟨hplain, hdelimiters⟩
    · rintro ⟨hplain, hdelimiters⟩
      refine ⟨hlength.1, hlength.2, ?_, ?_, .inl hheader⟩
      · rw [hstart]
        exact hplain
      · rw [hstart]
        exact hdelimiters
  rw [h.sameEvent_iff hoccurrences, hkept]
  have hne : view.logOutputBuffer.tokens ≠ [] := by
    intro hnil
    have hzero : view.toString = [] := by
      unfold toString LogParserOutputBuffer.toString
      rw [hnil]
      rfl
    rw [hzero] at hlength
    exact Nat.lt_irrefl 0 hlength.1
  unfold getLogtype
  rw [htokens]
  generalize hbuffer : copyBuffer behind view.toString = buffer at htexts ⊢
  generalize view.toString.length = bufferSize at htexts ⊢
  generalize view.logOutputBuffer.tokens = toks at htexts htyped hne ⊢
  cases toks with
  | nil => exact absurd rfl hne
  | cons token tokens =>
    rw [logtype_same_iff_of_header ht htyped htexts]
    simp [htext]

/-- Without a header the delimiter of the second token counts as its text. -/
theorem delimitersAt_second {buffer : Nat → UInt8} {token : Token} {tokens : List Token}
    (hempty : token.toString = []) :
    (∀ second ∈ tokens.head?, ¬ second.HasDelimiter) ∧ DelimitersAt buffer 0 tokens ↔
      DelimitersAt buffer (((token :: tokens).take 2).flatMap (·.toString)).length
          ((token :: tokens).drop 2) ∧
        ∀ second ∈ (token :: tokens)[1]?, ¬ second.HasDelimiter := by
  cases tokens with
  | nil => simp [DelimitersAt]
  | cons second tokens =>
    rw [delimitersAt_cons]
    simp only [List.head?_cons, Option.mem_some_iff, forall_eq', List.take_succ_cons,
      List.take_zero, List.flatMap_cons, List.flatMap_nil, List.append_nil, hempty,
      List.nil_append, List.drop_succ_cons, List.drop_zero, List.getElem?_cons_succ,
      List.getElem?_cons_zero, Nat.zero_add]
    constructor
    · rintro ⟨hnone, -, hdelimiters⟩
      exact ⟨hdelimiters, hnone⟩
    · rintro ⟨hdelimiters, hnone⟩
      exact ⟨hnone, fun hdelimiter => absurd hdelimiter hnone, hdelimiters⟩

theorem sameEvent_iff_of_no_header (ht : t.CapturesNonempty) (h : CopyOf behind view copy)
    (hheader : ¬ view.logOutputBuffer.hasHeader = true)
    (htyped : ∀ token ∈ view.logOutputBuffer.tokens, token.Typed)
    (hoccurrences : ∀ id, view.getVariables id = occurrencesOf id view.logOutputBuffer.tokens)
    (hlength : 0 < view.toString.length ∧ view.toString.length < 2 ^ 32) :
    SameEvent t idSymbol view copy ↔ KeptByCopy t behind view := by
  have hstart : view.logOutputBuffer.start = 1 := if_neg hheader
  have htexts := texts behind view view.toString.length
  have htokens := h.tokens
  rw [hstart] at htokens
  have hkept : KeptByCopy t behind view ↔
      (∀ token ∈ view.logOutputBuffer.tokens.drop 1, token.Plain t) ∧
        (∀ first ∈ view.logOutputBuffer.tokens.head?, first.AddsNothing t) ∧
          DelimitersAt (copyBuffer behind view.toString)
            ((view.logOutputBuffer.tokens.take 2).flatMap (·.toString)).length
            (view.logOutputBuffer.tokens.drop 2) ∧
          ∀ second ∈ view.logOutputBuffer.tokens[1]?, ¬ second.HasDelimiter := by
    constructor
    · intro hkept
      have hplain := hkept.plain
      have hdelimiters := hkept.delimiters
      rw [hstart] at hplain hdelimiters
      rcases hkept.first with hfirst | ⟨hadds, hnone⟩
      · exact absurd hfirst hheader
      · exact ⟨hplain, hadds, hdelimiters, hnone⟩
    · rintro ⟨hplain, hadds, hdelimiters, hnone⟩
      refine ⟨hlength.1, hlength.2, ?_, ?_, .inr ⟨hadds, hnone⟩⟩
      · rw [hstart]
        exact hplain
      · rw [hstart]
        exact hdelimiters
  have hne : view.logOutputBuffer.tokens ≠ [] := by
    intro hnil
    have hzero : view.toString = [] := by
      unfold toString LogParserOutputBuffer.toString
      rw [hnil]
      rfl
    rw [hzero] at hlength
    exact Nat.lt_irrefl 0 hlength.1
  rw [h.sameEvent_iff hoccurrences, hkept]
  unfold getLogtype
  have htext : copy.toString = view.toString ↔
      (copy.logOutputBuffer.tokens.flatMap (·.toString)) =
        view.logOutputBuffer.tokens.flatMap (·.toString) := Iff.rfl
  rw [htext, htokens]
  generalize hbuffer : copyBuffer behind view.toString = buffer at htexts ⊢
  generalize view.toString.length = bufferSize at htexts ⊢
  generalize view.logOutputBuffer.tokens = toks at htexts htyped hne ⊢
  cases toks with
  | nil => exact absurd rfl hne
  | cons token tokens =>
    have htexts := ((List.cons.injEq _ _ _ _).mp htexts).2
    rw [copiedTokens, List.drop_one, List.tail_cons, flatMap_toString_congr htexts,
      List.flatMap_cons]
    rw [List.self_eq_append_left]
    constructor
    · rintro ⟨hempty, hlogtype⟩
      rw [logtype_same_iff_of_no_header ht hempty htyped htexts] at hlogtype
      obtain ⟨hplain, hadds, hnone, hdelimiters⟩ := hlogtype
      rw [hempty] at hdelimiters
      obtain ⟨hrest, hsecond⟩ := (delimitersAt_second hempty).1 ⟨hnone, hdelimiters⟩
      exact ⟨hplain, by simpa using hadds, hrest, hsecond⟩
    · rintro ⟨hplain, hadds, hrest, hsecond⟩
      have hadds := hadds token rfl
      obtain ⟨hnone, hdelimiters⟩ := (delimitersAt_second hadds.empty).2 ⟨hrest, hsecond⟩
      refine ⟨hadds.empty, ?_⟩
      rw [logtype_same_iff_of_no_header ht hadds.empty htyped htexts, hadds.empty]
      exact ⟨hplain, hadds, hnone, hdelimiters⟩

end LogEventView.CopyOf

end

/-- A copy exists and is the same event exactly for the events that survive
it. -/
theorem exists_sameEvent_iff {t : LexerTables} (ht : t.CapturesNonempty)
    (idSymbol : Nat → String) (behind : Nat → UInt8) {b : LogParserOutputBuffer}
    {view : LogEventView} (hview : LogEventView.generateLogEventViewMetadata b = .ok view) :
    (∃ copy, view.deepCopy behind = .ok copy ∧ SameEvent t idSymbol view copy) ↔
      KeptByCopy t behind view := by
  obtain ⟨rfl, htyped, hoccurrences⟩ := LogEventView.generateLogEventViewMetadata_spec hview
  have hiff : ∀ copy, LogEventView.CopyOf behind view copy →
      0 < view.toString.length ∧ view.toString.length < 2 ^ 32 →
      (SameEvent t idSymbol view copy ↔ KeptByCopy t behind view) := by
    intro copy hcopy hlength
    by_cases hheader : view.logOutputBuffer.hasHeader = true
    · exact hcopy.sameEvent_iff_of_header ht hheader htyped hoccurrences hlength
    · exact hcopy.sameEvent_iff_of_no_header ht hheader htyped hoccurrences hlength
  constructor
  · rintro ⟨copy, hdeep, hsame⟩
    obtain ⟨hpos, hlt⟩ := LogEventView.length_of_deepCopy hdeep
    obtain ⟨copy', hdeep', hcopy⟩ := LogEventView.exists_deepCopy htyped hpos hlt
    obtain rfl : copy = copy' := Except.ok.inj (hdeep.symm.trans hdeep')
    exact (hiff copy hcopy ⟨hpos, hlt⟩).1 hsame
  · intro hkept
    obtain ⟨copy, hdeep, hcopy⟩ :=
      LogEventView.exists_deepCopy htyped hkept.length_pos hkept.length_lt
    exact ⟨copy, hdeep, (hiff copy hcopy ⟨hkept.length_pos, hkept.length_lt⟩).2 hkept⟩

/-- Only a variable with captures has a list of captures. -/
theorem captures_ne_nil_of_ruleIdToCapture {rules : List LexicalRule} {id : Nat}
    {captures : List Capture} (h : (ruleIdToCapture rules).lookup id = some captures) :
    captures ≠ [] := by
  have hmem : (id, captures) ∈ ruleIdToCapture rules := by
    obtain ⟨before, after, heq, -⟩ := List.lookup_eq_some_iff.1 h
    rw [heq]
    simp
  obtain ⟨ruleId, hrule, heq⟩ := List.mem_map.1 hmem
  cases heq
  obtain ⟨rule, hmemrule, hid⟩ := List.mem_map.1 (List.mem_dedup.1 hrule)
  have hcaptures : rule.getCaptures ≠ [] := by
    simpa using (List.mem_filter.1 hmemrule).2
  have hmemid : rule ∈ (rules.filter (·.getCaptures ≠ [])).filter (·.variableId = id) :=
    List.mem_filter.2 ⟨hmemrule, by simpa using hid⟩
  intro hnil
  exact hcaptures (List.flatMap_eq_nil_iff.1 hnil rule hmemid)

theorem capturesNonempty_of_generate {schema : SchemaAST}
    {regMapOrder : List (Nat × Nat) → List (Nat × Nat)} {steps : Nat} {t : LexerTables}
    (h : schema.generate regMapOrder steps = .ok t) : t.CapturesNonempty := by
  obtain ⟨parser, -, h⟩ := exists_of_bind_eq_ok h
  obtain ⟨dfa, root, -, -, rfl⟩ := generateTables_cases h
  intro id captures hcaptures
  exact captures_ne_nil_of_ruleIdToCapture hcaptures

theorem view_of_parse {t : LexerTables} {p p' : LogParser} {fuel : Nat}
    {action : ParsingAction} {view : LogEventView}
    (h : p.parseAndGenerateMetadata t fuel = .ok (p', .ok (action, view))) :
    LogEventView.generateLogEventViewMetadata p'.outputBuffer = .ok view := by
  obtain ⟨⟨parsed, result⟩, -, h⟩ := exists_of_bind_eq_ok h
  cases result with
  | error err => cases h
  | ok action' =>
    obtain ⟨view', hview, h⟩ := exists_of_bind_eq_ok h
    cases h
    exact hview

/-- A copy of an event is made and is the same event exactly if the event is
one that survives it. -/
theorem deepCopy_sameEvent_iff_kept {schema : SchemaAST}
    {regMapOrder : List (Nat × Nat) → List (Nat × Nat)} {steps fuel : Nat} {t : LexerTables}
    (ht : schema.generate regMapOrder steps = .ok t) (idSymbol : Nat → String)
    (behind : Nat → UInt8) {p p' : LogParser} {action : ParsingAction} {view : LogEventView}
    (hparse : p.parseAndGenerateMetadata t fuel = .ok (p', .ok (action, view))) :
    (∃ copy, view.deepCopy behind = .ok copy ∧ SameEvent t idSymbol view copy) ↔
      KeptByCopy t behind view :=
  exists_sameEvent_iff (capturesNonempty_of_generate ht) idSymbol behind (view_of_parse hparse)

/-! ### Single events -/

/-- The parser of a text that is read from the start. -/
def LogParser.read (p : LogParser) (text : List UInt8) : LogParser :=
  p.setInputBuffer (LogEventView.copyBuffer (fun _ => 0) text) text.length 0 true

/-- The tables of a schema, and what a new parser makes of the first event of a
text. -/
def parseFirstEvent (schema : SchemaAST) (steps : Nat) (text : List UInt8) :
    Except Fault (LexerTables × LogParser × LogParser × Except ErrorCode
      (ParsingAction × LogEventView)) := do
  let t ← schema.generate id steps
  let p ← (LogParser.new t).reset t
  let (p', result) ← (p.read text).parseAndGenerateMetadata t steps
  return (t, p, p', result)

def checkFirstEvent (schema : SchemaAST) (steps : Nat) (text : List UInt8)
    (P : LexerTables → LogEventView → Bool) : Bool :=
  match parseFirstEvent schema steps text with
  | .ok (t, _, _, .ok (_, view)) => P t view
  | _ => false

theorem exists_view_of_check {schema : SchemaAST} {steps : Nat} {text : List UInt8}
    {P : LexerTables → LogEventView → Bool} (h : checkFirstEvent schema steps text P = true) :
    ∃ (t : LexerTables) (p p' : LogParser) (action : ParsingAction) (view : LogEventView),
      schema.generate id steps = .ok t ∧ (LogParser.new t).reset t = .ok p ∧
      (p.read text).parseAndGenerateMetadata t steps = .ok (p', .ok (action, view)) ∧
      P t view = true := by
  unfold checkFirstEvent at h
  split at h
  · rename_i t p p' action view hparse
    obtain ⟨t', ht, hparse⟩ := exists_of_bind_eq_ok hparse
    obtain ⟨q, hreset, hparse⟩ := exists_of_bind_eq_ok hparse
    obtain ⟨⟨q', result⟩, hresult, hparse⟩ := exists_of_bind_eq_ok hparse
    cases hparse
    exact ⟨t, p, p', action, view, ht, hreset, hresult, h⟩
  · cases h

/-- A header that is the whole event survives a copy. -/
theorem deepCopy_sameEvent_iff_kept_header :
    ∃ (t : LexerTables) (p p' : LogParser) (action : ParsingAction) (view : LogEventView),
      SchemaAST.generate ⟨[⟨"header", .mkLiteral 97⟩], [[10, 32]]⟩ id 40 = .ok t ∧
      (LogParser.new t).reset t = .ok p ∧
      (p.read [97]).parseAndGenerateMetadata t 40 = .ok (p', .ok (action, view)) ∧
      view.toString = [97] ∧
      ∃ copy, view.deepCopy (fun _ => 0) = .ok copy ∧ SameEvent t (fun _ => "") view copy := by
  have hcheck : checkFirstEvent ⟨[⟨"header", .mkLiteral 97⟩], [[10, 32]]⟩ 40 [97]
      (fun t view => view.toString = [97] ∧ view.logOutputBuffer.hasHeader ∧
        view.logOutputBuffer.tokens.length = 1 ∧
        (view.logOutputBuffer.tokens.all fun token =>
          token.firstTypeId = .ok 5 ∧ t.getCapturesFromRuleId 5 = none)) = true := by
    decide +kernel
  obtain ⟨t, p, p', action, view, ht, hreset, hparse, hview⟩ := exists_view_of_check hcheck
  obtain ⟨htext, hheader, hlength, hall⟩ := of_decide_eq_true hview
  have hstart : view.logOutputBuffer.start = 0 := if_pos hheader
  refine ⟨t, p, p', action, view, ht, hreset, hparse, htext,
    (deepCopy_sameEvent_iff_kept ht (fun _ => "") (fun _ => 0) hparse).2 ?_⟩
  have hdrop : view.logOutputBuffer.tokens.drop (view.logOutputBuffer.start + 1) = [] := by
    rw [hstart, List.drop_eq_nil_iff]
    omega
  constructor
  · simp [htext]
  · simp [htext]
  · intro token htoken
    obtain ⟨htype, hnone⟩ := of_decide_eq_true (List.all_eq_true.1 hall token
      (List.mem_of_mem_drop htoken))
    exact .inr ⟨5, htype, hnone⟩
  · rw [hdrop]
    simp [DelimitersAt]
  · exact .inl hheader

/-- The copy of a static text without a header has no text. -/
theorem not_sameEvent_static :
    ∃ (t : LexerTables) (p p' : LogParser) (action : ParsingAction) (view : LogEventView),
      SchemaAST.generate ⟨[⟨"v", .mkLiteral 97⟩], [[10, 32]]⟩ id 40 = .ok t ∧
      (LogParser.new t).reset t = .ok p ∧
      (p.read [120]).parseAndGenerateMetadata t 40 = .ok (p', .ok (action, view)) ∧
      view.toString = [120] ∧
      ∀ idSymbol behind copy, view.deepCopy behind = .ok copy →
        ¬ SameEvent t idSymbol view copy := by
  have hcheck : checkFirstEvent ⟨[⟨"v", .mkLiteral 97⟩], [[10, 32]]⟩ 40 [120]
      (fun _ view => view.toString = [120] ∧ ¬ view.logOutputBuffer.hasHeader ∧
        view.logOutputBuffer.tokens.length = 1) = true := by
    decide +kernel
  obtain ⟨t, p, p', action, view, ht, hreset, hparse, hview⟩ := exists_view_of_check hcheck
  obtain ⟨htext, hheader, hlength⟩ := of_decide_eq_true hview
  obtain ⟨token, htoken⟩ := List.length_eq_one_iff.1 hlength
  refine ⟨t, p, p', action, view, ht, hreset, hparse, htext, ?_⟩
  intro idSymbol behind copy hcopy hsame
  have hkept := (exists_sameEvent_iff (capturesNonempty_of_generate ht) idSymbol behind
    (view_of_parse hparse)).1 ⟨copy, hcopy, hsame⟩
  rcases hkept.first with hfirst | ⟨hadds, -⟩
  · exact hheader hfirst
  · have hempty := (hadds token (by rw [htoken]; rfl)).empty
    unfold LogEventView.toString LogParserOutputBuffer.toString at htext
    rw [htoken, List.flatMap_singleton, hempty] at htext
    cases htext

end LogSurgeon
