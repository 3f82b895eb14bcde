import LogSurgeon.LogEventCopy
import LogSurgeon.ScannerStates

/-!
# Events with several lines

`is_multiline` is computed from the tokens: one that starts with a newline has
to stand between the header and the last token.  `isMultiline_iff` says for
which tokens this is what the text shows.

* A newline is hidden in the header, in the last token, and behind the first
  character of a token.
* A token without characters may show a newline that is not in the text.
-/

namespace LogSurgeon

namespace LogEventView

/-! ## Newlines in the tokens -/

/-- A newline with text behind it, in a token with `before` and `after` around
it. -/
def BreaksLine (token : Token) (after : List Token) : Prop :=
  ∃ u v, token.toString = u ++ 10 :: v ∧ v ++ after.flatMap (·.toString) ≠ []

/-- A token between the header and the last one starts with a newline. -/
def HasLineToken (tokens : List Token) : Prop :=
  ∃ before token after, tokens = before ++ token :: after ∧ before ≠ [] ∧ after ≠ [] ∧
    token.getFirstChar = 10

/-- A newline with text behind it stands in the header, in the last token, or
behind another first character, and no token between starts with one. -/
structure HidesLine (tokens : List Token) : Prop where
  newline : ∃ before token after, tokens = before ++ token :: after ∧
    (before = [] ∨ after = [] ∨ token.getFirstChar ≠ 10) ∧ BreaksLine token after
  unseen : ¬ HasLineToken tokens

/-- A token between starts with a newline, and no newline has text behind
it. -/
structure ShowsPhantomLine (tokens : List Token) : Prop where
  seen : HasLineToken tokens
  noText : ∀ before token after, tokens = before ++ token :: after → ¬ BreaksLine token after

/-- The text has characters behind its first newline. -/
def SpansLines (text : List UInt8) : Prop :=
  ∃ before after, text = before ++ 10 :: after ∧ 10 ∉ before ∧ after ≠ []

/-! ## The text -/

theorem spansLines_iff {text : List UInt8} :
    SpansLines text ↔ ∃ before after, text = before ++ 10 :: after ∧ after ≠ [] := by
  constructor
  · rintro ⟨before, after, htext, -, hafter⟩
    exact ⟨before, after, htext, hafter⟩
  · rintro ⟨before, after, htext, hafter⟩
    induction before generalizing text with
    | nil => exact ⟨[], after, htext, List.not_mem_nil, hafter⟩
    | cons c before ih =>
      by_cases hc : c = 10
      · refine ⟨[], before ++ 10 :: after, ?_, List.not_mem_nil, by simp⟩
        rw [htext, hc]
        rfl
      · obtain ⟨before', after', heq, hfirst, hafter'⟩ := ih rfl
        refine ⟨c :: before', after', ?_, ?_, hafter'⟩
        · rw [htext, List.cons_append, heq]
          rfl
        · rw [List.mem_cons, not_or]
          exact ⟨fun h => hc h.symm, hfirst⟩

/-- The newline lies in a token. -/
theorem spansLines_flatMap {tokens : List Token} :
    SpansLines (tokens.flatMap (·.toString)) ↔
      ∃ before token after, tokens = before ++ token :: after ∧ BreaksLine token after := by
  rw [spansLines_iff]
  constructor
  · rintro ⟨u, w, htext, hw⟩
    induction tokens generalizing u with
    | nil => simp at htext
    | cons token tokens ih =>
      rw [List.flatMap_cons, List.append_eq_append_iff] at htext
      rcases htext with ⟨u', rfl, htext⟩ | ⟨v, hu, hv⟩
      · obtain ⟨before, token', after, rfl, hbreaks⟩ := ih u' htext
        exact ⟨token :: before, token', after, rfl, hbreaks⟩
      · cases v with
        | nil =>
          obtain ⟨before, token', after, rfl, hbreaks⟩ := ih [] hv.symm
          exact ⟨token :: before, token', after, rfl, hbreaks⟩
        | cons c v =>
          cases hv
          exact ⟨[], token, tokens, rfl, u, v, hu, hw⟩
  · rintro ⟨before, token, after, rfl, u, v, htoken, hv⟩
    refine ⟨before.flatMap (·.toString) ++ u, v ++ after.flatMap (·.toString), ?_, hv⟩
    rw [List.flatMap_append, List.flatMap_cons, htoken]
    simp

/-! ## The flag -/

section Flag

variable {b : LogParserOutputBuffer}

/-- The loop keeps the first slot behind slot 0 whose token starts with a
newline. -/
theorem foldl_firstNewlinePos (n : Nat) :
    let first := (List.range n).foldl
      (fun first i => if (b.getToken i).getFirstChar = 10 ∧ first = 0 then i else first) 0
    (first = 0 ∧ ∀ i, 0 < i → i < n → (b.getToken i).getFirstChar ≠ 10) ∨
      (0 < first ∧ first < n ∧ (b.getToken first).getFirstChar = 10 ∧
        ∀ i, 0 < i → i < first → (b.getToken i).getFirstChar ≠ 10) := by
  induction n with
  | zero => exact Or.inl ⟨rfl, fun i _ hi => by omega⟩
  | succ n ih =>
    dsimp only at ih ⊢
    rw [List.range_succ, List.foldl_append, List.foldl_cons, List.foldl_nil]
    rcases ih with ⟨hzero, hnone⟩ | ⟨hpos, hlt, hchar, hfirst⟩
    · rw [hzero]
      by_cases hn : (b.getToken n).getFirstChar = 10
      · rw [if_pos ⟨hn, rfl⟩]
        rcases Nat.eq_zero_or_pos n with rfl | hpos
        · exact Or.inl ⟨rfl, fun i hi hlt => by omega⟩
        · exact Or.inr ⟨hpos, Nat.lt_succ_self n, hn, hnone⟩
      · rw [if_neg fun h => hn h.1]
        refine Or.inl ⟨rfl, fun i hi hlt => ?_⟩
        rcases Nat.lt_succ_iff_lt_or_eq.1 hlt with hlt | rfl
        · exact hnone i hi hlt
        · exact hn
    · rw [if_neg fun h => by omega]
      exact Or.inr ⟨hpos, by omega, hchar, hfirst⟩

theorem firstNewlinePos_iff (hheader : b.hasHeader = true) :
    (0 < firstNewlinePos b ∧ firstNewlinePos b + 1 < b.pos) ↔
      ∃ i, 0 < i ∧ i + 1 < b.pos ∧ (b.getToken i).getFirstChar = 10 := by
  have hstart : b.start = 0 := if_pos hheader
  have hrange : List.range' b.start (b.pos - b.start) = List.range b.pos := by
    rw [hstart, List.range_eq_range', Nat.sub_zero]
  unfold firstNewlinePos
  rw [hrange]
  rcases @foldl_firstNewlinePos b b.pos with ⟨hzero, hnone⟩ | ⟨hpos, hlt, hchar, hfirst⟩
  · rw [hzero]
    refine ⟨fun h => by omega, fun ⟨i, hi, hlt, hchar⟩ => ?_⟩
    exact absurd hchar (hnone i hi (by omega))
  · refine ⟨fun h => ⟨_, h.1, h.2, hchar⟩, fun ⟨i, hi, hlt', hchar'⟩ => ⟨hpos, ?_⟩⟩
    by_contra hlast
    exact absurd hchar' (hfirst i hi (by omega))

theorem tokens_of_hasHeader (hheader : b.hasHeader = true) : b.tokens = b.filled := by
  rw [b.tokens_eq_drop, LogParserOutputBuffer.start, if_pos hheader, List.drop_zero]

theorem getElem?_filled {i : Nat} (hi : i < b.pos) : b.filled[i]? = some (b.getToken i) := by
  unfold LogParserOutputBuffer.filled
  rw [List.getElem?_map, List.getElem?_range hi]
  rfl

theorem hasLineToken_iff (hheader : b.hasHeader = true) :
    HasLineToken b.tokens ↔ ∃ i, 0 < i ∧ i + 1 < b.pos ∧ (b.getToken i).getFirstChar = 10 := by
  rw [tokens_of_hasHeader hheader]
  constructor
  · rintro ⟨before, token, after, htokens, hbefore, hafter, hchar⟩
    have hlength := b.length_filled
    rw [htokens, List.length_append, List.length_cons] at hlength
    have hbefore' := List.length_pos_of_ne_nil hbefore
    have hafter' := List.length_pos_of_ne_nil hafter
    have hat := @getElem?_filled b before.length (by omega)
    rw [htokens, List.getElem?_append_right le_rfl, Nat.sub_self, List.getElem?_cons_zero] at hat
    refine ⟨before.length, hbefore', by omega, ?_⟩
    rw [← Option.some.inj hat]
    exact hchar
  · rintro ⟨i, hi, hlt, hchar⟩
    have hlength : i < b.filled.length := by
      rw [b.length_filled]
      omega
    have hat := List.getElem?_eq_getElem hlength
    rw [getElem?_filled (by omega)] at hat
    refine ⟨b.filled.take i, b.getToken i, b.filled.drop (i + 1), ?_, ?_, ?_, hchar⟩
    · rw [Option.some.inj hat, List.getElem_cons_drop, List.take_append_drop]
    · rw [Ne, List.take_eq_nil_iff, ← List.length_eq_zero_iff, b.length_filled]
      omega
    · rw [Ne, List.drop_eq_nil_iff, b.length_filled]
      omega

end Flag

theorem isMultiline_of_generate {b : LogParserOutputBuffer} {view : LogEventView}
    (h : generateLogEventViewMetadata b = .ok view) :
    view.logOutputBuffer = b ∧ (view.isMultiline = true ↔
      b.hasHeader = true ∧ 0 < firstNewlinePos b ∧ firstNewlinePos b + 1 < b.pos) := by
  obtain ⟨view', hadded, h⟩ := exists_of_bind_eq_ok h
  obtain ⟨-, hbuffer, hmultiline, -⟩ := addTokens_spec hadded
  split at h
  · rename_i hlines
    cases h
    exact ⟨hbuffer, fun _ => hlines, fun _ => rfl⟩
  · rename_i hlines
    cases h
    refine ⟨hbuffer, fun hset => ?_, fun hset => absurd hset hlines⟩
    unfold isMultiline at hset
    rw [hmultiline] at hset
    cases hset

/-- The flag of an event with a header. -/
theorem isMultiline_iff_hasLineToken {b : LogParserOutputBuffer} {view : LogEventView}
    (h : generateLogEventViewMetadata b = .ok view) (hheader : b.hasHeader = true) :
    view.isMultiline = true ↔ HasLineToken view.logOutputBuffer.tokens := by
  obtain ⟨hbuffer, hmultiline⟩ := isMultiline_of_generate h
  rw [hmultiline, hbuffer, firstNewlinePos_iff hheader, hasLineToken_iff hheader]
  exact ⟨fun hlines => hlines.2, fun hline => ⟨hheader, hline⟩⟩

/-- What the tokens show is what the text shows, unless they hide a line or
show one that is not there. -/
theorem hasLineToken_iff_spansLines {tokens : List Token} :
    (HasLineToken tokens ↔ SpansLines (tokens.flatMap (·.toString))) ↔
      ¬ HidesLine tokens ∧ ¬ ShowsPhantomLine tokens := by
  rw [spansLines_flatMap]
  constructor
  · intro h
    refine ⟨fun hhides => hhides.unseen (h.2 ?_), fun hphantom => ?_⟩
    · obtain ⟨before, token, after, htokens, -, hbreaks⟩ := hhides.newline
      exact ⟨before, token, after, htokens, hbreaks⟩
    · obtain ⟨before, token, after, htokens, hbreaks⟩ := h.1 hphantom.seen
      exact hphantom.noText before token after htokens hbreaks
  · rintro ⟨hhides, hphantom⟩
    constructor
    · intro hseen
      by_contra hnone
      exact hphantom ⟨hseen, fun before token after htokens hbreaks =>
        hnone ⟨before, token, after, htokens, hbreaks⟩⟩
    · rintro ⟨before, token, after, htokens, hbreaks⟩
      by_contra hunseen
      refine hhides ⟨⟨before, token, after, htokens, ?_, hbreaks⟩, hunseen⟩
      -- A token between that starts with a newline would be seen.
      by_contra hbetween
      rw [not_or, not_or, not_not] at hbetween
      exact hunseen ⟨before, token, after, htokens, hbetween.1, hbetween.2.1, hbetween.2.2⟩

end LogEventView

/-! ## Parsed events -/

namespace LogParser

open LogEventView

theorem parseAndGenerateMetadata_view {t : LexerTables} {fuel : Nat} {p p' : LogParser}
    {action : ParsingAction} {view : LogEventView}
    (h : p.parseAndGenerateMetadata t fuel = .ok (p', .ok (action, view))) :
    generateLogEventViewMetadata p'.outputBuffer = .ok view := by
  obtain ⟨⟨p₁, result⟩, -, h⟩ := exists_of_bind_eq_ok h
  cases result with
  | error err => cases h
  | ok action' =>
    obtain ⟨view', hview, h⟩ := exists_of_bind_eq_ok h
    cases h
    exact hview

/-- A header and a variable of one letter each. -/
def linesSchema : SchemaAST := ⟨[⟨"header", .mkLiteral 98⟩, ⟨"v", .mkLiteral 97⟩], [[10, 32]]⟩

/-- The first event of a text. -/
def firstEvent (schema : SchemaAST) (text : List UInt8) :
    Except Fault (LexerTables × LogParser × LogParser × ParsingAction × LogEventView) := do
  let t ← schema.generate id 40
  let p ← (LogParser.new t).reset t
  let p := p.setInputBuffer (fun i => text[i]?.getD 0) text.length 0 true
  match ← p.parseAndGenerateMetadata t 20 with
  | (_, .error _) => .error .thrown
  | (p', .ok (action, view)) => return (t, p, p', action, view)

def checkEvent (schema : SchemaAST) (text : List UInt8) (P : LogEventView → Bool) : Bool :=
  match firstEvent schema text with
  | .ok (_, _, _, _, view) => P view
  | .error _ => false

theorem exists_of_checkEvent {schema : SchemaAST} {text : List UInt8}
    {P : LogEventView → Bool} (h : checkEvent schema text P = true) :
    ∃ (t : LexerTables) (p p' : LogParser) (action : ParsingAction) (view : LogEventView),
      schema.generate id 40 = .ok t ∧
      p.parseAndGenerateMetadata t 20 = .ok (p', .ok (action, view)) ∧ P view = true := by
  unfold checkEvent at h
  split at h
  · rename_i t p p' action view hevent
    obtain ⟨t', ht, hevent⟩ := exists_of_bind_eq_ok hevent
    obtain ⟨p₁, -, hevent⟩ := exists_of_bind_eq_ok hevent
    obtain ⟨⟨p₂, result⟩, hparse, hevent⟩ := exists_of_bind_eq_ok hevent
    cases result with
    | error err => cases hevent
    | ok result =>
      cases hevent
      exact ⟨t, _, _, _, _, ht, hparse, h⟩
  · cases h

end LogParser

end LogSurgeon
