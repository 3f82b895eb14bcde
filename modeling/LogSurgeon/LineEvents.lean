import LogSurgeon.IncompleteEvents
import LogSurgeon.LongestTokens

/-!
# Events of logs without headers

Without headers, an event should be a line.  A newline ends the event that the
tokens before it are in, but no event ends with its first token.  So a newline
where an event starts is a part of it (`eventsEndLines_iff`).

* `LineSchema` is what the tables of a schema without headers say about newlines.
* `Starts` and `Rests` are the two parts of an event: the token that it starts
  with, and the tokens behind it, which may end it.
-/

namespace LogSurgeon

/-! ## Lines -/

/-- The text has one newline, at its end. -/
def EndsLine (text : List UInt8) : Prop := text.count 10 = 1 ∧ text.getLast? = some 10

/-- Every text but the last ends its line, and the last one has no newline but at its
end. -/
def EndLines (texts : List (List UInt8)) : Prop :=
  (∀ text ∈ texts.dropLast, EndsLine text) ∧
    ∀ text, texts.getLast? = some text → 10 ∉ text.dropLast

theorem endLines_singleton (text : List UInt8) : EndLines [text] ↔ 10 ∉ text.dropLast := by
  simp [EndLines]

theorem endLines_cons {text : List UInt8} {texts : List (List UInt8)} (h : texts ≠ []) :
    EndLines (text :: texts) ↔ EndsLine text ∧ EndLines texts := by
  unfold EndLines
  rw [List.dropLast_cons_of_ne_nil h, List.getLast?_cons_of_ne_nil h, List.forall_mem_cons,
    and_assoc]

theorem endsLine_concat (text : List UInt8) (b : UInt8) :
    EndsLine (text ++ [b]) ↔ b = 10 ∧ 10 ∉ text := by
  unfold EndsLine
  rw [List.getLast?_append, List.count_append, List.count_singleton]
  simp only [List.getLast?_singleton, Option.some_or, Option.some.injEq, beq_iff_eq]
  constructor
  · rintro ⟨hcount, rfl⟩
    rw [if_pos rfl] at hcount
    exact ⟨rfl, List.count_eq_zero.1 (by omega)⟩
  · rintro ⟨rfl, hmem⟩
    simp [List.count_eq_zero.2 hmem]

/-- The text has no newline between the positions. -/
def NoNewline (bytes : Nat → UInt8) (i j : Nat) : Prop := ∀ p, i ≤ p → p < j → bytes p ≠ 10

theorem noNewline_of_le {bytes : Nat → UInt8} {i j : Nat} (h : j ≤ i) : NoNewline bytes i j :=
  fun _ hi hj => absurd hj (by omega)

theorem NoNewline.append {bytes : Nat → UInt8} {i j k : Nat} (h : NoNewline bytes i j)
    (h' : NoNewline bytes j k) : NoNewline bytes i k := by
  intro p hi hk
  rcases Nat.lt_or_ge p j with hlt | hge
  · exact h p hi hlt
  · exact h' p hge hk

theorem NoNewline.cons {bytes : Nat → UInt8} {i j : Nat} (hi : bytes i ≠ 10)
    (h : NoNewline bytes (i + 1) j) : NoNewline bytes i j := by
  intro p hle hlt
  rcases Nat.lt_or_eq_of_le hle with hlt' | rfl
  · exact h p hlt' hlt
  · exact hi

namespace Source

variable {src : Source} {i j : Nat}

theorem not_mem_word : 10 ∉ src.word i j ↔ NoNewline src.bytes i j := by
  rw [mem_word]
  simp [NoNewline]

theorem endsLine_word (h : i < j) :
    EndsLine (src.word i j) ↔ src.bytes (j - 1) = 10 ∧ NoNewline src.bytes i (j - 1) := by
  rw [word_pred src h, endsLine_concat, not_mem_word]

theorem not_mem_dropLast_word (src : Source) (i j : Nat) :
    10 ∉ (src.word i j).dropLast ↔ NoNewline src.bytes i (j - 1) := by
  rcases Nat.lt_or_ge i j with h | h
  · rw [word_pred src h, List.dropLast_concat, not_mem_word]
  · have hnil : src.word i j = [] := List.eq_nil_of_length_eq_zero (by simp; omega)
    rw [hnil]
    exact iff_of_true List.not_mem_nil (noNewline_of_le (by omega))

end Source

/-! ## Tokens -/

/-- What the tables of a schema without headers say about newlines, which are
delimiters: no match goes on behind one, and none is a header. -/
structure LexerTables.ReadsLines (t : LexerTables) : Prop extends t.WellFormed where
  delimiter : t.isDelimiter 10
  inner : ∀ w p, t.dfa.run t.dfa.getRoot w = some p → t.dfa.typeIds p ≠ [] → 10 ∉ w.tail
  noHeader : ∀ p, SymbolId.tokenHeader.toNat ∉ t.dfa.typeIds p
  noEnd : ∀ p, SymbolId.tokenEnd.toNat ∉ t.dfa.typeIds p

/-- A newline at the position starts an event: it is the first token, since no
variable matches the empty text before it, or another newline comes before it. -/
def OpensLine (t : LexerTables) (state : Nat) (bytes : Nat → UInt8) (p : Nat) : Prop :=
  if p = 0 then t.dfa.typeIds state = [] else bytes (p - 1) = 10

namespace Span

/-- The span is that of a newline. -/
def IsNewline (bytes : Nat → UInt8) (span : Span) : Prop :=
  span.endPos = span.startPos + 1 ∧ bytes span.startPos = 10

def IsBehindNewline (bytes : Nat → UInt8) (span : Span) : Prop :=
  0 < span.startPos ∧ bytes (span.startPos - 1) = 10

/-- The first type is that of a newline. -/
def HasNewlineType (span : Span) : Prop := span.typeIds.head? = some SymbolId.tokenNewline.toNat

/-- A span of the type of a newline is one, or starts a line. -/
def FitsLine (bytes : Nat → UInt8) (span : Span) : Prop :=
  span.HasNewlineType → span.IsNewline bytes ∨ span.IsBehindNewline bytes

end Span

namespace Token

open Cursor

variable {t : LexerTables} {src : Source} {opening : Option Opening} {i j id : Nat} {token : Token}

theorem head?_of_firstTypeId (h : token.firstTypeId = .ok id) :
    token.span.typeIds.head? = some id := by
  obtain ⟨typeIds, htypes, hfirst⟩ := exists_of_bind_eq_ok h
  unfold span
  rw [eq_some_of_derefOr htypes]
  exact eq_some_of_derefOr hfirst

theorem not_hasNewlineType (h : token.firstTypeId = .ok id)
    (hne : id ≠ SymbolId.tokenNewline.toNat) : ¬ token.span.HasNewlineType := by
  intro htype
  exact hne (Option.some.inj ((head?_of_firstTypeId h).symm.trans htype))

/-- The match of a run from the root has a newline at its start only. -/
theorem noNewline_of_run (ht : t.ReadsLines) {p : Nat}
    (hrun : t.dfa.run t.dfa.getRoot (src.word i j) = some p) (hne : t.dfa.typeIds p ≠ []) :
    NoNewline src.bytes (i + 1) j := by
  have htail := ht.inner _ p hrun hne
  rwa [Source.tail_word, Source.not_mem_word] at htail

/-- A token has a newline at its start only. -/
theorem IsLexeme.noNewline (ht : t.ReadsLines) (h : token.IsLexeme t src none i j) :
    NoNewline src.bytes (i + 1) j := by
  obtain ⟨span, -, hlexeme, rfl⟩ := h
  cases hlexeme with
  | text hlt hle hends hplain =>
    intro p hle' hlt'
    exact hplain.newline ht.delimiter p (Nat.zero_le p) (Nat.le_of_succ_le hle') hlt'
  | «variable» hmatch =>
    obtain ⟨base, origin, p, hruns, -, hrun, hids⟩ := hmatch.run
    cases hruns with
    | root => exact noNewline_of_run ht hrun (hids ▸ hmatch.ne_nil)
    | opening ho => cases ho
  | input => exact noNewline_of_le (Nat.le_succ i)

/-- A newline that is a token has the type of one. -/
theorem IsLexeme.firstTypeId_of_newline (ht : t.ReadsLines)
    (h : token.IsLexeme t src none i (i + 1)) (hbyte : src.bytes i = 10) :
    token.firstTypeId = .ok SymbolId.tokenNewline.toNat := by
  obtain ⟨span, hcovers, hlexeme, hend⟩ := h
  cases hlexeme with
  | text hlt hle hends hplain =>
    exact absurd hbyte (hplain.newline ht.delimiter i (Nat.zero_le i) (Nat.le_refl i) hlt)
  | @«variable» j line typeIds hmatch =>
    obtain rfl : j = i + 1 := hend
    obtain ⟨base, origin, p, hruns, -, hrun, hids⟩ := hmatch.run
    obtain ⟨transition, ids, htransition, hnewline⟩ := ht.newline
    cases hruns with
    | root =>
      have hread : t.dfa.transition? t.dfa.getRoot (10 : UInt8).toNat = some transition :=
        htransition
      rw [Source.word_succ src (Nat.le_refl i), Source.word_self, List.nil_append, hbyte,
        Dfa.run_cons, hread] at hrun
      obtain rfl : transition.destState = p := Option.some.inj hrun
      exact LogParser.firstTypeId_of_covers hcovers (hids.symm.trans hnewline)
    | opening ho => cases ho
  | input hsize =>
    have hend : i = i + 1 := hend
    omega

/-- The first token of the text.  If the text starts with a newline, the token has
it unless a variable matches the empty text before it. -/
theorem IsLexeme.first (ht : t.ReadsLines) {o : Opening} (hoffset : o.offset = 0)
    (hstate : Lexer.startOfFileState t = some o.state) (h : token.IsLexeme t src (some o) 0 j) :
    NoNewline src.bytes 1 j ∧
      (0 < src.size → src.bytes 0 = 10 → (t.dfa.typeIds o.state = [] ↔ 0 < j)) := by
  have hopens : 0 < src.size → src.bytes 0 = 10 →
      (OpensWithMatch t src (some o) ↔ t.dfa.typeIds o.state ≠ []) := by
    intro hpos hbyte
    constructor
    · rintro ⟨o', ho, hne, -⟩
      cases ho
      exact hne
    · intro hne
      refine ⟨o, rfl, hne, Or.inr ?_⟩
      rw [hoffset, hbyte]
      exact ht.delimiter
  obtain ⟨span, -, hlexeme, rfl⟩ := h
  cases hlexeme with
  | text hlt hle hends hplain =>
    have hno := hplain.newline ht.delimiter
    have hread : readsFrom (some o) = 0 := hoffset
    rw [hread] at hno
    exact ⟨fun p _ => hno p (Nat.zero_le p) (Nat.zero_le p),
      fun _ hbyte => absurd hbyte (hno 0 (Nat.le_refl 0) (Nat.le_refl 0) hlt)⟩
  | @«variable» j line typeIds hmatch =>
    show NoNewline src.bytes 1 j ∧ (_ → _ → (_ ↔ 0 < j))
    obtain ⟨base, origin, p, hruns, -, hrun, hids⟩ := hmatch.run
    have hne : t.dfa.typeIds p ≠ [] := hids ▸ hmatch.ne_nil
    cases hruns with
    | root hno =>
      refine ⟨noNewline_of_run ht hrun hne, fun hpos hbyte => ?_⟩
      rw [hopens hpos hbyte, not_not] at hno
      refine iff_of_true hno (Nat.pos_of_ne_zero fun hzero => ?_)
      rw [hzero, Source.word_self] at hrun
      cases hrun
      exact hne ht.root
    | opening ho =>
      cases ho
      rw [hoffset] at hrun
      rw [← Scanner.run_startOfFile hstate] at hrun
      have hword := ht.inner _ p hrun hne
      rw [List.tail_cons, Source.not_mem_word] at hword
      refine ⟨fun q _ => hword q (Nat.zero_le q), fun hpos hbyte => ?_⟩
      rcases Nat.eq_zero_or_pos j with rfl | hlt
      · rw [Scanner.run_startOfFile hstate, Source.word_self] at hrun
        cases hrun
        exact iff_of_false hne (Nat.lt_irrefl 0)
      · exact absurd hbyte (hword 0 (Nat.le_refl 0) hlt)
  | input hsize =>
    refine ⟨noNewline_of_le (Nat.zero_le 1), fun hpos => ?_⟩
    omega

end Token

/-! ## The parts of an event -/

/-- The token that an event starts with: a newline in it, if there is one, is where
the event starts. -/
structure Starts (t : LexerTables) (state : Nat) (src : Source) (e m : Nat) : Prop where
  le : e ≤ m
  le_size : m ≤ src.size
  lt : 0 < e → e < src.size → e < m
  inner : NoNewline src.bytes (e + 1) m
  opens : e < src.size → src.bytes e = 10 → (OpensLine t state src.bytes e ↔ e < m)

/-- The token that is kept has text up to `q`, without a newline. -/
def KeepsLine (src : Source) (startOfLog : Option Token) (q : Nat) : Prop :=
  ∀ token, startOfLog = some token →
    token.startPos < q ∧ NoNewline src.bytes token.startPos q

theorem keepsLine_none (src : Source) (q : Nat) : KeepsLine src none q := by
  intro token htoken
  cases htoken

/-- The tokens behind the one that an event starts with. -/
inductive Rests (src : Source) (m : Nat) (tokens : List Token) (parsed : Parsed) (q' : Nat) :
    Prop where
  /-- The first newline ends the event. -/
  | line (hresult : parsed.result = .ok .compress) (hlt : m < eventStart parsed.startOfLog q')
      (hnewline : src.bytes (eventStart parsed.startOfLog q' - 1) = 10)
      (hbefore : NoNewline src.bytes m (eventStart parsed.startOfLog q' - 1))
      (hkept : KeepsLine src parsed.startOfLog q')
      (htokens : ∀ token ∈ tokens, token.span.HasNewlineType → token.span.IsNewline src.bytes)
  /-- A variable of the type of a newline ends the event. -/
  | variable {token : Token} (hresult : parsed.result = .ok .compress)
      (hkept : parsed.startOfLog = none) (htoken : token ∈ tokens)
      (htype : token.span.HasNewlineType) (hno : ¬ token.span.IsNewline src.bytes)
      (hle : m ≤ token.startPos) (hlt : token.startPos < q')
      (hbefore : NoNewline src.bytes m token.startPos) (hlast : src.bytes (q' - 1) ≠ 10)
  /-- The input ends. -/
  | finish (hresult : parsed.result = .ok .compressAndFinish) (hkept : parsed.startOfLog = none)
      (hend : q' = src.size) (hbefore : NoNewline src.bytes m q')
      (htokens : ∀ token ∈ tokens, token.span.HasNewlineType → token.span.IsNewline src.bytes)

section Parts

variable {t : LexerTables} {src : Source} {opening opening' : Option Opening} {state q q' m m' : Nat}
  {token : Token} {tokens : List Token} {event : Event} {parsed : Parsed}

/-- Text without a newline in front of the tokens. -/
theorem Rests.cons (h : Rests src m' tokens parsed q') (hle : m ≤ m')
    (hbefore : NoNewline src.bytes m m') (htype : ¬ token.span.HasNewlineType) :
    Rests src m (token :: tokens) parsed q' := by
  cases h with
  | line hresult hlt hnewline hrest hkept htokens =>
    refine .line hresult (by omega) hnewline (hbefore.append hrest) hkept ?_
    exact List.forall_mem_cons.2 ⟨fun hyes => absurd hyes htype, htokens⟩
  | «variable» hresult hkept htoken htype' hno hle' hlt hrest hlast =>
    exact .variable hresult hkept (List.mem_cons_of_mem _ htoken) htype' hno (hle.trans hle') hlt
      (hbefore.append hrest) hlast
  | finish hresult hkept hend hrest htokens =>
    refine .finish hresult hkept hend (hbefore.append hrest) ?_
    exact List.forall_mem_cons.2 ⟨fun hyes => absurd hyes htype, htokens⟩

/-- A newline token ends the event, whether it is one or not. -/
theorem rests_newline (ht : t.ReadsLines) (hlexeme : token.IsLexeme t src none m q')
    (htype : token.firstTypeId = .ok SymbolId.tokenNewline.toNat) {event : Event} :
    Rests src m [token] ⟨event, none, .ok .compress⟩ q' := by
  have hlt := hlexeme.lt_of_type ht.toWellFormed htype (by decide)
  have hinner := hlexeme.noNewline ht
  have hstart := hlexeme.startPos
  have hend := hlexeme.endPos
  by_cases hyes : token.span.IsNewline src.bytes
  · have hq' : q' = m + 1 := by
      have hone : token.endPos = token.startPos + 1 := hyes.1
      omega
    have hbyte : src.bytes token.startPos = 10 := hyes.2
    rw [hstart] at hbyte
    subst hq'
    refine .line rfl hlt hbyte (noNewline_of_le (Nat.le_refl m)) (keepsLine_none src _) ?_
    rintro _ hmem -
    rw [List.mem_singleton.1 hmem]
    exact hyes
  · refine .variable rfl rfl List.mem_cons_self (Token.head?_of_firstTypeId htype) hyes hstart.ge
      (hstart ▸ hlt) (noNewline_of_le hstart.le) ?_
    rcases Nat.lt_or_eq_of_le hlt with hlt' | heq
    · exact hinner _ (by omega) (by omega)
    · intro hbyte
      refine hyes ⟨?_, ?_⟩
      · show token.endPos = token.startPos + 1
        omega
      · show src.bytes token.startPos = 10
        rw [hstart, ← hbyte]
        congr 1
        omega

/-- The newline in front of a token ends the event. -/
theorem rests_split (ht : t.ReadsLines) (hlexeme : token.IsLexeme t src none m q') (hlt : m < q')
    {typeId : Nat} (htype : token.firstTypeId = .ok typeId)
    (hno : typeId ≠ SymbolId.tokenNewline.toNat) (hbyte : token.getFirstChar = 10) {event : Event} :
    Rests src m [token] ⟨event, some token.incrementStartPos, .ok .compress⟩ q' := by
  rw [hlexeme.getFirstChar] at hbyte
  have hstart : eventStart (some token.incrementStartPos) q' = m + 1 :=
    hlexeme.startPos_incrementStartPos hlt
  have hlong : m + 1 < q' := by
    refine Nat.lt_of_le_of_ne hlt ?_
    rintro rfl
    have hnewline := hlexeme.firstTypeId_of_newline ht hbyte
    rw [htype] at hnewline
    exact hno (Except.ok.inj hnewline)
  refine .line rfl ?_ ?_ ?_ ?_ ?_
  · rw [hstart]
    exact Nat.lt_succ_self m
  · rw [hstart]
    exact hbyte
  · rw [hstart]
    exact noNewline_of_le (Nat.le_refl m)
  · intro kept hkept
    cases hkept
    rw [hlexeme.startPos_incrementStartPos hlt]
    exact ⟨hlong, hlexeme.noNewline ht⟩
  · rintro _ hmem hyes
    rw [List.mem_singleton.1 hmem] at hyes
    exact absurd hyes (Token.not_hasNewlineType htype hno)

/-- What the tokens add to an event without a header. -/
theorem Extends.rests (ht : t.ReadsLines) (h : Extends event tokens parsed)
    (hheader : event.hasHeader = false) (hchain : Chain t src none m tokens opening' q')
    (hresult : ∀ err, parsed.result ≠ .error err) : Rests src m tokens parsed q' := by
  induction h generalizing m with
  | outOfData => exact absurd rfl (hresult _)
  | finish htype =>
    cases hchain with
    | cons hlexeme hrest =>
      cases hrest
      have hm := hlexeme.eq_size_of_tokenEnd ht.noEnd htype
      have hq' := Nat.le_antisymm hlexeme.le_size (hm ▸ hlexeme.le)
      refine .finish rfl rfl hq' (noNewline_of_le (by omega)) ?_
      rintro _ hmem hyes
      rw [List.mem_singleton.1 hmem] at hyes
      exact absurd hyes (Token.not_hasNewlineType htype (by decide))
  | newline _ htype =>
    cases hchain with
    | cons hlexeme hrest =>
      cases hrest
      exact rests_newline ht hlexeme htype
  | split htype hend hfound =>
    cases hchain with
    | cons hlexeme hrest =>
      cases hrest
      obtain ⟨hbyte, hno⟩ := hfound
      rw [hheader, if_neg Bool.false_ne_true] at hno
      exact rests_split ht hlexeme (hlexeme.lt_of_type ht.toWellFormed htype hend) htype hno hbyte
  | next htype hend hnewline hfound _ ih =>
    cases hchain with
    | cons hlexeme hrest =>
      have hno := hnewline hheader
      refine (ih hheader hrest hresult).cons hlexeme.le (.cons ?_ (hlexeme.noNewline ht))
        (Token.not_hasNewlineType htype hno)
      intro hbyte
      refine hfound ⟨hlexeme.getFirstChar.trans hbyte, ?_⟩
      rw [hheader, if_neg Bool.false_ne_true]
      exact hno

/-- No token is a header. -/
theorem Token.IsLexeme.firstTypeId_ne_header (ht : t.ReadsLines) {j : Nat}
    (h : token.IsLexeme t src opening q j) :
    token.firstTypeId ≠ .ok SymbolId.tokenHeader.toNat := by
  obtain ⟨span, hcovers, hlexeme, -⟩ := h
  intro htype
  have hhead := Token.head?_of_firstTypeId htype
  rw [hcovers.span_eq] at hhead
  cases hlexeme with
  | text =>
    have hhead : cTokenUncaughtStringTypes.head? = some SymbolId.tokenHeader.toNat := hhead
    exact absurd hhead (by decide)
  | «variable» hmatch =>
    obtain ⟨base, origin, p, -, -, -, hids⟩ := hmatch.run
    refine ht.noHeader p ?_
    rw [hids]
    exact List.mem_of_head? hhead
  | input =>
    have hhead : cTokenEndTypes.head? = some SymbolId.tokenHeader.toNat := hhead
    exact absurd hhead (by decide)

theorem Begins.rests (ht : t.ReadsLines) (h : Begins t token tokens parsed)
    (hheader : token.firstTypeId ≠ .ok SymbolId.tokenHeader.toNat)
    (hend : token.firstTypeId = .ok SymbolId.tokenEnd.toNat → m = src.size)
    (hchain : Chain t src none m tokens opening' q')
    (hresult : ∀ err, parsed.result ≠ .error err) : Rests src m tokens parsed q' := by
  cases h with
  | finish htype =>
    cases hchain
    exact .finish rfl rfl (hend htype) (noNewline_of_le (Nat.le_refl _))
      fun _ hmem => absurd hmem List.not_mem_nil
  | header htype => exact absurd htype hheader
  | other _ _ _ hrest => exact hrest.rests ht rfl hchain hresult

/-- Where an event starts: with the first token of the text, or behind a newline. -/
inductive LineStart (t : LexerTables) (state : Nat) (bytes : Nat → UInt8) :
    Option Opening → Nat → Option Token → Prop where
  | first {o : Opening} (hoffset : o.offset = 0) (hstate : o.state = state)
      (hreads : Lexer.startOfFileState t = some o.state) : LineStart t state bytes (some o) 0 none
  | behind {q : Nat} {startOfLog : Option Token} (hpos : 0 < eventStart startOfLog q)
      (hnewline : bytes (eventStart startOfLog q - 1) = 10) :
      LineStart t state bytes none q startOfLog

theorem LineStart.opening_eq_none {startOfLog : Option Token} {bytes : Nat → UInt8}
    (h : LineStart t state bytes opening q startOfLog) (hne : startOfLog ≠ none) :
    opening = none := by
  cases h with
  | first => exact absurd rfl hne
  | behind => rfl

/-- The first token that is read starts an event. -/
theorem Token.IsLexeme.starts (ht : t.ReadsLines) {j : Nat}
    (h : token.IsLexeme t src opening q j) (hstart : LineStart t state src.bytes opening q none) :
    Starts t state src q j := by
  cases hstart with
  | first hoffset hstate hreads =>
    obtain ⟨hinner, hopens⟩ := h.first ht hoffset hreads
    rw [hstate] at hopens
    refine ⟨h.le, h.le_size, fun hlt => absurd hlt (Nat.lt_irrefl 0), hinner, fun hpos hbyte => ?_⟩
    unfold OpensLine
    rw [if_pos rfl]
    exact hopens hpos hbyte
  | behind hpos hnewline =>
    have hpos : 0 < q := hpos
    have hlt : q < src.size → q < j := by
      intro hsize
      obtain ⟨span, -, hlexeme, rfl⟩ := h
      rcases hlexeme.lt_or ht.toWellFormed with hlt | ⟨heq, -⟩
      · exact hlt
      · omega
    refine ⟨h.le, h.le_size, fun _ => hlt, h.noNewline ht, fun hsize _ => ?_⟩
    unfold OpensLine
    rw [if_neg hpos.ne']
    exact iff_of_true hnewline (hlt hsize)

/-- The two parts of an event.  The token that it starts with is kept or read. -/
theorem Parses.parts (ht : t.ReadsLines) {startOfLog : Option Token}
    (h : Parses t startOfLog tokens parsed) (hchain : Chain t src opening q tokens opening' q')
    (hresult : ∀ err, parsed.result ≠ .error err)
    (hstart : LineStart t state src.bytes opening q startOfLog)
    (hkept : ∀ token, startOfLog = some token → token.IsKept t src q)
    (hkeeps : KeepsLine src startOfLog q) (hsize : q ≤ src.size) :
    ∃ m rest, Starts t state src (eventStart startOfLog q) m ∧ Rests src m rest parsed q' ∧
      (tokens = rest ∧ startOfLog ≠ none ∨ ∃ first, tokens = first :: rest ∧
        startOfLog = none ∧ first.startPos = q) := by
  cases h with
  | outOfData => exact absurd rfl (hresult _)
  | @kept token _ _ hbegins =>
    obtain ⟨hlt, hno⟩ := hkeeps token rfl
    obtain ⟨_, i, whole, tokenType, hwhole, htype, hend, -, rfl⟩ := hkept token rfl
    have hopening : opening = none := by
      cases hstart
      rfl
    rw [hopening] at hchain
    refine ⟨q, tokens, ⟨hlt.le, hsize, fun _ _ => hlt, fun p hle => hno p (Nat.le_of_succ_le hle),
      fun _ hbyte => absurd hbyte (hno _ (Nat.le_refl _) hlt)⟩, ?_,
      Or.inl ⟨rfl, Option.some_ne_none _⟩⟩
    have hheader : whole.incrementStartPos.firstTypeId ≠ .ok SymbolId.tokenHeader.toNat :=
      fun htype => hwhole.firstTypeId_ne_header ht htype
    refine hbegins.rests ht hheader (fun hfinish => ?_) hchain hresult
    have hfinish : whole.firstTypeId = .ok SymbolId.tokenEnd.toNat := hfinish
    rw [htype] at hfinish
    exact absurd (Except.ok.inj hfinish) hend
  | newline h =>
    cases hchain with
    | cons hlexeme => exact absurd h.1 (hlexeme.firstTypeId_ne_header ht)
  | @read token rest _ _ hbegins =>
    cases hchain with
    | @cons _ _ _ m _ _ _ hlexeme hrest =>
      refine ⟨m, rest, hlexeme.starts ht hstart, ?_, Or.inr ⟨token, rfl, rfl, hlexeme.startPos⟩⟩
      refine hbegins.rests ht (hlexeme.firstTypeId_ne_header ht) (fun hfinish => ?_) hrest hresult
      have hq := hlexeme.eq_size_of_tokenEnd ht.noEnd hfinish
      exact Nat.le_antisymm hlexeme.le_size (hq ▸ hlexeme.le)

end Parts

/-! ## One event -/

/-- Between the positions, no newline starts an event unless the text ends with it. -/
def NoEmptyLine (t : LexerTables) (state : Nat) (src : Source) (i j : Nat) : Prop :=
  ∀ p, i ≤ p → p < j → src.bytes p = 10 → OpensLine t state src.bytes p → p + 1 = src.size

section Event

variable {t : LexerTables} {src : Source} {state e e' m : Nat}

theorem NoEmptyLine.append_iff {i j k : Nat} (hij : i ≤ j) (hjk : j ≤ k) :
    NoEmptyLine t state src i k ↔ NoEmptyLine t state src i j ∧ NoEmptyLine t state src j k := by
  constructor
  · intro h
    exact ⟨fun p hi hj => h p hi (by omega), fun p hj => h p (by omega)⟩
  · rintro ⟨hleft, hright⟩ p hi hk
    rcases Nat.lt_or_ge p j with hlt | hge
    · exact hleft p hi hlt
    · exact hright p hge hk

/-- A newline before the end of an event that a newline ends is the one that the event
starts with. -/
theorem Starts.endsLine_iff (h : Starts t state src e m) (hlt : m < e') (hsize : e' ≤ src.size)
    (hnewline : src.bytes (e' - 1) = 10) (hbefore : NoNewline src.bytes m (e' - 1)) :
    EndsLine (src.word e e') ↔ NoEmptyLine t state src e e' := by
  have hle := h.le
  rw [Source.endsLine_word (by omega), and_iff_right hnewline]
  constructor
  · intro hno p hep hpe hbyte hopens
    have hp : p = e' - 1 := by
      by_contra hne
      exact hno p hep (by omega) hbyte
    by_cases hfirst : p = e
    · rw [hfirst] at hbyte hopens
      have hem := (h.opens (by omega) hbyte).1 hopens
      omega
    · unfold OpensLine at hopens
      rw [if_neg (by omega)] at hopens
      exact absurd hopens (hno (p - 1) (by omega) (by omega))
  · intro hall p hep hpe hbyte
    have hpm : p < m := by
      by_contra hge
      exact hbefore p (by omega) hpe hbyte
    have hp : p = e := by
      by_contra hne
      exact h.inner p (by omega) hpm hbyte
    rw [hp] at hbyte hpm
    have hend := hall e (Nat.le_refl e) (by omega) hbyte ((h.opens (by omega) hbyte).2 hpm)
    omega

/-- A newline in the last event is the one that it starts with, or its end. -/
theorem Starts.noNewline_iff (h : Starts t state src e m)
    (hbefore : NoNewline src.bytes m src.size) :
    NoNewline src.bytes e (src.size - 1) ↔ NoEmptyLine t state src e src.size := by
  constructor
  · intro hno p hep hpe hbyte _
    by_contra hne
    exact hno p hep (by omega) hbyte
  · intro hall p hep hpe hbyte
    have hpm : p < m := by
      by_contra hge
      exact hbefore p (by omega) (by omega) hbyte
    have hp : p = e := by
      by_contra hne
      exact h.inner p (by omega) hpm hbyte
    rw [hp] at hbyte hpm
    have hend := hall e (Nat.le_refl e) (by omega) hbyte ((h.opens (by omega) hbyte).2 hpm)
    omega

/-- A variable that ends an event does not start a line, unless a newline starts the
event. -/
theorem Starts.not_fitsLine (h : Starts t state src e m) {span : Span}
    (htype : span.HasNewlineType) (hno : ¬ span.IsNewline src.bytes) (hle : m ≤ span.startPos)
    (hlt : span.startPos < e') (hsize : e' ≤ src.size)
    (hbefore : NoNewline src.bytes m span.startPos) (hlines : NoEmptyLine t state src e e') :
    ¬ span.FitsLine src.bytes := by
  intro hfits
  obtain ⟨hpos, hbyte⟩ := (hfits htype).resolve_left hno
  have hem := h.le
  have hm : span.startPos = m := by
    by_contra hne
    exact hbefore (span.startPos - 1) (by omega) (by omega) hbyte
  rcases Nat.lt_or_eq_of_le hem with hlt' | heq
  · have hp : span.startPos - 1 = e := by
      by_contra hne
      exact h.inner (span.startPos - 1) (by omega) (by omega) hbyte
    rw [hp] at hbyte
    have hend := hlines e (Nat.le_refl e) (by omega) hbyte ((h.opens (by omega) hbyte).2 hlt')
    omega
  · have hlt' := h.lt (by omega) (by omega)
    omega

/-- The texts of an event and those behind it end lines if no newline starts an event
and the tokens of the type of a newline are newlines. -/
theorem Starts.endLines_iff {rest : List Token} {parsed : Parsed} {q' : Nat}
    {texts : List (List UInt8)} {before behind : Prop} (h : Starts t state src e m)
    (hrests : Rests src m rest parsed q') (hle : eventStart parsed.startOfLog q' ≤ src.size)
    (hbefore : before ↔ (∀ token ∈ rest, token.span.FitsLine src.bytes) ∧ behind)
    (hmore : parsed.result = .ok .compress → texts ≠ [] ∧
      (src.bytes (eventStart parsed.startOfLog q' - 1) = 10 →
        (EndLines texts ↔
          NoEmptyLine t state src (eventStart parsed.startOfLog q') src.size ∧ behind)))
    (hlast : parsed.result = .ok .compressAndFinish → texts = [] ∧ behind) :
    EndLines (src.word e (eventStart parsed.startOfLog q') :: texts) ↔
      NoEmptyLine t state src e src.size ∧ before := by
  have hem := h.le
  cases hrests with
  | line hresult hlt hnewline hbefore' hkept htokens =>
    obtain ⟨hne, htexts⟩ := hmore hresult
    have hall : ∀ token ∈ rest, token.span.FitsLine src.bytes :=
      fun token hmem htype => Or.inl (htokens token hmem htype)
    rw [endLines_cons hne, htexts hnewline, h.endsLine_iff hlt hle hnewline hbefore', ← and_assoc,
      ← NoEmptyLine.append_iff (by omega) hle, hbefore, and_iff_right hall]
  | @«variable» token hresult hkept htoken htype hno hle' hlt hbefore' hlast' =>
    rw [hkept] at hle ⊢
    have hend : eventStart none q' = q' := rfl
    rw [hend] at hle ⊢
    rw [endLines_cons (hmore hresult).1, Source.endsLine_word (by omega)]
    refine iff_of_false (fun hyes => hlast' hyes.1.1) ?_
    rintro ⟨hlines, hyes⟩
    have hlines := ((NoEmptyLine.append_iff (j := q') (by omega) hle).1 hlines).1
    exact h.not_fitsLine htype hno hle' hlt hle hbefore' hlines ((hbefore.1 hyes).1 token htoken)
  | finish hresult hkept hend hbefore' htokens =>
    obtain ⟨rfl, hbehind⟩ := hlast hresult
    have hall : ∀ token ∈ rest, token.span.FitsLine src.bytes :=
      fun token hmem htype => Or.inl (htokens token hmem htype)
    rw [hkept, endLines_singleton, Source.not_mem_dropLast_word]
    show NoNewline src.bytes e (q' - 1) ↔ _
    rw [hend] at hbefore' ⊢
    rw [h.noNewline_iff hbefore', hbefore, and_iff_left ⟨hall, hbehind⟩]

end Event

/-! ## The tokens of the lexer -/

namespace Cursor

variable {t : LexerTables} {src : Source} {opening opening' : Option Opening} {q q' : Nat}
  {c c' : Cursor} {tokens : List Token}

/-- The calls of `scan` return tokens that start lines if they have the type of a
newline, where the first token of the text does not count. -/
def ReturnsFitting (t : LexerTables) (src : Source) (opening : Option Opening) (c : Cursor) : Prop :=
  ∀ spans, ReturnsSpans t src c spans →
    ∀ span ∈ (if opening.isSome then spans.tail else spans), span.FitsLine src.bytes

theorem returnsFitting_cons {span : Span} (hscans : Scans t src c c' (.ok span)) :
    ReturnsFitting t src none c ↔ span.FitsLine src.bytes ∧ ReturnsFitting t src none c' := by
  constructor
  · intro h
    exact ⟨h [span] (.cons hscans (.nil c')) span List.mem_cons_self, fun spans hspans other hmem =>
      h (span :: spans) (.cons hscans hspans) other (List.mem_cons_of_mem span hmem)⟩
  · rintro ⟨hspan, hrest⟩ spans hspans other hmem
    cases hspans with
    | nil => cases hmem
    | cons hscans' hspans =>
      obtain ⟨rfl, heq⟩ := hscans.unique hscans'
      cases heq
      rcases List.mem_cons.1 hmem with rfl | hmem
      · exact hspan
      · exact hrest _ hspans other hmem

theorem returnsFitting_first {o : Opening} {span : Span} (hscans : Scans t src c c' (.ok span)) :
    ReturnsFitting t src (some o) c ↔ ReturnsFitting t src none c' := by
  constructor
  · intro h spans hspans
    exact h (span :: spans) (.cons hscans hspans)
  · intro h spans hspans other hmem
    cases hspans with
    | nil => cases hmem
    | cons hscans' hspans =>
      obtain ⟨rfl, heq⟩ := hscans.unique hscans'
      exact h _ hspans other hmem

theorem Reads.returnsFitting_iff (h : Reads t src c tokens c') :
    ReturnsFitting t src none c ↔
      (∀ token ∈ tokens, token.span.FitsLine src.bytes) ∧ ReturnsFitting t src none c' := by
  induction h with
  | nil => simp
  | cons hscans hcovers _ ih =>
    rw [returnsFitting_cons hscans, ih, List.forall_mem_cons, hcovers.span_eq, and_assoc]

/-- The first token of an event starts a line, or is the first one of the text. -/
theorem returnsFitting_iff_of_lineStart {state : Nat} {span : Span}
    (h : LineStart t state src.bytes opening q none) (hscans : Scans t src c c' (.ok span))
    (hspan : span.startPos = q) :
    ReturnsFitting t src opening c ↔ ReturnsFitting t src none c' := by
  cases h with
  | first => exact returnsFitting_first hscans
  | behind hpos hnewline =>
    rw [returnsFitting_cons hscans]
    refine and_iff_right fun _ => Or.inr ?_
    unfold Span.IsBehindNewline
    rw [hspan]
    exact ⟨hpos, hnewline⟩

/-- The cursor behind the tokens of a chain. -/
theorem Reads.at (ht : t.WellFormed) (h : Reads t src c tokens c') (hat : c.At t src opening q)
    (hchain : Chain t src opening q tokens opening' q') : c'.At t src opening' q' := by
  induction h generalizing opening q with
  | nil =>
    cases hchain
    exact hat
  | cons hscans hcovers _ ih =>
    cases hchain with
    | cons hlexeme hrest =>
      obtain ⟨-, hnext⟩ := hat.scans ht hscans
      rw [← hcovers.endPos, hlexeme.endPos] at hnext
      exact ih hnext hrest

/-- Behind the text, only its end is returned. -/
theorem ReturnsSpans.typeIds_of_end (ht : t.WellFormed) {spans : List Span}
    (h : ReturnsSpans t src c spans) (hat : c.At t src none src.size) :
    ∀ span ∈ spans, span.typeIds = cTokenEndTypes := by
  induction h with
  | nil => exact fun _ hmem => absurd hmem List.not_mem_nil
  | cons hscans _ ih =>
    obtain ⟨hlexeme, hnext⟩ := hat.scans ht hscans
    rcases hlexeme.lt_or ht with hlt | ⟨-, hend, htypes⟩
    · exact absurd hlexeme.le_size (by omega)
    · rw [hend] at hnext
      exact List.forall_mem_cons.2 ⟨htypes, ih hnext⟩

theorem At.returnsFitting (ht : t.WellFormed) (hat : c.At t src none src.size) :
    ReturnsFitting t src none c := by
  intro spans hspans span hmem htype
  have hhead : span.typeIds.head? = some SymbolId.tokenNewline.toNat := htype
  rw [hspans.typeIds_of_end ht hat span hmem] at hhead
  exact absurd hhead (by decide)

end Cursor

/-! ## Runs -/

namespace BufferParser

open Cursor

variable {t : LexerTables} {buf : UserBuffer} {opening opening' : Option Opening}
  {state q q' offset fuel count : Nat} {p : BufferParser} {call : Call} {parsed : Parsed}

/-- The parser before an event. -/
structure AtEvent (t : LexerTables) (state : Nat) (buf : UserBuffer) (opening : Option Opening)
    (q offset : Nat) (p : BufferParser) : Prop where
  awaits : p.Awaits t buf true opening q offset
  start : LineStart t state buf.bytes opening q p.logParser.startOfLog
  keepsText : KeepsText (.ofBuffer buf true) p.logParser.startOfLog q
  keepsLine : KeepsLine (.ofBuffer buf true) p.logParser.startOfLog q

/-- The cursor of the lexer at the start of a call. -/
def cursor (p : BufferParser) (buf : UserBuffer) (offset : Nat) : Cursor :=
  ofScanner (p.logParser.feed buf offset true).scanner

/-- What a call does that returns an event. -/
structure Call.Line (t : LexerTables) (state : Nat) (buf : UserBuffer) (opening : Option Opening)
    (q offset : Nat) (p : BufferParser) (call : Call) (parsed : Parsed) (q' : Nat) : Prop where
  parts : ∃ m rest, Starts t state (.ofBuffer buf true) (eventStart p.logParser.startOfLog q) m ∧
    Rests (.ofBuffer buf true) m rest parsed q' ∧
    (ReturnsFitting t (.ofBuffer buf true) opening (p.cursor buf offset) ↔
      (∀ token ∈ rest, token.span.FitsLine buf.bytes) ∧
        ReturnsFitting t (.ofBuffer buf true) none (call.parser.cursor buf call.offset))
  text : call.event.toString = (Source.ofBuffer buf true).word
    (eventStart p.logParser.startOfLog q) (eventStart parsed.startOfLog q')
  le_size : eventStart parsed.startOfLog q' ≤ buf.size
  next : parsed.result = .ok .compress →
    buf.bytes (eventStart parsed.startOfLog q' - 1) = 10 →
    call.parser.AtEvent t state buf none q' call.offset ∧
      call.parser.logParser.startOfLog = parsed.startOfLog
  finish : parsed.result = .ok .compressAndFinish →
    ReturnsFitting t (.ofBuffer buf true) none (call.parser.cursor buf call.offset)

/-- A call on a text that is all there does not fail. -/
theorem Call.Makes.exists_action
    (hmakes : call.Makes t fuel buf true opening q offset p parsed opening' q') :
    ∃ action, parsed.result = .ok action := by
  cases hresult : parsed.result with
  | ok action => exact ⟨action, rfl⟩
  | error err => exact absurd rfl (hmakes.outOfData err hresult)

/-- A call returns an event whose text goes on where the last one ended. -/
theorem AtEvent.line (ht : t.ReadsLines) (h : p.AtEvent t state buf opening q offset)
    (hmakes : call.Makes t fuel buf true opening q offset p parsed opening' q') :
    call.Line t state buf opening q offset p parsed q' := by
  obtain ⟨tokens, hparses, hchain, -, hread⟩ := hmakes.parses
  have hresult : ∀ err, parsed.result ≠ .error err := fun err herr =>
    hmakes.outOfData err herr rfl
  obtain ⟨action, haction⟩ := hmakes.exists_action
  have hreads : Reads t (.ofBuffer buf true) (p.cursor buf offset) tokens
      (call.parser.cursor buf call.offset) := hread action haction
  have hat : (p.cursor buf offset).At t (.ofBuffer buf true) opening q := h.awaits.stands.position
  have hat' := hreads.at ht.toWellFormed hat hchain
  obtain ⟨m, rest, hstarts, hrests, htokens⟩ := hparses.parts ht hchain hresult h.start
    h.awaits.kept h.keepsLine hat.le_size
  have htext : MakesText (.ofBuffer buf true) parsed (keptText p.logParser.startOfLog) q q' := by
    refine hparses.makesText ht.toWellFormed ht.noEnd hchain h.start.opening_eq_none
      (fun token htoken htype => ?_) fun _ token htoken hempty => ?_
    · obtain ⟨id, hid, hne⟩ := LogParser.exists_type_of_isKept (h.awaits.kept token htoken)
      rw [htype] at hid
      exact hne (Except.ok.inj hid).symm
    · cases hchain with
      | nil => cases htoken
      | cons hlexeme =>
        cases htoken
        exact hlexeme.firstTypeId_ne_header ht hempty.1.1
  have hstart := h.keepsText.eventStart_le
  have hopening : opening' = none := by
    rcases htokens with ⟨-, hne⟩ | ⟨first, heq, -⟩
    · cases hchain with
      | nil => exact h.start.opening_eq_none hne
      | cons hlexeme hrest => exact (Chain.cons hlexeme hrest).opening_eq_none (List.cons_ne_nil _ _)
    · rw [heq] at hchain
      exact hchain.opening_eq_none (List.cons_ne_nil _ _)
  constructor
  case parts =>
    refine ⟨m, rest, hstarts, hrests, ?_⟩
    rcases htokens with ⟨heq, hne⟩ | ⟨first, heq, hnone, hfirst⟩
    · rw [heq] at hreads
      rw [h.start.opening_eq_none hne]
      exact hreads.returnsFitting_iff
    · have hline := h.start
      rw [hnone] at hline
      rw [heq] at hreads
      cases hreads with
      | cons hscans hcovers hrest =>
        rw [returnsFitting_iff_of_lineStart hline hscans (hcovers.startPos.symm.trans hfirst)]
        exact hrest.returnsFitting_iff
  case text =>
    have hevent : call.event.toString = parsed.event.toString := by
      rw [← hmakes.shows.event]
      rfl
    rw [hevent, htext.text, h.keepsText.keptText, Source.word_append _ hstart htext.le]
  case le_size => exact htext.keeps.eventStart_le.trans hat'.le_size
  case next =>
    intro hcompress hbyte
    obtain ⟨hawaits, hkept, -⟩ := hmakes.next hcompress
    rw [hopening] at hawaits
    have hlt := htext.lt hcompress
    rw [← hkept] at hbyte hlt
    refine ⟨⟨hawaits, .behind (by omega) hbyte, ?_, ?_⟩, hkept⟩
    · rw [hkept]
      exact htext.keeps
    · rw [hkept]
      cases hrests with
      | line _ _ _ _ hkeeps => exact hkeeps
      | «variable» _ hnone =>
        rw [hnone]
        exact keepsLine_none _ q'
      | finish hfinish =>
        rw [hcompress] at hfinish
        cases hfinish
  case finish =>
    intro hfinish
    rw [hopening] at hat'
    cases hrests with
    | line hcompress =>
      rw [hfinish] at hcompress
      cases hcompress
    | «variable» hcompress =>
      rw [hfinish] at hcompress
      cases hcompress
    | finish _ _ hend =>
      rw [hend] at hat'
      exact hat'.returnsFitting ht.toWellFormed

theorem parseEvents_ne_nil {finished : Bool} {calls : List Call} (hcount : 0 < count)
    (h : p.parseEvents t fuel buf finished count offset = .ok calls) : calls ≠ [] := by
  cases count with
  | zero => exact absurd hcount (Nat.lt_irrefl 0)
  | succ count =>
    obtain ⟨call, -, ⟨-, later, -, rfl⟩ | ⟨-, rfl⟩⟩ := exists_of_parseEvents h
    · exact List.cons_ne_nil _ _
    · exact List.cons_ne_nil _ _

/-- The events of a run end lines if no newline starts one of them and the tokens of
the type of a newline start lines. -/
theorem AtEvent.endLines_iff (ht : t.ReadsLines) (hcaptures : t.HasCaptureRegisters)
    (hsize : buf.size < 2 ^ 31) (hfuel : 2 * buf.size + 1 < fuel)
    (hreset : (Lexer.startOfFileState t).isSome) {calls : List Call}
    (h : p.AtEvent t state buf opening q offset)
    (hcount : LogParser.tokensLeft (.ofBuffer buf true) opening q < count)
    (hcalls : p.parseEvents t fuel buf true count offset = .ok calls) :
    EndLines (calls.map (·.event.toString)) ↔
      NoEmptyLine t state (.ofBuffer buf true) (eventStart p.logParser.startOfLog q) buf.size ∧
        ReturnsFitting t (.ofBuffer buf true) opening (p.cursor buf offset) := by
  induction count generalizing p opening q offset calls with
  | zero => exact absurd hcount (Nat.not_lt_zero _)
  | succ count ih =>
    obtain ⟨call, parsed, opening', q', hcall, hmakes⟩ :=
      h.awaits.parseNextEvent ht.toWellFormed hcaptures hsize hfuel hreset
    have hline := h.line ht hmakes
    obtain ⟨m, rest, hstarts, hrests, hfits⟩ := hline.parts
    rcases hmakes.calls hcall hcalls with ⟨hresult, later, hlater, rfl⟩ | ⟨hresult, rfl⟩
    · obtain ⟨tokens, hparses, hchain, -⟩ := hmakes.parses
      have hleft := hparses.tokensLeft_lt ht.toWellFormed hchain hresult
      rw [List.map_cons, hline.text]
      refine hstarts.endLines_iff hrests hline.le_size hfits (fun _ => ⟨?_, fun hbyte => ?_⟩)
        fun hfinish => ?_
      · rw [ne_eq, List.map_eq_nil_iff]
        exact parseEvents_ne_nil (by omega) hlater
      · obtain ⟨hnext, hkept⟩ := hline.next hresult hbyte
        have hopening : opening' = none := hchain.opening_eq_none (hparses.ne_nil hresult)
        rw [hopening] at hleft
        have hrest := ih hnext (by omega) hlater
        rwa [hkept] at hrest
      · rw [hresult] at hfinish
        cases hfinish
    · rw [List.map_cons, hline.text]
      exact hstarts.endLines_iff hrests hline.le_size hfits (fun hyes => absurd hyes hresult)
        fun hfinish => ⟨rfl, hline.finish hfinish⟩

/-! ### The first event -/

/-- The calls of `scan` at the start of a text return tokens of the spans that the cursor
returns. -/
theorem forall_returnsSpans_iff (ht : t.WellFormed) {src : Source} {s : Scanner} {o : Opening}
    (hfinished : src.finished = true) (hfuel : 2 * src.size + 1 < fuel)
    (hresting : s.Resting t src) (hopened : (ofScanner s).Opened t src o) {P : List Span → Prop} :
    (∀ spans, ReturnsSpans t src (ofScanner s) spans → P spans) ↔
      ∀ calls tokens, s.scanPieces t fuel calls [] = .ok ([], tokens) →
        P (tokens.map Token.span) := by
  constructor
  · intro h calls tokens htokens
    have hpiece : src.PieceOf src := ⟨Nat.le_refl _, fun _ _ => rfl, fun _ => rfl⟩
    have hdelivered : Delivered src src.size [] := trivial
    obtain ⟨resumed, tokens', htokens', hspans⟩ :=
      Scanner.scanPieces_spec ht hfinished hfuel calls hpiece hresting hdelivered
    rw [htokens] at htokens'
    cases htokens'
    exact h _ (hspans hopened.follows fun r hr => absurd hr List.not_mem_nil)
  · intro h spans hspans
    obtain ⟨tokens, htokens, rfl⟩ :=
      Scanner.exists_scanPieces_of_returnsSpans ht hfuel hresting hspans
    exact h _ tokens htokens

/-- The tokens that the calls of `scan` return at the start of a text. -/
theorem returnsFitting_iff_scanPieces (ht : t.WellFormed) {src : Source} {s : Scanner}
    {o : Opening} (hfinished : src.finished = true) (hfuel : 2 * src.size + 1 < fuel)
    (hresting : s.Resting t src) (hopened : (ofScanner s).Opened t src o) :
    ReturnsFitting t src (some o) (ofScanner s) ↔
      ∀ calls tokens, s.scanPieces t fuel calls [] = .ok ([], tokens) →
        ∀ token ∈ tokens.tail, token.span.FitsLine src.bytes := by
  refine (forall_returnsSpans_iff ht hfinished hfuel hresting hopened).trans ?_
  refine forall_congr' fun calls => forall_congr' fun tokens => forall_congr' fun _ => ?_
  show (∀ span ∈ (tokens.map Token.span).tail, _) ↔ _
  rw [← List.map_tail, List.forall_mem_map]

/-- The first call on a text that is all there makes an event of the tokens from the first
one on. -/
structure Call.IsFirst (t : LexerTables) (fuel : Nat) (buf : UserBuffer) (o : Opening)
    (p : BufferParser) (call : Call) (token : Token) (tokens : List Token) (parsed : Parsed)
    (q' : Nat) : Prop where
  returns : p.parseNextEvent t fuel buf 0 true = .ok call
  event : Event.ofBuffer call.event = parsed.event
  finish : parsed.result = .ok .compressAndFinish →
    call.errorCode = .success ∧ call.parser.done = true
  first : p.FirstToken t fuel buf true 0 token
  parses : Parses t none (token :: tokens) parsed
  chain : ∃ opening', Chain t (.ofBuffer buf true) (some o) 0 (token :: tokens) opening' q'
  le_size : q' ≤ buf.size
  action : ∃ action, parsed.result = .ok action
  reads : ∃ c', Reads t (.ofBuffer buf true) (p.cursor buf 0) (token :: tokens) c'

/-- The first call fails only on a header whose timestamp cannot be read. -/
theorem firstCall_cases (ht : t.WellFormed) {o : Opening}
    (hstands : (p.logParser.feed buf 0 true).StandsAt t (.ofBuffer buf true) (some o) 0)
    (hnone : p.logParser.startOfLog = none) (hfuel : 2 * buf.size + 1 < fuel) :
    (∃ call token tokens parsed q', Call.IsFirst t fuel buf o p call token tokens parsed q') ∨
      ∃ token fault, p.FirstToken t fuel buf true 0 token ∧
        (∃ j, token.IsLexeme t (.ofBuffer buf true) (some o) 0 j) ∧
        token.firstTypeId = .ok SymbolId.tokenHeader.toNat ∧
        LogParser.headerTimestamp t token = .error fault ∧
        p.parseNextEvent t fuel buf 0 true = .error fault := by
  have hlog : (p.logParser.feed buf 0 true).startOfLog = none := hnone
  rcases hstands.parse ht hfuel (LogParser.fresh_feed _ _ _ _)
      (by intro token h; rw [hlog] at h; cases h)
    with ⟨p', tokens, parsed, hparse, hparses, hmakes, -, hreads⟩ |
      ⟨token, fault, htype, hread, hparse, hfrom⟩
  · obtain ⟨opening', q', hchain, hends, -⟩ := hmakes.chain
    obtain ⟨p'', result, hsymbol, hresult⟩ := hreads hlog
    rw [hlog] at hparses
    obtain ⟨action, haction⟩ : ∃ action, parsed.result = .ok action := by
      cases hparsed : parsed.result with
      | ok action => exact ⟨action, rfl⟩
      | error err => exact absurd rfl (hmakes.outOfData err hparsed)
    obtain ⟨token, tokens, rfl⟩ : ∃ token rest, tokens = token :: rest := by
      cases hparses with
      | outOfData => cases haction
      | newline => exact ⟨_, _, rfl⟩
      | read => exact ⟨_, _, rfl⟩
    rw [(hresult token).2 rfl] at hsymbol
    rw [haction] at hparse
    obtain ⟨call, hcall, hevent, hfinish⟩ : ∃ call, p.parseNextEvent t fuel buf 0 true = .ok call ∧
        Event.ofBuffer call.event = Event.ofBuffer p'.outputBuffer ∧
        (action = .compressAndFinish → call.errorCode = .success ∧ call.parser.done = true) := by
      rw [parseNextEvent_eq, hparse]
      refine ⟨_, rfl, rfl, fun haction => ⟨rfl, ?_⟩⟩
      rw [haction]
      exact Bool.or_true p.done
    refine Or.inl ⟨call, token, tokens, parsed, q', hcall, hevent.trans hmakes.event, fun h => ?_,
      Or.inr ⟨hnone, p'', hsymbol⟩, hparses, ⟨opening', hchain⟩,
      (hends action haction).position.le_size, ⟨action, haction⟩, _, hmakes.reads action haction⟩
    rw [haction] at h
    exact hfinish (Except.ok.inj h)
  · rcases hfrom with hstart | ⟨-, p', j, hsymbol, hlexeme⟩
    · rw [hlog] at hstart
      cases hstart
    · refine Or.inr ⟨token, fault, Or.inr ⟨hnone, p', hsymbol⟩, ⟨j, hlexeme⟩, htype, hread, ?_⟩
      rw [parseNextEvent_eq, hparse]
      rfl

/-- A text without bytes is one event without text. -/
theorem Call.IsFirst.parseEvents_of_empty (ht : t.WellFormed)
    (hend : ∀ state, SymbolId.tokenEnd.toNat ∉ t.dfa.typeIds state) {o : Opening} {token : Token}
    {tokens : List Token} (h : Call.IsFirst t fuel buf o p call token tokens parsed q')
    (hno : ¬ token.IsEmptyHeader) (hempty : buf.size = 0) (hcount : 0 < count) :
    p.parseEvents t fuel buf true count 0 = .ok [call] ∧ Completes [call] ∧
      call.event.toString = [] := by
  obtain ⟨opening', hchain⟩ := h.chain
  have htext : MakesText (.ofBuffer buf true) parsed [] 0 q' := by
    refine h.parses.makesText ht hend hchain (fun hne => absurd rfl hne)
      (fun token htoken => by cases htoken) fun _ first hfirst => ?_
    cases hfirst
    exact hno
  have hle := htext.keeps.eventStart_le
  have hsize := h.le_size
  have hresult : parsed.result = .ok .compressAndFinish := by
    rcases h.parses.ends with hcompress | hfinish | herr
    · have hlt := htext.lt hcompress
      omega
    · exact hfinish
    · obtain ⟨action, haction⟩ := h.action
      rw [haction] at herr
      cases herr
  obtain ⟨hcode, hdone⟩ := h.finish hresult
  refine ⟨?_, ⟨List.forall_mem_singleton.2 hcode, call, rfl, hdone⟩, ?_⟩
  · obtain ⟨count, rfl⟩ := Nat.exists_eq_succ_of_ne_zero hcount.ne'
    unfold BufferParser.parseEvents
    simp only [bind, Except.bind, h.returns, pure, Except.pure]
    rw [if_neg fun hmore => hmore.2 hdone]
  · have hevent : call.event.toString = parsed.event.toString := by
      rw [← h.event]
      rfl
    have hzero : eventStart parsed.startOfLog q' = 0 := by omega
    rw [hevent, htext.text, hzero, Source.word_self]
    rfl

/-- A text without bytes is one event without text. -/
theorem parseEvents_of_empty (ht : t.ReadsLines) {o : Opening}
    (hstands : (p.logParser.feed buf 0 true).StandsAt t (.ofBuffer buf true) (some o) 0)
    (hnone : p.logParser.startOfLog = none) (hempty : buf.size = 0)
    (hfuel : 2 * buf.size + 1 < fuel) (hcount : 0 < count) :
    ∃ call, p.parseEvents t fuel buf true count 0 = .ok [call] ∧ Completes [call] ∧
      call.event.toString = [] := by
  rcases firstCall_cases ht.toWellFormed hstands hnone hfuel with
    ⟨call, token, tokens, parsed, q', hfirst⟩ | ⟨token, fault, -, ⟨j, hlexeme⟩, htype, -⟩
  · obtain ⟨opening', hchain⟩ := hfirst.chain
    refine ⟨call, hfirst.parseEvents_of_empty ht.toWellFormed ht.noEnd (fun hheader => ?_) hempty
      hcount⟩
    cases hchain with
    | cons hlexeme => exact hlexeme.firstTypeId_ne_header ht hheader.1.1
  · exact absurd htype (hlexeme.firstTypeId_ne_header ht)

/-- The tables of a schema without headers, whose delimiters have the newline. -/
theorem readsLines_generate {schema : SchemaAST}
    {regMapOrder : List (Nat × Nat) → List (Nat × Nat)} {steps : Nat}
    (horder : ∀ regMap, (regMapOrder regMap).Perm regMap)
    (hgenerate : schema.generate regMapOrder steps = .ok t) (hnames : schema.NamesIdentifiers)
    (hheader : ∀ var ∈ schema.schemaVars, var.name ≠ cTokenHeader)
    (hnewline : 10 ∈ schema.delimiterList)
    (hinner : ∀ w q, t.dfa.run t.dfa.getRoot w = some q → t.dfa.typeIds q ≠ [] → 10 ∉ w.tail) :
    t.ReadsLines := by
  have ht := LexerTables.ofSchema_generate horder hgenerate
  refine ⟨ht.toWellFormed, ?_, hinner, fun p hmem => ?_, ht.tokenEnd_not_mem hnames⟩
  · rw [ht.isDelimiter]
    exact (LexerTables.mem_delimiterList.1 hnewline).2
  · rcases ht.reserved p (cTokenHeader, SymbolId.tokenHeader.toNat) (by decide) hmem with
      hname | ⟨var, hvar, hname⟩
    · exact absurd hname (by decide)
    · exact hheader var hvar hname

/-- The texts of the events of a log without headers end lines if no newline but the
last character comes first in the text or behind another one, and no variable of the
type of a newline ends an event. -/
theorem eventsEndLines_iff {schema : SchemaAST}
    {regMapOrder : List (Nat × Nat) → List (Nat × Nat)} {steps : Nat}
    (horder : ∀ regMap, (regMapOrder regMap).Perm regMap)
    (hgenerate : schema.generate regMapOrder steps = .ok t) (hnames : schema.NamesIdentifiers)
    (hheader : ∀ var ∈ schema.schemaVars, var.name ≠ cTokenHeader)
    (hnewline : 10 ∈ schema.delimiterList)
    (hinner : ∀ w q, t.dfa.run t.dfa.getRoot w = some q → t.dfa.typeIds q ≠ [] → 10 ∉ w.tail)
    (hreset : (BufferParser.new t).reset t = .ok p) (hsize : buf.size < 2 ^ 31)
    (hfuel : 2 * buf.size + 1 < fuel) (hcount : buf.size + 1 < count) :
    ∃ state calls, Lexer.startOfFileState t = some state ∧
      p.parseEvents t fuel buf true count 0 = .ok calls ∧ Completes calls ∧
      (EndLines (calls.map (·.event.toString)) ↔
        NoEmptyLine t state (.ofBuffer buf true) 0 buf.size ∧
          ∀ n tokens, (p.logParser.feed buf 0 true).scanner.scanPieces t fuel n [] =
            .ok ([], tokens) → ∀ token ∈ tokens.tail, token.span.FitsLine buf.bytes) := by
  have hcaptures := LexerTables.hasCaptureRegisters_generate horder hgenerate
  have ht := readsLines_generate horder hgenerate hnames hheader hnewline hinner
  obtain ⟨state, hstate, hstands, hnone⟩ :=
    @standsAt_reset t buf true 0 ht.toWellFormed p hreset hsize (Nat.zero_le _)
  obtain ⟨hopened⟩ := hstands.position
  have hfits := returnsFitting_iff_scanPieces ht.toWellFormed rfl hfuel hstands.resting hopened
  rcases Nat.eq_zero_or_pos buf.size with hempty | hpos
  · obtain ⟨call, hcalls, hcompletes, htext⟩ := parseEvents_of_empty ht hstands hnone hempty
      hfuel (Nat.zero_lt_of_lt hcount)
    refine ⟨state, [call], hstate, hcalls, hcompletes,
      iff_of_true ?_ ⟨fun p _ hp => ?_, hfits.1 ?_⟩⟩
    · rw [List.map_singleton, htext, endLines_singleton]
      exact List.not_mem_nil
    · omega
    · intro spans hspans
      cases hspans with
      | nil => exact fun span hmem => absurd hmem List.not_mem_nil
      | @cons _ c' span spans hscans hrest =>
        obtain ⟨hlexeme, hnext⟩ := hstands.position.scans ht.toWellFormed hscans
        have hend : span.endPos = (Source.ofBuffer buf true).size := by
          have hle := hlexeme.le_size
          have hzero : (Source.ofBuffer buf true).size = 0 := hempty
          omega
        rw [hend] at hnext
        exact hnext.returnsFitting ht.toWellFormed spans hrest
  · obtain ⟨state', hstate', hawaits, -⟩ :=
      @awaits_reset t buf true 0 ht.toWellFormed p hreset hsize hpos (Nat.zero_le _)
    obtain rfl := Option.some.inj (hstate.symm.trans hstate')
    have hstart : (Lexer.startOfFileState t).isSome := by
      rw [hstate]
      rfl
    have hleft : LogParser.tokensLeft (.ofBuffer buf true) (some ⟨state, 0⟩) 0 < count := hcount
    obtain ⟨calls, -, hcalls, -, -⟩ :=
      hawaits.parseEvents ht.toWellFormed hcaptures hsize hfuel hstart hleft
    have hat : p.AtEvent t state buf (some ⟨state, 0⟩) 0 0 := by
      refine ⟨hawaits, ?_, ?_, ?_⟩ <;> rw [hnone]
      · exact .first rfl rfl hstate
      · exact keepsText_none _ 0
      · exact keepsLine_none _ 0
    have hiff := hat.endLines_iff ht hcaptures hsize hfuel hstart hleft hcalls
    rw [hnone] at hiff
    exact ⟨state, calls, hstate, hcalls,
      hawaits.completes ht.toWellFormed hcaptures hsize hfuel hstart hleft hcalls,
      hiff.trans (and_congr_right fun _ => hfits)⟩

/-! ### An empty line -/

/-- The text `a`, two newlines, `a`. -/
def lettersAroundEmptyLine : UserBuffer where
  bytes i := if i = 1 ∨ i = 2 then 10 else 97
  size := 4

/-- The lexer of the letters reads newlines first only, and the events of the text. -/
def checkLines (buf : UserBuffer) (count : Nat) (texts : List (List UInt8)) : Bool :=
  match runEvents letterSchema 40 20 buf true count with
  | .ok (t, _, calls) =>
    Scanner.readsNewlineFirst t.dfa && calls.map (·.event.toString) == texts
  | .error _ => false

theorem exists_of_checkLines {texts : List (List UInt8)}
    (h : checkLines buf count texts = true) :
    ∃ t p calls, letterSchema.generate id 40 = .ok t ∧ (BufferParser.new t).reset t = .ok p ∧
      (∀ w q, t.dfa.run t.dfa.getRoot w = some q → t.dfa.typeIds q ≠ [] → 10 ∉ w.tail) ∧
      p.parseEvents t 20 buf true count 0 = .ok calls ∧
      calls.map (·.event.toString) = texts := by
  unfold checkLines at h
  split at h
  · rename_i t p calls hrun
    obtain ⟨t', ht, hrun⟩ := exists_of_bind_eq_ok hrun
    obtain ⟨p', hreset, hrun⟩ := exists_of_bind_eq_ok hrun
    obtain ⟨calls', hcalls, hrun⟩ := exists_of_bind_eq_ok hrun
    cases hrun
    rw [Bool.and_eq_true, beq_iff_eq] at h
    exact ⟨t, _, calls, ht, hreset,
      fun w q hq _ => Scanner.not_mem_tail_of_readsNewlineFirst h.1 hq, hcalls, h.2⟩
  · cases h

/-- The lines `a` and `b`. -/
theorem eventsEndLines_iff_lettersOnLines : ∃ t p state calls, letterSchema.generate id 40 = .ok t ∧
    (BufferParser.new t).reset t = .ok p ∧ Lexer.startOfFileState t = some state ∧
    p.parseEvents t 20 lettersOnLines true 6 0 = .ok calls ∧ Completes calls ∧
    (EndLines (calls.map (·.event.toString)) ↔
      NoEmptyLine t state (.ofBuffer lettersOnLines true) 0 lettersOnLines.size ∧
        ∀ n tokens, (p.logParser.feed lettersOnLines 0 true).scanner.scanPieces t 20 n [] =
          .ok ([], tokens) → ∀ token ∈ tokens.tail, token.span.FitsLine lettersOnLines.bytes) := by
  have hcheck : checkLines lettersOnLines 6 [[97, 10], [98, 32]] = true := by decide +kernel
  obtain ⟨t, p, -, hgenerate, hreset, hinner, -⟩ := exists_of_checkLines hcheck
  obtain ⟨state, calls, hstate, hcalls⟩ := eventsEndLines_iff (fun _ => .refl _) hgenerate
    namesIdentifiers_letterSchema (by decide) (by decide) hinner hreset
    (by decide : lettersOnLines.size < 2 ^ 31) (by decide : 2 * lettersOnLines.size + 1 < 20)
    (by decide : lettersOnLines.size + 1 < 6)
  exact ⟨t, p, state, calls, hgenerate, hreset, hstate, hcalls⟩

/-- The second event is the empty line with the line behind it. -/
theorem not_eventsEndLines_lettersAroundEmptyLine : ∃ t p calls,
    letterSchema.generate id 40 = .ok t ∧ (BufferParser.new t).reset t = .ok p ∧
    (∀ var ∈ letterSchema.schemaVars, var.name ≠ cTokenHeader) ∧ 10 ∈ letterSchema.delimiterList ∧
    (∀ w q, t.dfa.run t.dfa.getRoot w = some q → t.dfa.typeIds q ≠ [] → 10 ∉ w.tail) ∧
    p.parseEvents t 20 lettersAroundEmptyLine true 6 0 = .ok calls ∧
    calls.map (·.event.toString) = [[97, 10], [10, 97]] ∧
    ¬ EndLines (calls.map (·.event.toString)) := by
  have hcheck : checkLines lettersAroundEmptyLine 6 [[97, 10], [10, 97]] = true := by
    decide +kernel
  obtain ⟨t, p, calls, hgenerate, hreset, hinner, hcalls, htexts⟩ := exists_of_checkLines hcheck
  refine ⟨t, p, calls, hgenerate, hreset, by decide, by decide, hinner, hcalls, htexts, ?_⟩
  rw [htexts]
  intro hlines
  exact absurd (hlines.2 _ rfl) (by decide)

end BufferParser

end LogSurgeon
