import LogSurgeon.LexerCursor

/-!
# The tokens of the lexer

`Lexeme` says what a token that starts behind the last one can be: text that
ends at a delimiter, a match, or the end of the input.  A call of `scan` that
returns a token returns a lexeme, and the next one starts where it ends
(`Rested.scans` and `Opened.scans`).

* `Scanning` is the invariant of the loop.
* `Rested` holds between two calls, and `Opened` before the first one.
-/

namespace LogSurgeon

/-! ## Words of a text -/

namespace Source

/-- The bytes from `i` to `j`. -/
def word (src : Source) (i j : Nat) : List UInt8 := subspan src.bytes i (j - i)

@[simp] theorem word_self (src : Source) (i : Nat) : src.word i i = [] := by simp [word]

theorem word_succ (src : Source) {i j : Nat} (h : i ≤ j) :
    src.word i (j + 1) = src.word i j ++ [src.bytes j] := by
  have hsplit := subspan_append src.bytes i (j - i) 1
  have hj : i + (j - i) = j := by omega
  have hlength : j - i + 1 = j + 1 - i := by omega
  rw [hj, hlength] at hsplit
  exact hsplit.symm

theorem word_append (src : Source) {i j k : Nat} (hij : i ≤ j) (hjk : j ≤ k) :
    src.word i j ++ src.word j k = src.word i k := by
  have hsplit := subspan_append src.bytes i (j - i) (k - j)
  have hj : i + (j - i) = j := by omega
  have hlength : j - i + (k - j) = k - i := by omega
  rwa [hj, hlength] at hsplit

@[simp] theorem length_word (src : Source) (i j : Nat) : (src.word i j).length = j - i := by
  simp [word]

theorem mem_word {src : Source} {i j : Nat} {b : UInt8} :
    b ∈ src.word i j ↔ ∃ p, i ≤ p ∧ p < j ∧ src.bytes p = b := by
  unfold word subspan
  rw [List.mem_map]
  constructor
  · rintro ⟨p, hp, rfl⟩
    obtain ⟨hle, hlt⟩ := List.mem_range'_1.1 hp
    exact ⟨p, hle, by omega, rfl⟩
  · rintro ⟨p, hle, hlt, rfl⟩
    exact ⟨p, List.mem_range'_1.2 ⟨hle, by omega⟩, rfl⟩

theorem tail_word (src : Source) (i j : Nat) : (src.word i j).tail = src.word (i + 1) j := by
  unfold word subspan
  rw [← List.map_tail, List.tail_range']
  congr 2

theorem word_cons (src : Source) {i j : Nat} (h : i < j) :
    src.word i j = src.bytes i :: src.word (i + 1) j := by
  have hlength : j - i = j - (i + 1) + 1 := by omega
  unfold word subspan
  rw [hlength, List.range'_succ, List.map_cons]

theorem word_pred (src : Source) {i j : Nat} (h : i < j) :
    src.word i j = src.word i (j - 1) ++ [src.bytes (j - 1)] := by
  have hword := src.word_succ (i := i) (j := j - 1) (by omega)
  rwa [Nat.sub_add_cancel (by omega)] at hword

end Source

/-- The first call of `scan` behind the start of the file: the state that the
DFA is in, and the position of the first character. -/
structure Opening where
  state : Nat
  offset : Nat

namespace Cursor

/-- A match ends at the first character already. -/
def OpensWithMatch (t : LexerTables) (src : Source) (opening : Option Opening) : Prop :=
  ∃ o, opening = some o ∧ t.dfa.typeIds o.state ≠ [] ∧
    (o.offset = src.size ∨ t.isDelimiter (src.bytes o.offset).toNat)

/-- The run of the DFA at a start position begins in a state at an origin.  That
is the root at the start position, or else the start of the file. -/
inductive RunsFrom (t : LexerTables) (src : Source) (opening : Option Opening)
    (startPos : Nat) : Nat → Nat → Prop where
  | root (hopens : ¬ OpensWithMatch t src opening) :
      RunsFrom t src opening startPos t.dfa.getRoot startPos
  | opening {o : Opening} (ho : opening = some o) (hstart : startPos = 0) :
      RunsFrom t src opening startPos o.state o.offset

/-- The first position that is read. -/
def readsFrom (opening : Option Opening) : Nat := opening.elim 0 (·.offset)

/-- The run from `startPos` to `matchPos` ends in a state with the variables,
and a match may end there. -/
structure MatchAt (t : LexerTables) (src : Source) (opening : Option Opening)
    (startPos matchPos : Nat) (typeIds : List Nat) : Prop where
  run : ∃ base origin p, RunsFrom t src opening startPos base origin ∧ origin ≤ matchPos ∧
    t.dfa.run base (src.word origin matchPos) = some p ∧ t.dfa.typeIds p = typeIds
  ne_nil : typeIds ≠ []
  le_size : matchPos ≤ src.size
  ends : matchPos = src.size ∨ t.isDelimiter (src.bytes matchPos).toNat ∨
    matchPos = startPos + 1 ∧ src.bytes startPos = 10

/-- A delimiter that starts a variable. -/
def Boundary (t : LexerTables) (src : Source) (p : Nat) : Prop :=
  t.isFirstCharOfAVariable (src.bytes p).toNat ∧ t.isDelimiter (src.bytes p).toNat

/-- Text without a variable may end at the position. -/
def EndsText (t : LexerTables) (src : Source) (p : Nat) : Prop :=
  p = src.size ∨ t.isDelimiter (src.bytes p).toNat ∨ src.bytes p = 10

/-- The text that is read between the positions has no boundary behind its first
character, and no newline if that is a delimiter. -/
structure PlainText (t : LexerTables) (src : Source) (opening : Option Opening) (i j : Nat) :
    Prop where
  unbroken : ∀ p, readsFrom opening ≤ p → i < p → p < j → ¬ Boundary t src p
  newline : t.isDelimiter 10 → ∀ p, readsFrom opening ≤ p → i ≤ p → p < j → src.bytes p ≠ 10

/-- What a token from position `i` is. -/
inductive Lexeme (t : LexerTables) (src : Source) (opening : Option Opening) (i : Nat) :
    Span → Prop where
  | text {j line : Nat} (hlt : i < j) (hle : j ≤ src.size) (hends : EndsText t src j)
      (hplain : PlainText t src opening i j) :
      Lexeme t src opening i ⟨i, j, line, cTokenUncaughtStringTypes⟩
  | variable {j line : Nat} {typeIds : List Nat} (hmatch : MatchAt t src opening i j typeIds) :
      Lexeme t src opening i ⟨i, j, line, typeIds⟩
  | input {line : Nat} (hend : i = src.size) : Lexeme t src opening i ⟨i, i, line, cTokenEndTypes⟩

/-! ## The loop -/

/-- The invariant of the loop. -/
structure Scanning (t : LexerTables) (src : Source) (opening : Option Opening) (c : Cursor) :
    Prop where
  last_le : c.lastMatchPos ≤ c.startPos
  start_le : c.startPos ≤ c.pos
  pos_le : c.pos ≤ src.size
  run : ∃ base origin, RunsFrom t src opening c.startPos base origin ∧ origin ≤ c.pos ∧
    c.state = t.dfa.run base (src.word origin c.pos)
  matched : ∀ m ids, c.matched = some (m, ids) →
    MatchAt t src opening c.startPos m ids ∧ m ≤ c.pos
  opens : OpensWithMatch t src opening → c.matched = none →
    ∃ o, opening = some o ∧ c.pos = o.offset ∧ c.state = some o.state
  delimiter : ∀ f, c.firstDelimiterPos = some f → c.lastMatchPos < f ∧ f < c.pos ∧
    t.isDelimiter (src.bytes f).toNat ∧
    ∀ p, readsFrom opening ≤ p → c.lastMatchPos < p → p < f → ¬ Boundary t src p
  unbroken : c.firstDelimiterPos = none →
    ∀ p, readsFrom opening ≤ p → c.lastMatchPos < p → p < c.pos → ¬ Boundary t src p
  beforeStart : c.lastMatchPos < c.startPos →
    EndsText t src c.startPos ∧ PlainText t src opening c.lastMatchPos c.startPos
  newline : t.isDelimiter 10 → c.matched = none →
    ∀ p, readsFrom opening ≤ p → c.lastMatchPos ≤ p → p < c.pos → src.bytes p = 10 →
      ∃ f, c.firstDelimiterPos = some f ∧ f < p

variable {t : LexerTables} {src : Source} {opening : Option Opening} {c c' : Cursor}

theorem unbroken_succ {i j : Nat}
    (h : ∀ p, readsFrom opening ≤ p → i < p → p < j → ¬ Boundary t src p)
    (hj : i < j → ¬ Boundary t src j) :
    ∀ p, readsFrom opening ≤ p → i < p → p < j + 1 → ¬ Boundary t src p := by
  intro p hread hi hp
  rcases Nat.lt_or_eq_of_le (Nat.le_of_lt_succ hp) with hlt | rfl
  · exact h p hread hi hlt
  · exact hj hi

/-- The first delimiter behind the character that is read. -/
theorem Scanning.firstDelimiterPos_readChar (h : Scanning t src opening c) {f : Nat}
    (hf : (c.readChar t src).firstDelimiterPos = some f) :
    c.lastMatchPos < f ∧ f ≤ c.pos ∧ (f = src.size ∨ t.isDelimiter (src.bytes f).toNat) ∧
      ∀ p, readsFrom opening ≤ p → c.lastMatchPos < p → p < f → ¬ Boundary t src p := by
  rw [Cursor.firstDelimiterPos_readChar] at hf
  split at hf
  · rename_i hnote
    obtain ⟨hnone, hdelimiter, hne⟩ := hnote
    cases hf
    have hle := h.last_le.trans h.start_le
    refine ⟨Nat.lt_of_le_of_ne hle hne.symm, Nat.le_refl _, ?_, h.unbroken hnone⟩
    rcases Nat.lt_or_eq_of_le h.pos_le with hlt | heq
    · rw [Source.charAt_of_lt hlt] at hdelimiter
      exact Or.inr hdelimiter
    · exact Or.inl heq
  · obtain ⟨hlast, hlt, hdelimiter, hunbroken⟩ := h.delimiter f hf
    exact ⟨hlast, hlt.le, Or.inr hdelimiter, hunbroken⟩

theorem Scanning.firstDelimiterPos_readChar_none (h : Scanning t src opening c)
    (hnone : (c.readChar t src).firstDelimiterPos = none) :
    c.firstDelimiterPos = none ∧ (c.pos < src.size →
      ∀ p, readsFrom opening ≤ p → c.lastMatchPos < p → p < c.pos + 1 → ¬ Boundary t src p) := by
  rw [Cursor.firstDelimiterPos_readChar] at hnone
  split at hnone
  · cases hnone
  · rename_i hnote
    refine ⟨hnone, fun hlt => unbroken_succ (h.unbroken hnone) fun hlast hboundary => ?_⟩
    rw [Source.charAt_of_lt hlt] at hnote
    exact hnote ⟨hnone, hboundary.2, hlast.ne'⟩

/-- A delimiter that was noted before stays the first one. -/
theorem firstDelimiterPos_readChar_of_some {f : Nat} (hf : c.firstDelimiterPos = some f) :
    (c.readChar t src).firstDelimiterPos = some f := by
  rw [Cursor.firstDelimiterPos_readChar, if_neg, hf]
  rintro ⟨hnone, -⟩
  rw [hf] at hnone
  cases hnone

/-- A run of the DFA that ends in an accepting state where a match may end. -/
theorem matchAt_of_ends {startPos base origin : Nat}
    (hruns : RunsFrom t src opening startPos base origin) (horigin : origin ≤ c.pos)
    (hstate : c.state = t.dfa.run base (src.word origin c.pos)) (hpos : c.pos ≤ src.size)
    (hends : t.isDelimiter (src.charAt c.pos).toNat ∨ c.pos = src.size)
    (haccepts : c.typeIds t ≠ []) : MatchAt t src opening startPos c.pos (c.typeIds t) := by
  cases hp : c.state with
  | none =>
    unfold Cursor.typeIds at haccepts
    rw [hp] at haccepts
    exact absurd rfl haccepts
  | some p =>
    have hids : c.typeIds t = t.dfa.typeIds p := by
      unfold Cursor.typeIds
      rw [hp]
      rfl
    refine ⟨⟨base, origin, p, hruns, horigin, hstate.symm.trans hp, hids.symm⟩, haccepts, hpos, ?_⟩
    rcases Nat.lt_or_eq_of_le hpos with hlt | heq
    · rw [Source.charAt_of_lt hlt] at hends
      rcases hends with hdelimiter | heq
      · exact Or.inr (Or.inl hdelimiter)
      · exact Or.inl heq
    · exact Or.inl heq

/-- The match behind the character that is read. -/
theorem Scanning.matched_readChar (h : Scanning t src opening c) {m : Nat} {ids : List Nat}
    (hmatched : (c.readChar t src).matched = some (m, ids)) :
    MatchAt t src opening c.startPos m ids ∧ m ≤ c.pos := by
  rw [Cursor.matched_readChar] at hmatched
  split at hmatched
  · rename_i hrecord
    obtain ⟨hends, haccepts⟩ := hrecord
    cases hmatched
    obtain ⟨base, origin, hruns, horigin, hstate⟩ := h.run
    exact ⟨matchAt_of_ends hruns horigin hstate h.pos_le hends haccepts, Nat.le_refl _⟩
  · exact h.matched m ids hmatched

/-- The run of the DFA takes in the character that is read. -/
theorem run_readChar {base origin : Nat} (horigin : origin ≤ c.pos) (hlt : c.pos < src.size)
    (hstate : c.state = t.dfa.run base (src.word origin c.pos)) :
    (c.readChar t src).state = t.dfa.run base (src.word origin (c.pos + 1)) := by
  rw [Source.word_succ src horigin, Dfa.run_append, ← hstate, state_readChar,
    Source.charAt_of_lt hlt]
  unfold nextState
  cases c.state with
  | none => rfl
  | some p =>
    show _ = t.dfa.run p [src.bytes c.pos]
    rw [Dfa.run_cons, Option.bind_some, Option.map_eq_bind]
    rfl

theorem matched_of_matched_readChar (h : (c.readChar t src).matched = none) : c.matched = none := by
  rw [Cursor.matched_readChar] at h
  split at h
  · cases h
  · exact h

/-- A match at the first character is found when that is read. -/
theorem Scanning.not_opensWithMatch (h : Scanning t src opening c)
    (hmatched : (c.readChar t src).matched = none) : ¬ OpensWithMatch t src opening := by
  intro hopens
  obtain ⟨o, ho, hpos, hstate⟩ := h.opens hopens (matched_of_matched_readChar hmatched)
  obtain ⟨o', ho', hids, hends⟩ := hopens
  obtain rfl : o = o' := Option.some.inj (ho.symm.trans ho')
  have htypes : c.typeIds t = t.dfa.typeIds o.state := by
    unfold Cursor.typeIds
    rw [hstate]
    rfl
  rw [Cursor.matched_readChar, if_pos] at hmatched
  · cases hmatched
  · rw [htypes, hpos]
    refine ⟨?_, hids⟩
    rcases hends with hsize | hdelimiter
    · exact Or.inr hsize
    · rcases Nat.lt_or_eq_of_le h.pos_le with hlt | hsize
      · rw [hpos] at hlt
        rw [Source.charAt_of_lt hlt]
        exact Or.inl hdelimiter
      · exact Or.inr (hpos.symm.trans hsize)

/-- Without a match, every newline that was read comes behind the first
delimiter. -/
theorem Scanning.newline_readChar (h : Scanning t src opening c)
    (hstart : ¬ (src.charAt c.pos = 10 ∧ (c.readChar t src).StartsAtNewline c.pos))
    (hdelimiter : t.isDelimiter 10) (hmatched : (c.readChar t src).matched = none)
    (hlt : c.pos < src.size) {p : Nat} (hread : readsFrom opening ≤ p)
    (hlast : c.lastMatchPos ≤ p) (hp : p < c.pos + 1) (hnewline : src.bytes p = 10) :
    ∃ f, (c.readChar t src).firstDelimiterPos = some f ∧ f < p := by
  rcases Nat.lt_or_eq_of_le (Nat.le_of_lt_succ hp) with hbefore | rfl
  · obtain ⟨f, hf, hfp⟩ := h.newline hdelimiter (matched_of_matched_readChar hmatched) p hread
      hlast hbefore hnewline
    exact ⟨f, firstDelimiterPos_readChar_of_some hf, hfp⟩
  · rw [Source.charAt_of_lt hlt] at hstart
    cases hfirst : (c.readChar t src).firstDelimiterPos with
    | none => exact absurd ⟨hnewline, Or.inl hfirst, hmatched⟩ hstart
    | some f =>
      obtain ⟨-, hle, -⟩ := h.firstDelimiterPos_readChar hfirst
      refine ⟨f, rfl, Nat.lt_of_le_of_ne hle ?_⟩
      rintro rfl
      exact hstart ⟨hnewline, Or.inr hfirst, hmatched⟩

/-- The text before a newline at which the DFA starts again. -/
theorem Scanning.plainText_newline (h : Scanning t src opening c)
    (hstart : (c.readChar t src).StartsAtNewline c.pos) :
    PlainText t src opening c.lastMatchPos c.pos := by
  obtain ⟨hfirst, hmatched⟩ := hstart
  have hold : ∀ f, c.firstDelimiterPos = some f → f = c.pos := by
    intro f hf
    rw [firstDelimiterPos_readChar_of_some hf] at hfirst
    rcases hfirst with hnone | hpos
    · cases hnone
    · exact Option.some.inj hpos
  refine ⟨?_, fun hdelimiter p hread hlast hp hnewline => ?_⟩
  · cases hf : c.firstDelimiterPos with
    | none => exact h.unbroken hf
    | some f =>
      obtain ⟨-, -, -, hunbroken⟩ := h.delimiter f hf
      rwa [hold f hf] at hunbroken
  · obtain ⟨f, hf, hlt⟩ := h.newline hdelimiter (matched_of_matched_readChar hmatched) p hread
      hlast hp hnewline
    have := hold f hf
    omega

theorem lt_size_of_newline (h : Scanning t src opening c) (hchar : src.charAt c.pos = 10) :
    c.pos < src.size ∧ src.bytes c.pos = 10 := by
  have hlt : c.pos < src.size := by
    refine Nat.lt_of_le_of_ne h.pos_le fun heq => ?_
    rw [heq, Source.charAt_size] at hchar
    exact absurd hchar (by decide)
  rw [Source.charAt_of_lt hlt] at hchar
  exact ⟨hlt, hchar⟩

/-- A newline without a match starts a match of its own. -/
theorem Scanning.startAtNewline (ht : t.WellFormed) (h : Scanning t src opening c)
    (hchar : src.charAt c.pos = 10) (hstart : (c.readChar t src).StartsAtNewline c.pos) :
    Scanning t src opening ((c.readChar t src).startAtNewline t 10 c.pos) := by
  obtain ⟨hlt, hbyte⟩ := lt_size_of_newline h hchar
  obtain ⟨transition, ids, htransition, hids⟩ := ht.newline
  have hopens := h.not_opensWithMatch hstart.2
  have hplain := h.plainText_newline hstart
  have hfirst := @Scanning.firstDelimiterPos_readChar _ _ _ _ h
  have hnone := h.firstDelimiterPos_readChar_none
  have hpos : (c.readChar t src).pos = c.pos + 1 := by rw [pos_readChar, if_pos hlt]
  have hlast := lastMatchPos_readChar t src c
  generalize c.readChar t src = d at hpos hlast hfirst hnone
  have hnext : (d.root t).nextState t 10 = some transition.destState := by
    show (t.dfa.transition? t.dfa.getRoot 10).map _ = _
    rw [htransition]
    rfl
  have hrun : t.dfa.run t.dfa.getRoot (src.word c.pos (c.pos + 1)) = some transition.destState := by
    rw [Source.word_succ src (Nat.le_refl _), Source.word_self, List.nil_append, hbyte,
      Dfa.run_cons]
    have htransition : t.dfa.transition? t.dfa.getRoot (10 : UInt8).toNat = some transition :=
      htransition
    rw [htransition]
    rfl
  constructor
  case last_le =>
    rw [lastMatchPos_startAtNewline, startPos_startAtNewline, hlast]
    exact h.last_le.trans h.start_le
  case start_le =>
    rw [startPos_startAtNewline, pos_startAtNewline, hpos]
    exact Nat.le_succ _
  case pos_le =>
    rw [pos_startAtNewline, hpos]
    exact hlt
  case run =>
    refine ⟨_, _, .root hopens, ?_, ?_⟩
    · rw [startPos_startAtNewline, pos_startAtNewline, hpos]
      exact Nat.le_succ _
    · rw [state_startAtNewline, startPos_startAtNewline, pos_startAtNewline, hnext, hpos, hrun]
  case matched =>
    intro m ids' hmatched
    rw [matched_startAtNewline, hnext, hpos] at hmatched
    cases hmatched
    rw [startPos_startAtNewline, pos_startAtNewline, hpos]
    refine ⟨⟨⟨_, _, transition.destState, .root hopens, Nat.le_succ _, hrun, rfl⟩, ?_, hlt,
      Or.inr (Or.inr ⟨rfl, hbyte⟩)⟩, Nat.le_refl _⟩
    rw [Option.elim_some, hids]
    exact List.cons_ne_nil _ _
  case opens =>
    intro hyes
    exact absurd hyes hopens
  case delimiter =>
    intro f hf
    obtain ⟨hlt', hle, hdelimiter, hunbroken⟩ := hfirst hf
    rw [lastMatchPos_startAtNewline, pos_startAtNewline, hlast, hpos]
    exact ⟨hlt', Nat.lt_succ_of_le hle, hdelimiter.resolve_left (by omega), hunbroken⟩
  case unbroken =>
    intro hf
    rw [lastMatchPos_startAtNewline, pos_startAtNewline, hlast, hpos]
    exact (hnone hf).2 hlt
  case beforeStart =>
    intro _
    rw [startPos_startAtNewline, lastMatchPos_startAtNewline, hlast]
    exact ⟨Or.inr (Or.inr hbyte), hplain⟩
  case newline =>
    intro _ hmatched
    cases hmatched

/-- The run goes on. -/
theorem Scanning.readChar (h : Scanning t src opening c)
    (hstart : ¬ (src.charAt c.pos = 10 ∧ (c.readChar t src).StartsAtNewline c.pos))
    (hne : c.pos ≠ src.size) : Scanning t src opening (c.readChar t src) := by
  have hlt : c.pos < src.size := Nat.lt_of_le_of_ne h.pos_le hne
  have hpos : (c.readChar t src).pos = c.pos + 1 := by rw [pos_readChar, if_pos hlt]
  constructor
  · rw [lastMatchPos_readChar, startPos_readChar]
    exact h.last_le
  · rw [startPos_readChar, hpos]
    exact h.start_le.trans (Nat.le_succ _)
  · rw [hpos]
    exact hlt
  · obtain ⟨base, origin, hruns, horigin, hstate⟩ := h.run
    refine ⟨base, origin, ?_, ?_, ?_⟩
    · rwa [startPos_readChar]
    · rw [hpos]
      exact horigin.trans (Nat.le_succ _)
    · rw [hpos]
      exact run_readChar horigin hlt hstate
  · intro m ids hmatched
    obtain ⟨hmatch, hle⟩ := h.matched_readChar hmatched
    rw [startPos_readChar, hpos]
    exact ⟨hmatch, hle.trans (Nat.le_succ _)⟩
  · intro hopens hmatched
    exact absurd hopens (h.not_opensWithMatch hmatched)
  · intro f hf
    obtain ⟨hlast, hle, hdelimiter, hunbroken⟩ := h.firstDelimiterPos_readChar hf
    rw [lastMatchPos_readChar, hpos]
    exact ⟨hlast, Nat.lt_succ_of_le hle, hdelimiter.resolve_left (by omega), hunbroken⟩
  · intro hfirst
    obtain ⟨-, hunbroken⟩ := h.firstDelimiterPos_readChar_none hfirst
    rw [lastMatchPos_readChar, hpos]
    exact hunbroken hlt
  · rw [lastMatchPos_readChar, startPos_readChar]
    exact h.beforeStart
  · intro hdelimiter hmatched p hread hlast hp hnewline
    rw [lastMatchPos_readChar] at hlast
    rw [hpos] at hp
    exact h.newline_readChar hstart hdelimiter hmatched hlt hread hlast hp hnewline

/-- The text up to the position that is skipped to. -/
theorem Scanning.plainText_skip (ht : t.WellFormed) (h : Scanning t src opening c)
    (hmatched : c.matched = none) (hfirst : c.firstDelimiterPos = none) {q : Nat}
    (hskip : SkipsTo t src c.pos q) : PlainText t src opening c.lastMatchPos q := by
  refine ⟨fun p hread hlast hp => ?_, fun hdelimiter p hread hlast hp hnewline => ?_⟩
  · rcases Nat.lt_or_ge p c.pos with hlt | hge
    · exact h.unbroken hfirst p hread hlast hlt
    · exact hskip.skipped p hge hp
  · rcases Nat.lt_or_ge p c.pos with hlt | hge
    · obtain ⟨f, hf, -⟩ := h.newline hdelimiter hmatched p hread hlast hlt hnewline
      rw [hfirst] at hf
      cases hf
    · obtain ⟨transition, ids, htransition, -⟩ := ht.newline
      refine hskip.skipped p hge hp ?_
      rw [hnewline, ht.firstChar]
      refine ⟨?_, hdelimiter⟩
      have htransition : t.dfa.transition? t.dfa.getRoot (10 : UInt8).toNat = some transition :=
        htransition
      rw [htransition]
      rfl

/-- The DFA starts again behind the text that is skipped. -/
theorem Scanning.skip (ht : t.WellFormed) (h : Scanning t src opening c)
    (hmatched : (c.readChar t src).matched = none)
    (hfirst : (c.readChar t src).firstDelimiterPos = none) {q : Nat}
    (hskip : SkipsTo t src c.pos q) :
    Scanning t src opening { (c.readChar t src).root t with pos := q, startPos := q } := by
  have hplain := h.plainText_skip ht (matched_of_matched_readChar hmatched)
    (h.firstDelimiterPos_readChar_none hfirst).1 hskip
  have hends : EndsText t src q := by
    rcases Nat.lt_or_eq_of_le hskip.le_size with hlt | heq
    · exact Or.inr (Or.inl (hskip.stops hlt).2)
    · exact Or.inl heq
  have hlast : ({ (c.readChar t src).root t with pos := q, startPos := q } :
      Cursor).lastMatchPos = c.lastMatchPos := lastMatchPos_readChar t src c
  constructor
  · rw [hlast]
    exact (h.last_le.trans h.start_le).trans hskip.le
  · exact Nat.le_refl q
  · exact hskip.le_size
  · refine ⟨_, _, .root (h.not_opensWithMatch hmatched), Nat.le_refl q, ?_⟩
    rw [Source.word_self]
    rfl
  · intro m ids hm
    have hm : (c.readChar t src).matched = some (m, ids) := hm
    rw [hmatched] at hm
    cases hm
  · intro hopens
    exact absurd hopens (h.not_opensWithMatch hmatched)
  · intro f hf
    have hf : (c.readChar t src).firstDelimiterPos = some f := hf
    rw [hfirst] at hf
    cases hf
  · intro _
    rw [hlast]
    exact hplain.unbroken
  · intro _
    rw [hlast]
    exact ⟨hends, hplain⟩
  · intro hdelimiter _ p hread hle hp hnewline
    rw [hlast] at hle
    exact absurd hnewline (hplain.newline hdelimiter p hread hle hp)

/-- A step of the loop keeps its invariant. -/
theorem Scanning.step (ht : t.WellFormed) (h : Scanning t src opening c)
    (hstep : c.step t src = (c', none)) : Scanning t src opening c' := by
  rcases step_cases hstep with ⟨hchar, hstart, rfl⟩ |
    ⟨hstart, ⟨hne, -, rfl⟩ | ⟨-, hmatched, hfirst, -, rfl⟩⟩
  · exact h.startAtNewline ht hchar hstart
  · exact h.readChar hstart hne
  · exact h.skip ht hmatched hfirst (skipTo_spec t h.pos_le)

/-! ## Between two calls -/

/-- A match that is kept for the next call: a match behind the text, or the end
of the input. -/
structure Pending (t : LexerTables) (src : Source) (c : Cursor) (m : Nat) (ids : List Nat) :
    Prop where
  pos : c.pos = m
  last_lt : c.lastMatchPos < c.startPos
  start_le : c.startPos ≤ src.size
  matchAt : MatchAt t src none c.startPos m ids ∨
    m = src.size ∧ c.startPos = src.size ∧ ids = cTokenEndTypes

/-- The end of the last token. -/
def emitted (c : Cursor) : Nat := if c.matched.isSome then c.startPos else c.lastMatchPos

/-- What holds of a cursor between two calls. -/
structure Rested (t : LexerTables) (src : Source) (c : Cursor) : Prop where
  notAsked : c.askedForMoreData = false
  pending : ∀ m ids, c.matched = some (m, ids) → Pending t src c m ids
  idle : c.matched = none →
    c.firstDelimiterPos.getD c.pos = c.lastMatchPos ∧ c.lastMatchPos ≤ src.size

theorem emitted_of_matched {m : Nat} {ids : List Nat} (h : c.matched = some (m, ids)) :
    c.emitted = c.startPos := by
  unfold emitted
  rw [h]
  rfl

theorem emitted_of_none (h : c.matched = none) : c.emitted = c.lastMatchPos := by
  unfold emitted
  rw [h]
  rfl

theorem Rested.emitted_le (h : c.Rested t src) : c.emitted ≤ src.size := by
  cases hmatched : c.matched with
  | none =>
    rw [emitted_of_none hmatched]
    exact (h.idle hmatched).2
  | some pair =>
    rw [emitted_of_matched hmatched]
    exact (h.pending _ _ hmatched).start_le

theorem not_opensWithMatch_none : ¬ OpensWithMatch t src none := by
  rintro ⟨o, ho, -⟩
  cases ho

/-- Behind the first position, the opening does not count. -/
theorem MatchAt.of_pos {s m : Nat} {ids : List Nat} (h : MatchAt t src opening s m ids)
    (hs : 0 < s) : MatchAt t src none s m ids := by
  obtain ⟨⟨base, origin, p, hruns, hle, hrun, hids⟩, hne, hsize, hends⟩ := h
  refine ⟨⟨base, origin, p, ?_, hle, hrun, hids⟩, hne, hsize, hends⟩
  cases hruns with
  | root => exact .root not_opensWithMatch_none
  | opening ho hstart => exact absurd hstart hs.ne'

/-- Text up to the first delimiter. -/
theorem Scanning.lexeme_text (h : Scanning t src opening c)
    (hmatched : (c.readChar t src).matched = none) {f line : Nat}
    (hf : (c.readChar t src).firstDelimiterPos = some f) :
    Lexeme t src opening c.lastMatchPos ⟨c.lastMatchPos, f, line, cTokenUncaughtStringTypes⟩ := by
  obtain ⟨hlast, hle, hends, hunbroken⟩ := h.firstDelimiterPos_readChar hf
  refine .text hlast (hle.trans h.pos_le) ?_ ⟨hunbroken, fun hdelimiter p hread hp hlt hbyte => ?_⟩
  · exact hends.imp_right Or.inl
  · obtain ⟨f', hf', hlt'⟩ := h.newline hdelimiter (matched_of_matched_readChar hmatched) p hread
      hp (by omega) hbyte
    rw [firstDelimiterPos_readChar_of_some hf'] at hf
    cases hf
    omega

/-- A step that returns a token returns a lexeme. -/
theorem Scanning.finish (h : Scanning t src opening c) {span : Span}
    (hstep : c.step t src = (c', some (.ok span))) (hasked : c.askedForMoreData = false) :
    Lexeme t src opening c.lastMatchPos span ∧ c'.Rested t src ∧ span.endPos = c'.emitted := by
  obtain ⟨-, -, hfinishes⟩ := step_ok hstep
  have hnotAsked := (hfinishes.askedForMoreData).trans
    ((askedForMoreData_readChar t src c).trans hasked)
  have hread := @Scanning.matched_readChar _ _ _ _ h
  have hlast := lastMatchPos_readChar t src c
  have hstart := startPos_readChar t src c
  have hpos := pos_readChar t src c
  have hlexeme := @Scanning.lexeme_text _ _ _ _ h
  have hfirst := @Scanning.firstDelimiterPos_readChar _ _ _ _ h
  have hbefore : c.lastMatchPos ≠ c.startPos → c.lastMatchPos < c.startPos :=
    Nat.lt_of_le_of_ne h.last_le
  have hstart_le := h.start_le.trans h.pos_le
  generalize c.readChar t src = d at hfinishes hread hlast hstart hpos hlexeme hfirst
  -- the text before the start of the run
  have htext : ∀ line, d.lastMatchPos ≠ d.startPos →
      Lexeme t src opening c.lastMatchPos
        ⟨d.lastMatchPos, d.startPos, line, cTokenUncaughtStringTypes⟩ := by
    intro line hne
    rw [hlast, hstart] at hne ⊢
    obtain ⟨hends, hplain⟩ := h.beforeStart (hbefore hne)
    exact .text (hbefore hne) hstart_le hends hplain
  cases hfinishes with
  | @beforeMatch m ids hmatched hne =>
    refine ⟨htext _ hne, ⟨hnotAsked, fun m' ids' hmatched' => ?_, fun hnone => ?_⟩, ?_⟩
    · obtain ⟨rfl, rfl⟩ := Prod.mk.inj (Option.some.inj (hmatched.symm.trans hmatched'))
      rw [hlast, hstart] at hne
      have hlt := hbefore hne
      refine ⟨rfl, ?_, ?_, Or.inl ?_⟩
      · show d.lastMatchPos < d.startPos
        rwa [hlast, hstart]
      · show d.startPos ≤ src.size
        rwa [hstart]
      · show MatchAt t src none d.startPos m ids
        rw [hstart]
        exact (hread hmatched).1.of_pos (Nat.zero_lt_of_lt hlt)
    · exact absurd (hmatched.symm.trans hnone) (Option.some_ne_none _)
    · exact Eq.symm (emitted_of_matched hmatched)
  | @«match» m ids hmatched heq =>
    have hmatch := (hread hmatched).1
    rw [hlast, hstart] at heq
    refine ⟨?_, ⟨hnotAsked, fun m' ids' hmatched' => ?_, fun _ => ?_⟩, ?_⟩
    · rw [hstart, heq]
      exact .variable hmatch
    · cases hmatched'
    · exact ⟨rfl, hmatch.le_size⟩
    · exact Eq.symm (emitted_of_none rfl)
  | lastText hmatched hend hpos' hne hnone =>
    have hsize : d.startPos = src.size := by
      rw [← hpos', hpos, hend, if_neg (Nat.lt_irrefl _)]
    refine ⟨htext _ hne, ⟨hnotAsked, fun m' ids' hmatched' => ?_, fun hnone => ?_⟩, ?_⟩
    · obtain ⟨rfl, rfl⟩ := Prod.mk.inj (Option.some.inj hmatched')
      refine ⟨rfl, ?_, hsize.le, Or.inr ⟨hpos'.trans hsize, hsize, rfl⟩⟩
      show d.lastMatchPos < d.startPos
      rw [hlast, hstart] at hne ⊢
      exact hbefore hne
    · cases hnone
    · exact Eq.symm (emitted_of_matched rfl)
  | input hmatched hend hpos' heq =>
    have hsize : c'.startPos = src.size := by
      rw [← hpos', hpos, hend, if_neg (Nat.lt_irrefl _)]
    rw [hlast] at heq
    have hnone : c'.firstDelimiterPos = none := by
      rw [Option.eq_none_iff_forall_ne_some]
      intro f hf
      obtain ⟨hlt, hle, -⟩ := hfirst hf
      omega
    refine ⟨?_, ⟨hnotAsked, fun m ids hsome => ?_, fun _ => ⟨?_, ?_⟩⟩, ?_⟩
    · rw [heq, hpos']
      exact .input hsize
    · exact absurd (hmatched.symm.trans hsome).symm (Option.some_ne_none _)
    · rw [hnone, hlast, heq]
      exact hpos'
    · rw [hlast, heq, hsize]
    · rw [emitted_of_none hmatched, hlast, heq]
      exact hpos'
  | text hmatched hfirst' hne =>
    refine ⟨?_, ⟨hnotAsked, fun m ids hsome => ?_, fun _ => ⟨?_, ?_⟩⟩, ?_⟩
    · rw [hlast]
      exact hlexeme hmatched hfirst'
    · exact absurd (hmatched.symm.trans hsome).symm (Option.some_ne_none _)
    · show d.firstDelimiterPos.getD d.pos = _
      rw [hfirst']
      rfl
    · obtain ⟨-, hle, -⟩ := hfirst hfirst'
      exact hle.trans h.pos_le
    · exact Eq.symm (emitted_of_none hmatched)

/-- The loop returns a lexeme. -/
theorem Scanning.loops (ht : t.WellFormed) (h : Scanning t src opening c) {span : Span}
    (hloops : Loops t src c c' (.ok span)) (hasked : c.askedForMoreData = false) :
    Lexeme t src opening c.lastMatchPos span ∧ c'.Rested t src ∧ span.endPos = c'.emitted := by
  generalize hresult : (Except.ok span : Result) = result at hloops
  induction hloops with
  | stop hstep =>
    rw [← hresult] at hstep
    exact h.finish hstep hasked
  | @next c c' c'' result hstep _ ih =>
    have hnext := h.step ht hstep
    have hlast : c'.lastMatchPos = c.lastMatchPos ∧ c'.askedForMoreData = c.askedForMoreData := by
      rcases step_cases hstep with ⟨-, -, rfl⟩ | ⟨-, ⟨-, -, rfl⟩ | ⟨-, -, -, -, rfl⟩⟩
      · exact ⟨lastMatchPos_readChar t src c, askedForMoreData_readChar t src c⟩
      · exact ⟨lastMatchPos_readChar t src c, askedForMoreData_readChar t src c⟩
      · exact ⟨lastMatchPos_readChar t src c, askedForMoreData_readChar t src c⟩
    rw [← hlast.1]
    exact ih hnext (hlast.2.trans hasked) hresult

/-- The loop starts where the last token ended. -/
theorem Rested.scanning_begin (h : c.Rested t src) (hmatched : c.matched = none) :
    Scanning t src none (c.begin t) := by
  obtain ⟨hpos, hle⟩ := h.idle hmatched
  have hstart : (c.begin t).pos = c.lastMatchPos ∧ (c.begin t).startPos = c.lastMatchPos :=
    ⟨hpos, hpos⟩
  have hlast : (c.begin t).lastMatchPos = c.lastMatchPos := rfl
  have hmatched' : (c.begin t).matched = none := hmatched
  have hfirst : (c.begin t).firstDelimiterPos = none := rfl
  have hstate : (c.begin t).state = some t.dfa.getRoot := rfl
  generalize c.begin t = d at hstart hlast hmatched' hfirst hstate
  obtain ⟨hpos', hstart'⟩ := hstart
  constructor
  · rw [hlast, hstart']
  · rw [hpos', hstart']
  · rw [hpos']
    exact hle
  · refine ⟨_, _, .root not_opensWithMatch_none, ?_, ?_⟩
    · rw [hpos', hstart']
    · rw [hpos', hstart', Source.word_self, hstate]
      rfl
  · intro m ids hm
    rw [hmatched'] at hm
    cases hm
  · intro hopens
    exact absurd hopens not_opensWithMatch_none
  · intro f hf
    rw [hfirst] at hf
    cases hf
  · intro _ p _ hlt hp
    omega
  · intro hlt
    omega
  · intro _ _ p _ hge hp
    omega

/-- A call that returns a token returns a lexeme that starts where the last
token ended. -/
theorem Rested.scans (ht : t.WellFormed) (h : c.Rested t src) {span : Span}
    (hscans : Scans t src c c' (.ok span)) :
    Lexeme t src none c.emitted span ∧ c'.Rested t src ∧ span.endPos = c'.emitted := by
  have hasked : ¬ c.askedForMoreData = true := by
    rw [h.notAsked]
    exact Bool.false_ne_true
  cases hmatched : c.matched with
  | none =>
    rw [scans_of_begin hasked hmatched] at hscans
    rw [emitted_of_none hmatched]
    exact (h.scanning_begin hmatched).loops ht hscans h.notAsked
  | some pair =>
    obtain ⟨m, ids⟩ := pair
    rw [scans_of_matched hasked hmatched] at hscans
    rw [emitted_of_matched hmatched]
    obtain ⟨rfl, hresult⟩ := hscans
    cases hresult
    have hpending := h.pending m ids hmatched
    refine ⟨?_, ⟨h.notAsked, (by intro m ids hm; cases hm), fun _ => ⟨hpending.pos, ?_⟩⟩,
      Eq.symm (emitted_of_none rfl)⟩
    · show Lexeme t src none c.startPos ⟨c.startPos, m, c.matchLine, ids⟩
      rcases hpending.matchAt with hmatch | ⟨rfl, hstart, rfl⟩
      · exact .variable hmatch
      · rw [hstart]
        exact .input rfl
    · rcases hpending.matchAt with hmatch | ⟨hsize, -, -⟩
      · exact hmatch.le_size
      · exact hsize.le

/-- The cursor before the first call on a text. -/
structure Opened (t : LexerTables) (src : Source) (o : Opening) (c : Cursor) : Prop where
  asked : c.askedForMoreData = true
  startPos : c.startPos = 0
  lastMatchPos : c.lastMatchPos = 0
  pos : c.pos = o.offset
  state : c.state = some o.state
  firstDelimiterPos : c.firstDelimiterPos = none
  matched : c.matched = none
  offset_le : o.offset ≤ src.size

theorem Opened.scanning {o : Opening} (h : c.Opened t src o) :
    Scanning t src (some o) { c with askedForMoreData := false } := by
  constructor
  · show c.lastMatchPos ≤ c.startPos
    rw [h.lastMatchPos]
    exact Nat.zero_le _
  · show c.startPos ≤ c.pos
    rw [h.startPos]
    exact Nat.zero_le _
  · show c.pos ≤ src.size
    rw [h.pos]
    exact h.offset_le
  · refine ⟨o.state, o.offset, .opening rfl h.startPos, h.pos.ge, ?_⟩
    show c.state = t.dfa.run o.state (src.word o.offset c.pos)
    rw [h.pos, Source.word_self, h.state]
    rfl
  · intro m ids hm
    have hm : c.matched = some (m, ids) := hm
    rw [h.matched] at hm
    cases hm
  · exact fun _ _ => ⟨o, rfl, h.pos, h.state⟩
  · intro f hf
    have hf : c.firstDelimiterPos = some f := hf
    rw [h.firstDelimiterPos] at hf
    cases hf
  · intro _ p hread _ hp
    have hread : o.offset ≤ p := hread
    have hp : p < c.pos := hp
    rw [h.pos] at hp
    omega
  · intro hlt
    have hlt : c.lastMatchPos < c.startPos := hlt
    rw [h.lastMatchPos, h.startPos] at hlt
    cases hlt
  · intro _ _ p hread _ hp
    have hread : o.offset ≤ p := hread
    have hp : p < c.pos := hp
    rw [h.pos] at hp
    omega

/-- The first token starts at the first position, whatever the offset is. -/
theorem Opened.scans (ht : t.WellFormed) {o : Opening} (h : c.Opened t src o) {span : Span}
    (hscans : Scans t src c c' (.ok span)) :
    Lexeme t src (some o) 0 span ∧ c'.Rested t src ∧ span.endPos = c'.emitted := by
  rw [scans_of_asked h.asked] at hscans
  have hlexeme := h.scanning.loops ht hscans rfl
  have hlast : ({ c with askedForMoreData := false } : Cursor).lastMatchPos = 0 := h.lastMatchPos
  rwa [hlast] at hlexeme

end Cursor

end LogSurgeon
