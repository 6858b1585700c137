import Gsx.Proofs.Lexer.Progress
import Gsx.Proofs.Rendering.Render
/-!
# Where a stream stands

A stream that has read part of a source without any trouble is determined by a
lexer in front of its current token, and that lexer by the text that is left.
What a reader does is then said in terms of texts: it starts at one text, gives
a value and ends at another one.
-/

namespace Gsx.Rendering

open Lexer

variable {source cs cs' : List Char} {l : Lexer} {k : TokenKind} {w : List Char}

/-! ## The front of a text -/

/-- **The front of a text**: behind gaps, and with no comment in between, it
starts with a lexeme of a kind and with a literal, in which nothing is wrong, and
goes on with another text. -/
def Front (cs : List Char) (k : TokenKind) (w cs' : List Char) : Prop :=
  opensComment (cs.dropWhile isGap) = false ∧
    ∃ n, lexemeAt (cs.dropWhile isGap) = .sound k w n ∧ (cs.dropWhile isGap).drop n = cs'

theorem Front.gap {c : Char} (hc : isGap c) (h : Front cs k w cs') : Front (c :: cs) k w cs' := by
  rwa [Front, List.dropWhile_cons_of_pos hc]

/-! ## Lexers -/

/-- **Where a lexer stands** that has met neither a comment nor an error: in front
of a text. -/
structure Stands (source : List Char) (l : Lexer) (cs : List Char) : Prop where
  source_eq : l.source = source
  cursor : l.cursor.IsIn source
  rest_eq : l.cursor.rest = cs
  pending : l.pending = []
  lastCommentLine : l.lastCommentLine = 0
  diagnostics : l.diagnostics = []
  column : 1 ≤ l.cursor.position.column

theorem le_column_next {c : Cursor} (h : 1 ≤ c.position.column) :
    1 ≤ c.next.position.column := by
  unfold Cursor.next
  split
  · simp only
    omega
  · simp only [Cursor.after]
    split
    · exact Int.le_refl _
    · simp only
      omega

theorem le_column_advance {c : Cursor} (h : 1 ≤ c.position.column) (n : Nat) :
    1 ≤ (c.advance n).position.column := by
  induction n generalizing c with
  | zero => exact h
  | succ n ih => exact ih (le_column_next h)

theorem Stands.ofSource (name source : String) :
    Stands source.toList (Lexer.ofSource name source) source.toList :=
  ⟨rfl, .start _, rfl, rfl, rfl, rfl, Int.le_refl _⟩

theorem Stands.step (h : Stands source l cs) (n : Nat) :
    Stands source (l.step n) (cs.drop n) where
  source_eq := h.source_eq
  cursor := h.cursor.advance n
  rest_eq := by rw [Lexer.step, Cursor.rest_advance, h.rest_eq]
  pending := h.pending
  lastCommentLine := h.lastCommentLine
  diagnostics := h.diagnostics
  column := le_column_advance h.column n

theorem Stands.drop_eq (h : Stands source l cs) : source.drop l.cursor.offset = cs := by
  rw [← h.cursor.rest_eq, h.rest_eq]

/-! ## Gaps -/

theorem skipOne?_gap {c : Char} (hc : isGap c) (hr : l.cursor.rest = c :: cs) :
    l.skipOne? = some (l.step 1) := by
  rw [isGap, Bool.or_eq_true, Bool.or_eq_true, beq_iff_eq, beq_iff_eq, beq_iff_eq] at hc
  rw [Lexer.skipOne?, hr]
  rcases hc with (rfl | rfl) | rfl <;> rfl

/-- In front of a gap and behind it a lexer reads the same. -/
theorem next_step {c : Char} (hc : isGap c) (hr : l.cursor.rest = c :: cs) :
    (l.step 1).next = l.next := by
  have htrivia : (l.step 1).skipTrivia = l.skipTrivia := by
    have hrest : (l.step 1).cursor.rest = cs := by
      rw [Lexer.step, Cursor.rest_advance, hr]
      rfl
    rw [Lexer.skipTrivia, Lexer.skipTrivia, hr, hrest, List.length_cons, Lexer.skipUpTo,
      skipOne?_gap hc hr]
  rw [Lexer.next, Lexer.next, htrivia]

theorem skipOne?_eq_none (hgap : cs.head?.any isGap = false)
    (hcomment : opensComment cs = false) (hr : l.cursor.rest = cs) : l.skipOne? = none := by
  rw [Lexer.skipOne?, hr]
  split
  case h_1 | h_2 | h_3 => exact absurd hgap.symm Bool.false_ne_true
  case h_4 | h_5 => exact absurd hcomment.symm Bool.false_ne_true
  case h_6 => rfl

theorem skipTrivia_eq (hgap : cs.head?.any isGap = false) (hcomment : opensComment cs = false)
    (hr : l.cursor.rest = cs) : l.skipTrivia = l := by
  rw [Lexer.skipTrivia]
  cases l.cursor.rest.length with
  | zero => rfl
  | succ n => rw [Lexer.skipUpTo, skipOne?_eq_none hgap hcomment hr]

/-- In front of a lexeme in which nothing is wrong a lexer reads it and moves behind
it. -/
theorem next_eq {n : Nat} (hgap : cs.head?.any isGap = false) (hcomment : opensComment cs = false)
    (hr : l.cursor.rest = cs) (hlexeme : lexemeAt cs = .sound k w n) :
    l.next = (⟨k, String.ofList w, l.cursor.position, l.cursor.offset⟩,
      { l with
        tokenStart := l.cursor.position
        cursor := l.cursor.advance n
        lastCommentLine := if fillsGap k then 0 else l.lastCommentLine }) := by
  simp only [Lexer.next, skipTrivia_eq hgap hcomment hr, Lexer.startToken, hr, hlexeme, Lexer.emit,
    Lexeme.sound]

theorem column_step {c : Char} (hc : isGap c) (hr : l.cursor.rest = c :: cs) :
    (l.step 1).cursor.position.column = l.cursor.position.column + 1 := by
  have hline : c ≠ '\n' := by
    rintro rfl
    exact absurd hc Bool.false_ne_true
  change l.cursor.next.position.column = _
  rw [Cursor.next, hr]
  simp only [Cursor.after, if_neg hline]

/-- **Every lexer in front of gaps has one behind them** that reads the same, in a
column further to the right. -/
theorem Stands.behindGaps (h : Stands source l cs) :
    ∃ l', Stands source l' (cs.dropWhile isGap) ∧ l'.next = l.next
      ∧ l.cursor.position.column ≤ l'.cursor.position.column
      ∧ (cs.head?.any isGap → l.cursor.position.column < l'.cursor.position.column) := by
  induction cs generalizing l with
  | nil => exact ⟨l, h, rfl, Int.le_refl _, nofun⟩
  | cons c cs ih =>
    cases hc : isGap c with
    | false =>
      rw [List.dropWhile_cons_of_neg (by simp [hc])]
      refine ⟨l, h, rfl, Int.le_refl _, fun hgap => ?_⟩
      exact absurd (hc.symm.trans hgap) Bool.false_ne_true
    | true =>
      rw [List.dropWhile_cons_of_pos hc]
      -- behind one gap the lexer reads the same, and a column has been gained
      obtain ⟨l', hl', hnext, hle, -⟩ := ih (h.step 1)
      have hcolumn := column_step hc h.rest_eq
      exact ⟨l', hl', hnext.trans (next_step hc h.rest_eq), by omega, fun _ => by omega⟩

/-! ## Tokens -/

/-- A token that is the front of a text: its kind, its literal and where it stands. -/
structure IsAt (source cs : List Char) (k : TokenKind) (w : List Char) (t : Token) : Prop where
  kind : t.kind = k
  literal : t.literal = String.ofList w
  drop_eq : source.drop t.start = cs.dropWhile isGap
  start_le : t.start ≤ source.length
  column : cs.head?.any isGap → 1 < t.position.column

/-- **Reading a token** off the front of a text. -/
theorem Stands.next (h : Stands source l cs) (hf : Front cs k w cs') :
    IsAt source cs k w l.next.1 ∧ Stands source l.next.2 cs' := by
  obtain ⟨hcomment, n, hlexeme, rfl⟩ := hf
  obtain ⟨l', hl', hnext, -, hcolumn⟩ := h.behindGaps
  have hgap : (cs.dropWhile isGap).head?.any isGap = false := by
    have := List.head?_dropWhile_not isGap cs
    cases hd : (cs.dropWhile isGap).head? with
    | none => rfl
    | some c =>
      rw [hd] at this
      exact this
  -- behind the gaps nothing is skipped, and the lexeme there is read without a fault
  rw [← hnext, next_eq hgap hcomment hl'.rest_eq hlexeme]
  refine ⟨⟨rfl, rfl, hl'.drop_eq, hl'.cursor.offset_le, fun hc => ?_⟩, ?_⟩
  · have := hcolumn hc
    have := h.column
    simp only
    omega
  · have := hl'.step n
    refine ⟨this.source_eq, this.cursor, this.rest_eq, this.pending, ?_, this.diagnostics,
      this.column⟩
    simp only [hl'.lastCommentLine, ite_self]

/-! ## Streams -/

/-- The stream of a lexer that has just been placed. -/
def ofLexer (l : Lexer) : TokenStream :=
  ⟨l.next.2.next.2, l.next.1, l.next.2.next.1, [], [], [], none, false⟩

/-- **Where a stream stands** that has met no trouble: in front of a text, whose
first token is the current one. -/
def At (source cs : List Char) (s : TokenStream) : Prop :=
  ∃ l, Stands source l cs ∧ s = ofLexer l

theorem at_ofSource (name source : String) :
    At source.toList source.toList (.ofSource name source) :=
  ⟨_, .ofSource name source, rfl⟩

variable {s : TokenStream}

theorem At.current (h : At source cs s) (hf : Front cs k w cs') : IsAt source cs k w s.current := by
  obtain ⟨l, hl, rfl⟩ := h
  exact (hl.next hf).1

theorem At.advanced (h : At source cs s) (hf : Front cs k w cs') : At source cs' s.advanced := by
  obtain ⟨l, hl, rfl⟩ := h
  exact ⟨l.next.2, (hl.next hf).2, rfl⟩

/-- In front of a gap and behind it a stream stands the same. -/
theorem At.gap {c : Char} (hc : isGap c) (h : At source (c :: cs) s) : At source cs s := by
  obtain ⟨l, hl, rfl⟩ := h
  refine ⟨l.step 1, hl.step 1, ?_⟩
  rw [ofLexer, ofLexer, next_step hc hl.rest_eq]

theorem At.source_eq (h : At source cs s) : s.lexer.source = source := by
  obtain ⟨l, hl, rfl⟩ := h
  have hr := reads_next (hl.source_eq ▸ hl.cursor)
  have hr' := reads_next (hr.source_eq ▸ hr.cursor)
  exact (hr'.source_eq.trans hr.source_eq).trans hl.source_eq

theorem At.length_le (h : At source cs s) : cs.length ≤ source.length := by
  obtain ⟨l, hl, rfl⟩ := h
  rw [← hl.drop_eq, List.length_drop]
  exact Nat.sub_le _ _

/-! ## Quiet texts -/

/-- A text whose first tokens are there without any trouble. -/
def Quiet : Nat → List Char → Prop
  | 0, _ => True
  | n + 1, cs => ∃ k w cs', Front cs k w cs' ∧ Quiet n cs'

/-- In front of a quiet text the lexer has met no trouble by looking ahead. -/
theorem At.exists_stands (h : At source cs s) (hq : Quiet 2 cs) :
    ∃ cs', Stands source s.lexer cs' := by
  obtain ⟨l, hl, rfl⟩ := h
  obtain ⟨_, _, _, hf, _, _, _, hf', -⟩ := hq
  exact ⟨_, ((hl.next hf).2.next hf').2⟩

/-- In front of a quiet text nothing has been found by looking ahead. -/
theorem At.quiet (h : At source cs s) (hq : Quiet 2 cs) :
    s.lexer.pending = [] ∧ s.lexer.diagnostics = [] := by
  obtain ⟨_, hl⟩ := h.exists_stands hq
  exact ⟨hl.pending, hl.diagnostics⟩

/-! ## Texts made of lexemes -/

/-- **A text made of lexemes**, with gaps between them. -/
inductive Spells : List Char → List Lexeme → Prop
  | nil : Spells [] []
  | gap {c : Char} {rest : List Char} {xs : List Lexeme} (hc : isGap c) (h : Spells rest xs) :
      Spells (c :: rest) xs
  | lexeme {c : Char} {rest : List Char} {xs : List Lexeme} (hc : isGap c = false)
      (hcomment : opensComment (c :: rest) = false) (hfault : (Lexeme.read c rest).fault = none)
      (h : Spells ((c :: rest).drop (Lexeme.read c rest).steps) xs) :
      Spells (c :: rest) (Lexeme.read c rest :: xs)

theorem spells_of_lexemesUpTo {fuel : Nat} {xs : List Lexeme}
    (h : lexemesUpTo fuel cs = some xs) : Spells cs xs := by
  induction fuel generalizing cs xs with
  | zero =>
    cases cs with
    | nil =>
      cases h
      exact .nil
    | cons c rest => cases h
  | succ fuel ih =>
    cases cs with
    | nil =>
      cases h
      exact .nil
    | cons c rest =>
      rw [lexemesUpTo] at h
      cases hc : isGap c with
      | true =>
        rw [hc, if_pos rfl] at h
        exact .gap hc (ih h)
      | false =>
        rw [hc, if_neg (by decide)] at h
        split at h
        · cases h
        · next hsound =>
          rw [Bool.or_eq_true, not_or, Bool.not_eq_true, Bool.not_eq_true,
            Option.isSome_eq_false_iff, Option.isNone_iff_eq_none] at hsound
          obtain ⟨xs, hxs, rfl⟩ := Option.map_eq_some_iff.1 h
          exact .lexeme hc hsound.1 hsound.2 (ih hxs)

theorem spells_of_lexemes? {xs : List Lexeme} (h : lexemes? cs = some xs) : Spells cs xs :=
  spells_of_lexemesUpTo h

theorem Spells.length_le {xs : List Lexeme} (h : Spells cs xs) : xs.length ≤ cs.length := by
  induction h with
  | nil => exact Nat.le_refl _
  | gap _ _ ih => exact Nat.le_succ_of_le ih
  | @lexeme c rest xs _ _ _ _ ih =>
    -- a lexeme takes at least one character, whatever its literal is
    have hpos := (Lexeme.isProper_read c rest).steps_pos
    rw [List.length_drop] at ih
    simp only [List.length_cons] at ih ⊢
    omega

theorem opensComment_append {d : Char} (hd : isDelimiter d) (h : opensComment cs = false)
    (rest : List Char) : opensComment (cs ++ d :: rest) = false := by
  match cs with
  | [] => rcases isDelimiter_cases hd with rfl | rfl | rfl | rfl | rfl <;> rfl
  | [c] =>
    by_cases hc : c = '/'
    · subst hc
      rcases isDelimiter_cases hd with rfl | rfl | rfl | rfl | rfl <;> rfl
    · simp [opensComment, hc]
  | c :: c' :: cs =>
    by_cases hc : c = '/'
    · subst hc
      exact h
    · simp [opensComment, hc]

/-- A lexeme is the front of its text whatever comes behind a delimiter. -/
theorem front_lexeme {c d : Char} {rest : List Char} (hc : isGap c = false)
    (hcomment : opensComment (c :: cs) = false) (hfault : (Lexeme.read c cs).fault = none)
    (hd : isDelimiter d) :
    Front (c :: cs ++ d :: rest) (Lexeme.read c cs).kind (Lexeme.read c cs).literal
      ((c :: cs).drop (Lexeme.read c cs).steps ++ d :: rest) := by
  have hgap : (c :: cs ++ d :: rest).dropWhile isGap = c :: cs ++ d :: rest :=
    List.dropWhile_cons_of_neg (by simp [hc])
  have hsteps := Lexeme.steps_read_le hfault
  rw [Front, hgap]
  refine ⟨opensComment_append hd hcomment rest, (Lexeme.read c cs).steps, ?_, ?_⟩
  · change Lexeme.read c (cs ++ d :: rest) = _
    rw [Lexeme.read_append hfault hd]
    rcases hx : Lexeme.read c cs with ⟨k, w, n, f⟩
    rw [hx] at hfault
    cases hfault
    rfl
  · exact List.drop_append_of_le_length hsteps

theorem Quiet.of_succ {n : Nat} (h : Quiet (n + 1) cs) : Quiet n cs := by
  induction n generalizing cs with
  | zero => exact trivial
  | succ n ih =>
    obtain ⟨k, w, cs', hf, hq⟩ := h
    exact ⟨k, w, cs', hf, ih hq⟩

theorem Quiet.gap {n : Nat} {c : Char} (hc : isGap c) (h : Quiet n cs) : Quiet n (c :: cs) := by
  cases n with
  | zero => exact trivial
  | succ n =>
    obtain ⟨k, w, cs', hf, hq⟩ := h
    exact ⟨k, w, cs', hf.gap hc, hq⟩

theorem quiet_spells {d : Char} {rest : List Char} {xs : List Lexeme} {n : Nat}
    (h : Spells cs xs) (hd : isDelimiter d) (hq : Quiet n (d :: rest)) :
    Quiet n (cs ++ d :: rest) := by
  induction h generalizing n with
  | nil => exact hq
  | gap hc _ ih => exact (ih hq).gap hc
  | lexeme hc hcomment hfault _ ih =>
    cases n with
    | zero => exact trivial
    | succ n => exact ⟨_, _, _, front_lexeme hc hcomment hfault hd, ih hq.of_succ⟩

end Gsx.Rendering
