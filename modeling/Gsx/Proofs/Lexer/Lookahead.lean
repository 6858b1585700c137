import Gsx.Proofs.Lexer.Gaps
import Gsx.Proofs.Lexer.Progress
import Gsx.Proofs.Lexer.Scanners
/-!
# Looking ahead before the text between braces

Whoever asks for the text between braces has read one token behind the opening
brace by then, and reading goes back to the brace. Going back undoes the place
of the cursor and the comments of the token that was looked at. It does not undo
the errors in that token, nor that the last thing read was a comment.
-/

namespace Gsx

namespace Lexer

/-! ## Lexers that go on alike -/

/-- A comment as far as it counts: with the note on the blank line before it, or
without. -/
def shownComment (gaps : Bool) (c : Comment) : Comment :=
  if gaps then c else { c with blankBefore := false }

/-- An answer as far as it counts. -/
def Answer.shown (gaps : Bool) : Answer → Answer
  | .comments cs => .comments (cs.map (shownComment gaps))
  | .token t => .token t
  | .text s => .text s
  | .failure f => .failure f

/-- **Two lexers that go on alike** since they had the errors `d` and `d'`: they
are at one place of one source, with the same comments and the same errors
found since. If the blank lines before comments count, both know the same of the
last comment. -/
structure Abreast (gaps : Bool) (d d' : List Diagnostic) (l l' : Lexer) : Prop where
  name_eq : l'.name = l.name
  source_eq : l'.source = l.source
  cursor_eq : l'.cursor = l.cursor
  pending_eq : l'.pending.map (shownComment gaps) = l.pending.map (shownComment gaps)
  line_eq : gaps = true → l'.lastCommentLine = l.lastCommentLine
  diagnostics_eq : ∃ found, l.diagnostics = d ++ found ∧ l'.diagnostics = d' ++ found

variable {gaps : Bool} {d d' : List Diagnostic} {l l' : Lexer}

theorem shownComment_true : shownComment true = id := by
  funext c
  rfl

theorem Answer.shown_true : Answer.shown true = id := by
  funext a
  cases a with
  | comments cs => exact congrArg Answer.comments (by rw [shownComment_true, List.map_id])
  | token | text | failure => rfl

theorem offset_shownComment (c : Comment) : (shownComment gaps c).offset = c.offset := by
  cases gaps <;> rfl

namespace Abreast

theorem step (h : Abreast gaps d d' l l') (n : Nat) : Abreast gaps d d' (l.step n) (l'.step n) :=
  ⟨h.name_eq, h.source_eq, congrArg (·.advance n) h.cursor_eq, h.pending_eq, h.line_eq,
    h.diagnostics_eq⟩

theorem report (h : Abreast gaps d d' l l') (p : Position) (f : LexicalFault) :
    Abreast gaps d d' (l.report p f) (l'.report p f) := by
  obtain ⟨found, hfound, hfound'⟩ := h.diagnostics_eq
  refine ⟨h.name_eq, h.source_eq, h.cursor_eq, h.pending_eq, h.line_eq,
    found ++ [.error l.name p f.message], ?_, ?_⟩
  · rw [Lexer.report, hfound, List.append_assoc]
  · rw [Lexer.report, hfound', List.append_assoc, h.name_eq]

theorem startToken (h : Abreast gaps d d' l l') :
    Abreast gaps d d' l.startToken l'.startToken :=
  ⟨h.name_eq, h.source_eq, h.cursor_eq, h.pending_eq, h.line_eq, h.diagnostics_eq⟩

/-- The last pending comment tells whether a blank line stands before the next
one; where none is pending, the last line of a comment does. -/
theorem isAfterBlankLine_eq (h : Abreast true d d' l l') (line : Nat) :
    l'.isAfterBlankLine line = l.isAfterBlankLine line := by
  have hpending := h.pending_eq
  rw [shownComment_true, List.map_id, List.map_id] at hpending
  rw [isAfterBlankLine, isAfterBlankLine, hpending, h.line_eq rfl]

theorem collect (h : Abreast gaps d d' l l') (isBlock : Bool) (n : Nat) :
    Abreast gaps d d' (l.collect isBlock n) (l'.collect isBlock n) := by
  refine ⟨h.name_eq, h.source_eq, congrArg (·.advance n) h.cursor_eq, ?_, fun _ => ?_,
    h.diagnostics_eq⟩
  · simp only [Lexer.collect, List.map_append, h.pending_eq, h.cursor_eq]
    cases gaps with
    | false => rfl
    | true => rw [h.isAfterBlankLine_eq]
  · simp only [Lexer.collect, h.cursor_eq]

/-- One move over blanks or a comment. -/
theorem skipOne? (h : Abreast gaps d d' l l') :
    Option.Rel (Abreast gaps d d') l.skipOne? l'.skipOne? :=
  rel_skipOne? (congrArg Cursor.rest h.cursor_eq) h.step (fun isBlock n _ _ => h.collect isBlock n)
    fun n => h.cursor_eq ▸ (h.report _ _).step n

theorem skipUpTo (h : Abreast gaps d d' l l') (fuel : Nat) :
    Abreast gaps d d' (Lexer.skipUpTo fuel l) (Lexer.skipUpTo fuel l') :=
  rel_skipUpTo skipOne? h fuel

theorem skipTrivia (h : Abreast gaps d d' l l') : Abreast gaps d d' l.skipTrivia l'.skipTrivia := by
  rw [Lexer.skipTrivia, Lexer.skipTrivia, h.cursor_eq]
  exact h.skipUpTo _

/-- Reading a lexeme at its marked start. -/
theorem emit (h : Abreast gaps d d' l l') (hstart : l'.tokenStart = l.tokenStart) (x : Lexeme) :
    (l'.emit x).1 = (l.emit x).1 ∧ Abreast gaps d d' (l.emit x).2 (l'.emit x).2 := by
  refine ⟨by rw [Lexer.emit, Lexer.emit, hstart, h.cursor_eq], ?_⟩
  have hcursor : l'.cursor.advance x.steps = l.cursor.advance x.steps :=
    congrArg (·.advance x.steps) h.cursor_eq
  rw [Lexer.emit, Lexer.emit]
  -- a lexeme reports at most one error, where it starts
  cases x.fault with
  | none =>
    refine ⟨h.name_eq, h.source_eq, hcursor, h.pending_eq, fun hgaps => ?_, h.diagnostics_eq⟩
    simp only [h.line_eq hgaps]
  | some f =>
    have hreported : Abreast gaps d d' (l.reportHere f) (l'.reportHere f) := by
      simp only [reportHere, hstart]
      exact h.report _ f
    refine ⟨hreported.name_eq, hreported.source_eq, hcursor, hreported.pending_eq,
      fun hgaps => ?_, hreported.diagnostics_eq⟩
    simp only [h.line_eq hgaps]

/-- **One token.** -/
theorem next (h : Abreast gaps d d' l l') :
    l'.next.1 = l.next.1 ∧ Abreast gaps d d' l.next.2 l'.next.2 := by
  have hstart := h.skipTrivia.startToken
  have hcursor : l'.skipTrivia.startToken.cursor = l.skipTrivia.startToken.cursor :=
    hstart.cursor_eq
  have hemit := hstart.emit (congrArg Cursor.position hcursor)
    (lexemeAt l.skipTrivia.startToken.cursor.rest)
  rw [Lexer.next, Lexer.next, hcursor]
  exact hemit

theorem reportAll (h : Abreast gaps d d' l l') (hstart : l'.tokenStart = l.tokenStart)
    (fs : List LexicalFault) :
    Abreast gaps d d' (fs.foldl reportHere l) (fs.foldl reportHere l')
      ∧ (fs.foldl reportHere l').tokenStart = (fs.foldl reportHere l).tokenStart := by
  induction fs generalizing l l' with
  | nil => exact ⟨h, hstart⟩
  | cons f fs ih =>
    refine ih ?_ hstart
    rw [reportHere, reportHere, hstart]
    exact h.report _ f

/-- **One expression.** -/
theorem readExpression (h : Abreast gaps d d' l l') :
    l'.readExpression.1 = l.readExpression.1
      ∧ Abreast gaps d d' l.readExpression.2 l'.readExpression.2 := by
  obtain ⟨hreported, hstart⟩ := h.startToken.reportAll (congrArg Cursor.position h.cursor_eq)
    (bracketFaults l.cursor.rest)
  have hemit := hreported.emit hstart (expressionLexeme
    ((bracketFaults l.cursor.rest).foldl reportHere l.startToken).cursor.rest)
  have hcursor : l'.startToken.cursor = l.startToken.cursor := h.cursor_eq
  rw [← hreported.cursor_eq] at hemit
  rw [Lexer.readExpression, Lexer.readExpression, hcursor]
  have hreported' : ((bracketFaults l.cursor.rest).foldl reportHere l'.startToken).cursor
      = ((bracketFaults l.cursor.rest).foldl reportHere l.startToken).cursor :=
    hreported.cursor_eq
  simp only [Lexer.startToken] at hemit hreported' ⊢
  rw [hreported'] at hemit ⊢
  exact hemit

/-- The comments before an offset. -/
theorem filter_eq (h : Abreast gaps d d' l l') (start : Nat) :
    (l'.pending.filter (·.offset < start)).map (shownComment gaps)
      = (l.pending.filter (·.offset < start)).map (shownComment gaps) := by
  have hshown : ((fun c : Comment => decide (c.offset < start)) ∘ shownComment gaps)
      = fun c => decide (c.offset < start) := by
    funext c
    simp only [Function.comp_apply, offset_shownComment]
  have hfilter := congrArg (List.filter fun c => c.offset < start) h.pending_eq
  rw [List.filter_map, List.filter_map, hshown] at hfilter
  exact hfilter

/-- **Text between braces.** The braces are looked for in the source alone. -/
theorem answer_braces (h : Abreast gaps d d' l l') (start : Int) :
    (l'.answer (.braces start)).1.shown gaps = (l.answer (.braces start)).1.shown gaps
      ∧ Abreast gaps d d' (l.answer (.braces start)).2 (l'.answer (.braces start)).2 := by
  by_cases hnone : start < 0 ∨ l.source[start.toNat]? ≠ some '{'
  · rw [answer_braces_of_no_brace hnone, answer_braces_of_no_brace (h.source_eq ▸ hnone)]
    exact ⟨rfl, h⟩
  · rw [not_or, Decidable.not_not, Int.not_lt] at hnone
    obtain ⟨hpos, hbrace⟩ := hnone
    obtain ⟨p, rfl⟩ := Int.eq_ofNat_of_zero_le hpos
    obtain ⟨rest, hp⟩ : ∃ rest, l.source.drop p = '{' :: rest := by
      rw [← List.head?_drop] at hbrace
      exact List.head?_eq_some_iff.1 hbrace
    have hp' : l'.source.drop p = '{' :: rest := h.source_eq ▸ hp
    cases hclosing : Braces.closing? rest with
    | none =>
      rw [answer_braces_of_not_closed hp hclosing, answer_braces_of_not_closed hp' hclosing]
      exact ⟨rfl, h⟩
    | some n =>
      simp only [Lexer.answer, readBraces_of_closing? hp hclosing,
        readBraces_of_closing? hp' hclosing]
      exact ⟨trivial, h.name_eq, h.source_eq, by rw [h.source_eq], h.filter_eq p, h.line_eq,
        h.diagnostics_eq⟩

/-- **One call.** -/
theorem answer (h : Abreast gaps d d' l l') (call : Call) :
    (l'.answer call).1.shown gaps = (l.answer call).1.shown gaps
      ∧ Abreast gaps d d' (l.answer call).2 (l'.answer call).2 := by
  cases call with
  | next => exact ⟨congrArg (fun t => (Answer.token t).shown gaps) h.next.1, h.next.2⟩
  | expression =>
    exact ⟨congrArg (fun t => (Answer.token t).shown gaps) h.readExpression.1,
      h.readExpression.2⟩
  | comments =>
    exact ⟨congrArg Answer.comments h.pending_eq, h.name_eq, h.source_eq, h.cursor_eq, rfl,
      h.line_eq, h.diagnostics_eq⟩
  | range start stop =>
    refine ⟨?_, h⟩
    simp only [Lexer.answer, sourceRange, slice, h.source_eq]
  | braces start => exact h.answer_braces start

/-- **Any calls**: what is answered is the same as far as it counts. -/
theorem run (h : Abreast gaps d d' l l') (calls : List Call) :
    (Lexer.run calls l').1.map (·.shown gaps) = (Lexer.run calls l).1.map (·.shown gaps)
      ∧ Abreast gaps d d' (Lexer.run calls l).2 (Lexer.run calls l').2 := by
  induction calls generalizing l l' with
  | nil => exact ⟨rfl, h⟩
  | cons call calls ih =>
    obtain ⟨hanswer, hafter⟩ := h.answer call
    obtain ⟨hanswers, hrun⟩ := ih hafter
    exact ⟨List.cons_eq_cons.2 ⟨hanswer, hanswers⟩, hrun⟩

end Abreast

/-! ## Going back to the brace -/

/-- The note on the last comment changes only with a token that fills the gap or
with a comment. -/
theorem lastCommentLine_next (h : l.cursor.IsIn l.source) (hzero : l.lastCommentLine = 0)
    (hquiet : fillsGap l.next.1.kind ∨ l.next.2.pending = l.pending) :
    l.next.2.lastCommentLine = 0 := by
  obtain ⟨-, -, hpending, -⟩ := emit_spec l.skipTrivia.startToken
    (lexemeAt l.skipTrivia.cursor.rest)
  change (if fillsGap l.next.1.kind then 0 else l.skipTrivia.lastCommentLine) = 0
  split
  · rfl
  · next hfills =>
    have hsame : l.skipTrivia.pending = l.pending :=
      hpending.symm.trans (hquiet.resolve_left hfills)
    exact ((Crosses.skipTrivia h).quiet hsame).trans hzero

/-- The comments of the token that was looked at go away with it. -/
theorem filter_lookahead (h : l.cursor.IsIn l.source) :
    l.next.2.next.2.pending.filter (·.offset < l.next.1.start)
      = l.next.2.pending.filter (·.offset < l.next.1.start) := by
  have hreads := reads_next h
  obtain ⟨cs, hcs, hrow⟩ := (grows_next (hreads.source_eq ▸ hreads.cursor)).pending
  have hstart : l.next.1.start ≤ l.next.2.cursor.offset := hreads.start_le
  have hnone : cs.filter (·.offset < l.next.1.start) = [] := by
    refine List.filter_eq_nil_iff.2 fun c hc hlt => ?_
    have hoffset := (hrow.of_mem hc).1
    have hlt : c.offset < l.next.1.start := of_decide_eq_true hlt
    omega
  rw [hcs, List.filter_append, hnone, List.append_nil]

/-- The lexer that has looked ahead goes on like the one that has not. -/
theorem abreast_readBraces (h : l.cursor.IsIn l.source) {code : String} {m : Lexer}
    (hread : l.next.2.readBraces l.next.1.start = .ok (code, m)) :
    ∃ m', l.next.2.next.2.readBraces l.next.1.start = .ok (code, m')
      ∧ m.diagnostics = l.next.2.diagnostics ∧ m'.diagnostics = l.next.2.next.2.diagnostics
      ∧ m'.pending = m.pending
      ∧ ∀ gaps, (gaps = true → l.next.2.next.2.lastCommentLine = l.next.2.lastCommentLine) →
        Abreast gaps m.diagnostics m'.diagnostics m m' := by
  obtain ⟨cs, n, hp, hclosing, rfl, rfl⟩ := exists_of_readBraces hread
  have hreads := reads_next h
  have hgrows := grows_next (hreads.source_eq ▸ hreads.cursor)
  have hsource : l.next.2.next.2.source = l.next.2.source := hgrows.source_eq
  have hpending := filter_lookahead h
  refine ⟨_, readBraces_of_closing? (hsource ▸ hp) hclosing, rfl, rfl, hpending,
    fun gaps hline => ?_⟩
  exact ⟨hgrows.name_eq, hsource, by rw [hsource], by rw [hpending], hline,
    [], (List.append_nil _).symm, (List.append_nil _).symm⟩

/-- **Going back to a brace undoes the token that was looked at, but for its
errors.** Take a lexer after any calls and the opening brace that it reads next,
and let the braces be closed. Whether or not one more token has been read before
the text between the braces is asked for, the text is the same, and the cursor
and the pending comments are the same after it. The errors found by looking
ahead stay, and nothing else is added to them. From there on all calls have the
same answers and find the same errors, except that the two may not agree on the
blank lines before comments. They do agree on those too if the token that was
looked at fills the gap between comments, or no comment stands in front of it.
So without errors in that token, and with the gap as it was, nothing tells the
two apart. -/
theorem braces_undo_lookahead (name source : String) (calls : List Call) :
    let before := (run calls (ofSource name source)).2
    let brace := before.next.1
    let behind := before.next.2
    let ahead := behind.next.2
    ∀ code m, brace.kind = .leftBrace → behind.readBraces brace.start = .ok (code, m) →
      ∃ m', ahead.readBraces brace.start = .ok (code, m')
        ∧ m'.cursor = m.cursor ∧ m'.pending = m.pending
        ∧ (∃ found, ahead.diagnostics = behind.diagnostics ++ found
          ∧ m.diagnostics = behind.diagnostics ∧ m'.diagnostics = m.diagnostics ++ found)
        ∧ (∀ more, (run more m').1.map (·.shown false) = (run more m).1.map (·.shown false)
          ∧ ∃ found, (run more m).2.diagnostics = m.diagnostics ++ found
            ∧ (run more m').2.diagnostics = m'.diagnostics ++ found)
        ∧ (fillsGap behind.next.1.kind ∨ ahead.pending = behind.pending →
          ∀ more, (run more m').1 = (run more m).1)
        ∧ (fillsGap behind.next.1.kind ∨ ahead.pending = behind.pending →
          ahead.diagnostics = behind.diagnostics →
          ∀ more, (run more m').2.diagnostics = (run more m).2.diagnostics) := by
  intro before brace behind ahead code m hkind hread
  have hplaced := ((placed_ofSource name source).run calls).2
  have hbefore : before.cursor.IsIn before.source := hplaced.source_eq ▸ hplaced.cursor
  have hreads := reads_next hbefore
  have hbehind : behind.cursor.IsIn behind.source := hreads.source_eq ▸ hreads.cursor
  obtain ⟨m', hread', hm, hm', hpending, habreast⟩ := abreast_readBraces hbefore hread
  obtain ⟨found, hfound, -⟩ := (grows_next hbehind).diagnostics
  -- the brace fills the gap before it, and what follows leaves it filled
  have hline : fillsGap behind.next.1.kind ∨ ahead.pending = behind.pending →
      ahead.lastCommentLine = behind.lastCommentLine := fun hquiet => by
    have hzero : behind.lastCommentLine = 0 := by
      change (if fillsGap brace.kind then 0 else _) = 0
      rw [hkind]
      rfl
    exact (lastCommentLine_next hbehind hzero hquiet).trans hzero.symm
  have hrun : fillsGap behind.next.1.kind ∨ ahead.pending = behind.pending → ∀ more,
      (run more m').1 = (run more m).1
        ∧ Abreast true m.diagnostics m'.diagnostics (run more m).2 (run more m').2 :=
    fun hquiet more => by
      obtain ⟨hanswers, hafter⟩ := (habreast true fun _ => hline hquiet).run more
      rw [Answer.shown_true, List.map_id, List.map_id] at hanswers
      exact ⟨hanswers, hafter⟩
  refine ⟨m', hread', (habreast false nofun).cursor_eq, hpending, ⟨found, hfound, hm, ?_⟩,
    fun more => ?_, fun hquiet more => (hrun hquiet more).1, fun hquiet hsame more => ?_⟩
  · rw [hm', hm]
    exact hfound
  · obtain ⟨hanswers, hafter⟩ := (habreast false nofun).run more
    exact ⟨hanswers, hafter.diagnostics_eq⟩
  · obtain ⟨later, hlater, hlater'⟩ := (hrun hquiet more).2.diagnostics_eq
    rw [hlater, hlater', hm, hm']
    exact congrArg (· ++ later) hsame

/-- A rune between braces whose escape the lexer does not know. -/
def hexRune : String := "\x7b'\\x41' - 'a'\x7d"

/-- The error that was found by looking ahead stays. -/
theorem braces_undo_lookahead_rune :
    let behind := (ofSource "" hexRune).next.2
    ∃ m m', behind.readBraces 0 = .ok ("'\\x41' - 'a'", m)
      ∧ behind.next.2.readBraces 0 = .ok ("'\\x41' - 'a'", m')
      ∧ m'.cursor = m.cursor ∧ m'.pending = m.pending
      ∧ m.diagnostics = []
      ∧ m'.diagnostics = [.error "" ⟨1, 2⟩ LexicalFault.unterminatedRune.message] := by
  intro behind
  have hbrace : behind.source.drop 0 = '\x7b' :: hexRune.toList.drop 1 := by decide
  have hclosing : Braces.closing? (hexRune.toList.drop 1) = some 12 := by decide
  obtain ⟨m, hread⟩ : ∃ m, behind.readBraces 0 = .ok ("'\\x41' - 'a'", m) :=
    ⟨_, readBraces_of_closing? hbrace hclosing⟩
  obtain ⟨m', hread', hcursor, hpending, ⟨found, hfound, hm, hm'⟩, -⟩ :=
    braces_undo_lookahead "" hexRune [] _ m rfl hread
  have hahead : behind.next.2.diagnostics
      = [.error "" ⟨1, 2⟩ LexicalFault.unterminatedRune.message] := by decide
  refine ⟨m, m', hread, hread', hcursor, hpending, hm, ?_⟩
  rw [hm', hm, ← hahead]
  exact hfound.symm

end Lexer

end Gsx
