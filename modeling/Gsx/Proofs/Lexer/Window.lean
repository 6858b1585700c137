import Mathlib.Data.List.Forall2
import Gsx.Proofs.Lexer.Closing
import Gsx.Proofs.Lexer.Locality
import Gsx.Proofs.Lexer.Progress
/-!
# A text in its place

A `Window` is a text with what stands before and after it in a source. Reading
the text as a source of its own and reading it in its place go alike: the
cursor of one lexer is that of the other moved, by `Window.place` and by the
length of what stands before. This holds as long as reading stays within the
text. Nothing in a text that ends with a line end makes a token of it look
beyond, unless there is something wrong with the token; so what is asked of the
text is that reading it alone finds nothing wrong.
-/

namespace Gsx

/-- **A text in its place**: what stands before it and after it in a source.
Unless the text goes up to the end of the source, it ends with a line end; and
so does what stands before it. -/
structure Window where
  before : List Char
  text : List Char
  after : List Char
  /-- Whether the text goes up to the end of the source. -/
  whole : Bool
  /-- Whether no comment from before the text is left to be claimed in it. -/
  tidy : Bool
  /-- The messages about what stands before the text. -/
  notes : List String
  before_line : before = [] ∨ ∃ cs, before = cs ++ ['\n']
  text_line : whole = false → ∃ cs, text = cs ++ ['\n']
  after_eq : whole = true → after = []

namespace Window

variable (o : Window)

/-- The source that the text is part of. -/
def source : List Char := o.before ++ (o.text ++ o.after)

/-- A position of the text, in its place. -/
def place (p : Position) : Position :=
  ⟨p.line + o.before.count '\n', p.column⟩

/-- A token of the text, in its place. -/
def token (t : Token) : Token :=
  ⟨t.kind, t.literal, o.place t.position, o.before.length + t.start⟩

/-- A line of the text, in its place. There is no line zero. -/
def line (n : Nat) : Nat :=
  if n = 0 then 0 else n + o.before.count '\n'

/-- A comment of the text, and the same comment in its place. -/
structure SameComment (c c' : Comment) : Prop where
  text_eq : c'.text = c.text
  isBlock_eq : c'.isBlock = c.isBlock
  blankBefore_eq : c'.blankBefore = c.blankBefore
  offset_eq : c'.offset = o.before.length + c.offset
  position_eq : c'.position = o.place c.position
  stop_eq : c'.stop = o.place c.stop

variable {o}

theorem source_drop {n : Nat} (h : n ≤ o.text.length) :
    o.source.drop (o.before.length + n) = o.text.drop n ++ o.after := by
  rw [source, List.drop_length_add_append, List.drop_append_of_le_length h]

end Window

/-! ## Cursors -/

namespace Cursor

/-- A cursor in the text, and the cursor at the same place in the source. -/
structure Fits (o : Window) (c c' : Cursor) : Prop where
  rest_eq : c'.rest = c.rest ++ o.after
  offset_eq : c'.offset = o.before.length + c.offset
  position_eq : c'.position = o.place c.position

variable {o : Window} {c c' : Cursor}

theorem place_after (p : Position) (ch : Char) :
    after (o.place p) ch = o.place (after p ch) := by
  unfold after
  split
  · simp only [Window.place, Position.mk.injEq, and_true]
    omega
  · rfl

/-- One step within the text. -/
theorem Fits.next (h : c.Fits o c') (hgo : c.rest ≠ [] ∨ o.after = []) :
    c.next.Fits o c'.next := by
  obtain ⟨hrest, hoffset, hposition⟩ := h
  cases hr : c.rest with
  | nil =>
    have hafter : o.after = [] := hgo.resolve_left fun hne => hne hr
    have hr' : c'.rest = [] := by rw [hrest, hr, hafter]; rfl
    have hnext : c.next = { c with position := ⟨c.position.line, c.position.column + 1⟩ } := by
      rw [Cursor.next, hr]
    have hnext' : c'.next = { c' with position := ⟨c'.position.line, c'.position.column + 1⟩ } := by
      rw [Cursor.next, hr']
    rw [hnext, hnext']
    exact ⟨hrest, hoffset, by rw [hposition]; rfl⟩
  | cons ch rest =>
    have hr' : c'.rest = ch :: (rest ++ o.after) := by rw [hrest, hr]; rfl
    have hnext : c.next = ⟨rest, c.offset + 1, after c.position ch⟩ := by
      rw [Cursor.next, hr]
    have hnext' : c'.next = ⟨rest ++ o.after, c'.offset + 1, after c'.position ch⟩ := by
      rw [Cursor.next, hr']
    rw [hnext, hnext']
    exact ⟨rfl, by simp only [hoffset]; omega, by rw [hposition]; exact place_after _ _⟩

/-- Any number of steps within the text. -/
theorem Fits.advance (h : c.Fits o c') {n : Nat} (hgo : n ≤ c.rest.length ∨ o.after = []) :
    (Cursor.advance n c).Fits o (Cursor.advance n c') := by
  induction n generalizing c c' with
  | zero => exact h
  | succ n ih =>
    refine ih (h.next ?_) ?_
    · refine hgo.imp_left fun hle hnil => ?_
      rw [hnil] at hle
      exact absurd hle (Nat.not_succ_le_zero n)
    · refine hgo.imp_left fun hle => ?_
      rw [rest_next, List.length_tail]
      omega

theorem lastNewline_append_line (cs rest : List Char) :
    lastNewline (cs ++ ['\n'] ++ rest) (cs ++ ['\n']).length = cs.length := by
  have hget : (cs ++ ['\n'] ++ rest)[cs.length]? = some '\n' := by simp
  rw [List.length_append, List.length_singleton, lastNewline, if_pos hget]

/-- The start of the text is where what stands before it ends. -/
theorem fits_start (o : Window) :
    (Cursor.start o.text).Fits o ((Cursor.start o.source).advance o.before.length) := by
  have hlength : (Cursor.start o.source).rest.length = o.source.length := rfl
  have hle : o.before.length ≤ o.source.length := by
    rw [Window.source, List.length_append]
    omega
  refine ⟨?_, ?_, ?_⟩
  · rw [rest_advance]
    exact List.drop_left
  · rw [offset_advance, hlength, Nat.min_eq_left hle]
    exact Nat.add_comm _ _
  · rcases o.before_line with hnil | ⟨cs, hcs⟩
    · rw [hnil]
      simp [Cursor.advance, Cursor.start, Window.place, hnil]
    · have hlt : (Cursor.start o.source).offset < o.source.length := by
        have hpos : 0 < o.before.length := by simp [hcs]
        exact Nat.lt_of_lt_of_le hpos hle
      rw [position_advance (.start _) hlt (hlength ▸ hle)]
      have htake : o.source.take o.before.length = o.before := List.take_left
      have hlast : lastNewline o.source o.before.length = cs.length := by
        rw [Window.source, hcs]
        exact lastNewline_append_line _ _
      simp only [Position.ofOffset, Cursor.start, Nat.zero_add, htake, hlast, Window.place,
        Position.mk.injEq]
      refine ⟨trivial, ?_⟩
      rw [hcs, List.length_append, List.length_singleton]
      omega

end Cursor

/-! ## Lexers -/

namespace Lexer

/-- **Two lexers at one place in the text**, one in the text alone and one in
the source. They have found the same faults, and the same comments if none from
before the text is left. -/
structure Fits (o : Window) (l l' : Lexer) : Prop where
  source_eq : l.source = o.text
  source_eq' : l'.source = o.source
  inside : l.cursor.IsIn o.text
  inside' : l'.cursor.IsIn o.source
  exact : o.whole = false → l.cursor.position = .ofOffset o.text l.cursor.offset
  cursor : l.cursor.Fits o l'.cursor
  messages_eq : l'.diagnostics.map (·.message) = l.diagnostics.map (·.message)
  held : o.tidy = true → List.Forall₂ o.SameComment l.pending l'.pending
    ∧ l'.lastCommentLine = o.line l.lastCommentLine

variable {o : Window} {l l' m m' : Lexer}

namespace Fits

theorem exact_advance (h : l.Fits o l') {n : Nat} (hgo : n ≤ l.cursor.rest.length ∨ o.whole = true)
    (hcut : o.whole = false) :
    (l.cursor.advance n).position = .ofOffset o.text (l.cursor.advance n).offset := by
  have hn : n ≤ l.cursor.rest.length := hgo.resolve_right (Bool.eq_false_iff.1 hcut)
  rw [Cursor.offset_advance, Nat.min_eq_left hn]
  cases hr : l.cursor.rest with
  | nil =>
    rw [hr] at hn
    rw [Nat.le_zero.1 hn]
    exact h.exact hcut
  | cons c rest =>
    exact Cursor.position_advance h.inside
      (h.inside.offset_lt (by rw [hr]; exact List.cons_ne_nil _ _)) hn

theorem cursor_advance (h : l.Fits o l') {n : Nat}
    (hgo : n ≤ l.cursor.rest.length ∨ o.whole = true) :
    (l.cursor.advance n).Fits o (l'.cursor.advance n) :=
  h.cursor.advance (hgo.imp_right o.after_eq)

theorem step (h : l.Fits o l') {n : Nat} (hgo : n ≤ l.cursor.rest.length ∨ o.whole = true) :
    (l.step n).Fits o (l'.step n) :=
  ⟨h.source_eq, h.source_eq', h.inside.advance n, h.inside'.advance n, h.exact_advance hgo, h.cursor_advance hgo,
    h.messages_eq, h.held⟩

theorem report (h : l.Fits o l') (p p' : Position) (f : LexicalFault) :
    (l.report p f).Fits o (l'.report p' f) := by
  refine ⟨h.source_eq, h.source_eq', h.inside, h.inside', h.exact, h.cursor, ?_, h.held⟩
  simp only [Lexer.report, List.map_append, h.messages_eq]
  rfl

theorem line_of_pos {n : Nat} (h : 0 < n) : o.line n = n + o.before.count '\n' :=
  if_neg (Nat.ne_of_gt h)

/-- The last of two lists of comments. -/
theorem getLast?_eq {cs cs' : List Comment} (h : List.Forall₂ o.SameComment cs cs') :
    (cs.getLast? = none ∧ cs'.getLast? = none)
      ∨ ∃ c c', cs.getLast? = some c ∧ cs'.getLast? = some c' ∧ o.SameComment c c' := by
  rw [← List.head?_reverse, ← List.head?_reverse]
  have hreverse := List.forall₂_reverse_iff.2 h
  generalize cs.reverse = ds at hreverse ⊢
  generalize cs'.reverse = ds' at hreverse ⊢
  cases hreverse with
  | nil => exact .inl ⟨rfl, rfl⟩
  | cons hc _ => exact .inr ⟨_, _, rfl, rfl, hc⟩

theorem isAfterBlankLine_eq (h : l.Fits o l') (htidy : o.tidy = true) (n : Nat) :
    l'.isAfterBlankLine (n + o.before.count '\n') = l.isAfterBlankLine n := by
  obtain ⟨hpending, hlast⟩ := h.held htidy
  rw [isAfterBlankLine, isAfterBlankLine]
  rcases getLast?_eq hpending with ⟨hnone, hnone'⟩ | ⟨c, c', hsome, hsome', hsame⟩
  · rw [hnone, hnone', hlast, Window.line]
    by_cases hzero : l.lastCommentLine = 0
    · simp [hzero]
    · rw [if_neg hzero]
      simp only [← Bool.decide_and, decide_eq_decide]
      omega
  · rw [hsome, hsome']
    simp only [hsame.stop_eq, Window.place, decide_eq_decide]
    omega

/-- Collecting a comment. -/
theorem collect (h : l.Fits o l') (isBlock : Bool) {n : Nat} (hn : n ≤ l.cursor.rest.length) :
    (l.collect isBlock n).Fits o (l'.collect isBlock n) := by
  have hstop := h.cursor_advance (.inl hn)
  refine ⟨h.source_eq, h.source_eq', h.inside.advance n, h.inside'.advance n, h.exact_advance (.inl hn), hstop,
    h.messages_eq, fun htidy => ?_⟩
  obtain ⟨hpending, -⟩ := h.held htidy
  refine ⟨List.rel_append hpending (.cons ⟨?_, rfl, ?_, ?_, ?_, ?_⟩ .nil), ?_⟩
  · simp only [h.cursor.rest_eq, List.take_append_of_le_length hn]
  · simp only [h.cursor.position_eq, Window.place, h.isAfterBlankLine_eq htidy]
  · exact h.cursor.offset_eq
  · exact h.cursor.position_eq
  · exact hstop.position_eq
  · have hpos : 0 < (l.cursor.advance n).position.line := by
      rw [(h.inside.advance n).line_eq]
      exact Nat.lt_of_lt_of_le Nat.one_pos (Nat.le_add_right 1 _)
    change (l'.cursor.advance n).position.line = o.line (l.cursor.advance n).position.line
    rw [line_of_pos hpos, hstop.position_eq]
    rfl

/-- What is left of the text ends with its line end, unless nothing is left. -/
theorem rest_line (h : l.Fits o l') (hcut : o.whole = false) (hne : l.cursor.rest ≠ []) :
    ∃ cs, l.cursor.rest = cs ++ ['\n'] := by
  obtain ⟨cs, hcs⟩ := o.text_line hcut
  have hlt := h.inside.offset_lt hne
  rw [hcs, List.length_append, List.length_singleton] at hlt
  refine ⟨cs.drop l.cursor.offset, ?_⟩
  rw [h.inside.rest_eq, hcs, List.drop_append_of_le_length (by omega)]

end Fits

/-! ### Blanks and comments -/

theorem blockLength?_append {cs : List Char} {n : Nat} (h : blockLength? cs = some n)
    (rest : List Char) : blockLength? (cs ++ rest) = some n := by
  fun_induction blockLength? cs generalizing n with
  | case1 => cases h
  | case2 cs => exact h
  | case3 c cs hend ih =>
    obtain ⟨m, hm, rfl⟩ := Option.map_eq_some_iff.1 h
    rw [List.cons_append, blockLength?, ih hm]
    · rfl
    · rintro cs' rfl happend
      cases cs with
      | nil => cases hm
      | cons c' cs =>
        rw [List.cons_append, List.cons.injEq] at happend
        obtain ⟨rfl, -⟩ := happend
        exact hend cs rfl rfl

/-- A block comment does not end with a line end. -/
theorem blockLength?_line {cs : List Char} {n : Nat} (h : blockLength? (cs ++ ['\n']) = some n) :
    n ≤ cs.length := by
  induction cs generalizing n with
  | nil => cases h
  | cons c cs ih =>
    rw [List.cons_append, blockLength?.eq_def] at h
    split at h
    · next heq => cases heq
    · next rest heq =>
      obtain ⟨-, hrest⟩ := List.cons.inj heq
      cases cs with
      | nil => cases hrest
      | cons c' cs =>
        cases h
        simp only [List.length_cons]
        omega
    · next c' rest hend heq =>
      obtain ⟨-, rfl⟩ := List.cons.inj heq
      obtain ⟨m, hm, rfl⟩ := Option.map_eq_some_iff.1 h
      exact Nat.succ_le_succ (ih hm)

/-- What is needed of the rest of the text where a move starts: it goes up to
the end of the source, or to the end of its last line. -/
def IsLined (o : Window) (l : Lexer) : Prop :=
  o.whole = true ∨ ∃ cs, l.cursor.rest = cs ++ ['\n']

theorem takeWhile_line (cs : List Char) (rest : List Char) :
    (cs ++ '\n' :: rest).takeWhile (· != '\n') = cs.takeWhile (· != '\n') :=
  takeWhile_append_cons (by decide) cs rest

theorem exists_tail_line {c : Char} {rest cs : List Char} (h : c :: rest = cs ++ ['\n'])
    (hc : c ≠ '\n') : ∃ ds, rest = ds ++ ['\n'] := by
  cases cs with
  | nil => exact absurd (List.cons.inj h).1 hc
  | cons d ds => exact ⟨ds, (List.cons.inj h).2⟩

namespace Fits

/-- What starts what is left of the source starts what is left of the text. -/
theorem exists_of_prefix (h : l.Fits o l') (hline : IsLined o l) {cs rest : List Char}
    (hcs : '\n' ∉ cs) (hrest : l'.cursor.rest = cs ++ rest) :
    ∃ rest', l.cursor.rest = cs ++ rest' := by
  rw [h.cursor.rest_eq] at hrest
  rcases hline with hwhole | ⟨ds, hds⟩
  · exact ⟨rest, by rw [← hrest, o.after_eq hwhole, List.append_nil]⟩
  · rcases List.append_eq_append_iff.1 hrest with ⟨es, hes, -⟩ | ⟨es, hes, -⟩
    · -- the line end of the text would be one of these characters
      have hmem : '\n' ∈ cs := by
        rw [hes, hds]
        simp
      exact absurd hmem hcs
    · exact ⟨es, hes⟩

/-- In front of anything but a blank or a comment both lexers stay. -/
theorem skipOne?_none (h : l.Fits o l') (hline : IsLined o l) (hs : l.skipOne? = none) :
    l'.skipOne? = none := by
  have hnone : ∀ (cs : List Char) {rest : List Char}, '\n' ∉ cs → l'.cursor.rest = cs ++ rest →
      ∃ rest', l.cursor.rest = cs ++ rest' :=
    fun _ _ => h.exists_of_prefix hline
  rw [Lexer.skipOne?] at hs
  split at hs
  case h_5 rest hr => cases hb : blockLength? rest <;> rw [hb] at hs <;> cases hs
  case h_6 hspace htab hreturn hslash hstar =>
    rw [Lexer.skipOne?]
    split
    case h_1 rest hr =>
      obtain ⟨rest', hr'⟩ := hnone [' '] (by decide) hr
      exact (hspace rest' hr').elim
    case h_2 rest hr =>
      obtain ⟨rest', hr'⟩ := hnone ['\t'] (by decide) hr
      exact (htab rest' hr').elim
    case h_3 rest hr =>
      obtain ⟨rest', hr'⟩ := hnone ['\r'] (by decide) hr
      exact (hreturn rest' hr').elim
    case h_4 rest hr =>
      obtain ⟨rest', hr'⟩ := hnone ['/', '/'] (by decide) hr
      exact (hslash rest' hr').elim
    case h_5 rest hr =>
      obtain ⟨rest', hr'⟩ := hnone ['/', '*'] (by decide) hr
      exact (hstar rest' hr').elim
    case h_6 => rfl
  all_goals cases hs

end Fits

namespace Fits

theorem isLined_step (hline : IsLined o l) {m : Lexer} {n : Nat}
    (hm : m.cursor.rest = l.cursor.rest.drop n)
    (hn : ∀ cs, l.cursor.rest = cs ++ ['\n'] → n ≤ cs.length) : IsLined o m := by
  refine hline.imp_right fun ⟨cs, hcs⟩ => ⟨cs.drop n, ?_⟩
  rw [hm, hcs, List.drop_append_of_le_length (hn cs hcs)]

/-- What a move of the lexer in the text is to the lexer in the source. -/
def Skips (o : Window) (l' m : Lexer) : Prop :=
  ∃ m', l'.skipOne? = some m' ∧ m.Fits o m' ∧ IsLined o m

theorem skips_blank (h : l.Fits o l') (hline : IsLined o l) {c : Char} {rest : List Char}
    (hr : l.cursor.rest = c :: rest) (hc : c = ' ' ∨ c = '\t' ∨ c = '\r') :
    Skips o l' (l.step 1) := by
  have hr' : l'.cursor.rest = c :: (rest ++ o.after) := by rw [h.cursor.rest_eq, hr]; rfl
  refine ⟨_, skipOne?_blank hr' hc, h.step (.inl ?_),
    isLined_step hline (Cursor.rest_advance 1 _) fun cs hcs => ?_⟩
  · rw [hr, List.length_cons]
    omega
  · have hne : c ≠ '\n' := by rcases hc with rfl | rfl | rfl <;> decide
    obtain ⟨ds, hds⟩ := exists_tail_line (hr.symm.trans hcs) hne
    have hlength := congrArg List.length (hr.symm.trans hcs)
    simp only [hds, List.length_cons, List.length_append, List.length_nil] at hlength
    omega

/-- The rest of the text behind the two characters that open a comment. -/
theorem exists_comment_line {c : Char} {rest cs : List Char}
    (h : '/' :: c :: rest = cs ++ ['\n']) (hc : c ≠ '\n') :
    ∃ ds, rest = ds ++ ['\n'] ∧ cs.length = ds.length + 2 := by
  obtain ⟨es, hes⟩ := exists_tail_line h (by decide)
  obtain ⟨ds, rfl⟩ := exists_tail_line hes hc
  have hlength := congrArg List.length h
  simp only [List.length_cons, List.length_append, List.length_nil] at hlength
  exact ⟨ds, rfl, by omega⟩

theorem skips_lineComment (h : l.Fits o l') (hline : IsLined o l) {rest : List Char}
    (hr : l.cursor.rest = '/' :: '/' :: rest) :
    Skips o l' (l.collect false ((rest.takeWhile (· != '\n')).length + 2)) := by
  have hr' : l'.cursor.rest = '/' :: '/' :: (rest ++ o.after) := by
    rw [h.cursor.rest_eq, hr]
    rfl
  have htake : (rest ++ o.after).takeWhile (· != '\n') = rest.takeWhile (· != '\n') := by
    rcases hline with hwhole | ⟨cs, hcs⟩
    · rw [o.after_eq hwhole, List.append_nil]
    · obtain ⟨ds, rfl, -⟩ := exists_comment_line (hr.symm.trans hcs) (by decide)
      rw [List.append_assoc, List.singleton_append, takeWhile_line, takeWhile_line]
  have hle := length_takeWhile_le (· != '\n') rest
  have hfits := h.collect false
    (n := (rest.takeWhile (· != '\n')).length + 2) (by simp only [hr, List.length_cons]; omega)
  rw [← htake] at hfits
  refine ⟨_, skipOne?_line hr', htake ▸ hfits,
    isLined_step hline (Cursor.rest_advance _ _) fun cs hcs => ?_⟩
  obtain ⟨ds, rfl, hlength⟩ := exists_comment_line (hr.symm.trans hcs) (by decide)
  rw [takeWhile_line, hlength]
  exact Nat.add_le_add_right (length_takeWhile_le _ ds) 2

theorem skips_blockComment (h : l.Fits o l') (hline : IsLined o l) {rest : List Char} {n : Nat}
    (hr : l.cursor.rest = '/' :: '*' :: rest) (hn : blockLength? rest = some n) :
    Skips o l' (l.collect true (n + 2)) := by
  have hr' : l'.cursor.rest = '/' :: '*' :: (rest ++ o.after) := by
    rw [h.cursor.rest_eq, hr]
    rfl
  have hle := length_le_of_blockLength? hn
  have hfits := h.collect true (n := n + 2) (by simp only [hr, List.length_cons]; omega)
  refine ⟨_, skipOne?_block hr' (blockLength?_append hn _), hfits,
    isLined_step hline (Cursor.rest_advance _ _) fun cs hcs => ?_⟩
  obtain ⟨ds, rfl, hlength⟩ := exists_comment_line (hr.symm.trans hcs) (by decide)
  have := blockLength?_line hn
  omega

/-- **One move over blanks or a comment** in which nothing is wrong. -/
theorem skipOne? (h : l.Fits o l') (hline : IsLined o l) (hs : l.skipOne? = some m)
    (hsound : o.whole = true ∨ m.diagnostics = []) : Skips o l' m := by
  cases skips_of_skipOne? hs with
  | blank hrest hblank => exact h.skips_blank hline hrest hblank
  | line hrest => exact h.skips_lineComment hline hrest
  | block hrest hlength => exact h.skips_blockComment hline hrest hlength
  | @openBlock rest hrest hopen =>
    rcases hsound with hwhole | hclean
    · have hrest' : l'.cursor.rest = '/' :: '*' :: rest := by
        rw [h.cursor.rest_eq, hrest, o.after_eq hwhole, List.append_nil]
      exact ⟨_, skipOne?_openBlock hrest' hopen, (h.report _ _ _).step (.inr hwhole), .inl hwhole⟩
    · exact absurd hclean (List.append_ne_nil_of_right_ne_nil _ (List.cons_ne_nil _ _))

end Fits

/-- Faults that are found stay found. -/
theorem diagnostics_skipOne? (h : l.skipOne? = some m) :
    ∃ ds, m.diagnostics = l.diagnostics ++ ds := by
  cases skips_of_skipOne? h with
  | openBlock => exact ⟨_, rfl⟩
  | _ => exact ⟨[], (List.append_nil _).symm⟩

theorem diagnostics_skipUpTo (fuel : Nat) (l : Lexer) :
    ∃ ds, (skipUpTo fuel l).diagnostics = l.diagnostics ++ ds := by
  refine skipUpTo_induction (p := fun m => ∃ ds, m.diagnostics = l.diagnostics ++ ds)
    (fun ⟨ds, hds⟩ hs => ?_) ⟨[], (List.append_nil _).symm⟩ fuel
  obtain ⟨es, hes⟩ := diagnostics_skipOne? hs
  exact ⟨ds ++ es, by rw [hes, hds, List.append_assoc]⟩

namespace Fits

/-- **All blanks and comments**, where nothing is wrong with them. -/
theorem skipUpTo (h : l.Fits o l') (hline : IsLined o l) {fuel fuel' : Nat}
    (hrest : l.cursor.rest.length ≤ fuel) (hfuel : fuel ≤ fuel')
    (hsound : o.whole = true ∨ (skipUpTo fuel l).diagnostics = []) :
    (Lexer.skipUpTo fuel l).Fits o (Lexer.skipUpTo fuel' l')
      ∧ IsLined o (Lexer.skipUpTo fuel l) := by
  induction fuel generalizing l l' fuel' with
  | zero =>
    have hnone : l.skipOne? = none :=
      skipOne?_nil (List.length_eq_zero_iff.1 (Nat.le_zero.1 hrest))
    rw [skipUpTo_of_none hnone, skipUpTo_of_none (h.skipOne?_none hline hnone)]
    exact ⟨h, hline⟩
  | succ fuel ih =>
    obtain ⟨fuel', rfl⟩ : ∃ n, fuel' = n + 1 := ⟨fuel' - 1, by omega⟩
    cases hs : l.skipOne? with
    | none =>
      rw [skipUpTo_of_none hs, skipUpTo_of_none (h.skipOne?_none hline hs)]
      exact ⟨h, hline⟩
    | some m =>
      rw [Lexer.skipUpTo, hs] at hsound ⊢
      obtain ⟨ds, hds⟩ := diagnostics_skipUpTo fuel m
      obtain ⟨m', hs', hfits, hlined⟩ := h.skipOne? hline hs
        (hsound.imp_right fun hclean => (List.append_eq_nil_iff.1 (hds.symm.trans hclean)).1)
      obtain ⟨n, hn, hcursor⟩ := cursor_skipOne? hs
      have hless : m.cursor.rest.length ≤ fuel := by
        rw [hcursor, Cursor.rest_advance, List.length_drop]
        omega
      rw [Lexer.skipUpTo, hs']
      exact ih hfits hlined hless (Nat.le_of_succ_le_succ hfuel) hsound

/-! ### Tokens -/

theorem skipTrivia (h : l.Fits o l') (hline : IsLined o l)
    (hsound : o.whole = true ∨ l.skipTrivia.diagnostics = []) :
    l.skipTrivia.Fits o l'.skipTrivia ∧ IsLined o l.skipTrivia := by
  refine h.skipUpTo hline (Nat.le_refl _) ?_ hsound
  rw [h.cursor.rest_eq, List.length_append]
  omega

end Fits

/-- **A lexeme of a text with a line end** in which nothing is wrong is the same
whatever lines follow. It goes up to the line end at most, and only the line end
itself is a lexeme that takes it. -/
theorem lexemeAt_line {cs : List Char} (h : (lexemeAt (cs ++ ['\n'])).fault = none)
    (rest : List Char) :
    lexemeAt (cs ++ ['\n'] ++ rest) = lexemeAt (cs ++ ['\n'])
      ∧ (lexemeAt (cs ++ ['\n'])).steps ≤ cs.length + 1
      ∧ ((lexemeAt (cs ++ ['\n'])).steps = cs.length + 1 → cs = []) := by
  cases cs with
  | nil => exact ⟨rfl, Nat.le_refl _, fun _ => rfl⟩
  | cons c cs =>
    obtain ⟨heq, hsteps⟩ := Lexeme.read_line h rest
    refine ⟨?_, Nat.le_succ_of_le hsteps, fun hend => ?_⟩
    · rw [List.append_assoc]
      exact heq
    · have hlast : (Lexeme.read c (cs ++ ['\n'])).steps = cs.length + 1 + 1 := hend
      omega

/-- What one token in the text is to the token in the source. Only a line end
takes the line end of the text. -/
structure SameNext (o : Window) (l l' : Lexer) : Prop where
  token_eq : l'.next.1 = o.token l.next.1
  fits : l.next.2.Fits o l'.next.2
  kind_ne : o.whole = false → l.next.1.kind ≠ .endOfInput
  last : o.whole = false → l.next.2.cursor.rest = [] → l.next.1.start + 1 = o.text.length
  newline : o.whole = false → l.next.1.start + 1 = o.text.length → l.next.1.kind = .newline

theorem diagnostics_emit (l : Lexer) (x : Lexeme) :
    (l.emit x).2.diagnostics = match x.fault with
      | some f => l.diagnostics ++ [.error l.name l.tokenStart f.message]
      | none => l.diagnostics := by
  rw [Lexer.emit]
  cases x.fault <;> rfl

/-- If nothing is wrong behind a token, nothing is wrong in front of it or with it. -/
theorem clean_of_next (h : l.next.2.diagnostics = []) :
    l.skipTrivia.diagnostics = [] ∧ (lexemeAt l.skipTrivia.cursor.rest).fault = none := by
  change (l.skipTrivia.startToken.emit (lexemeAt l.skipTrivia.cursor.rest)).2.diagnostics = [] at h
  rw [diagnostics_emit] at h
  cases hfault : (lexemeAt l.skipTrivia.cursor.rest).fault with
  | none =>
    rw [hfault] at h
    exact ⟨h, rfl⟩
  | some f =>
    rw [hfault] at h
    exact absurd h (List.append_ne_nil_of_right_ne_nil _ (List.cons_ne_nil _ _))

theorem diagnostics_of_next (h : l.next.2.diagnostics = []) : l.diagnostics = [] := by
  obtain ⟨ds, hds⟩ := diagnostics_skipUpTo l.cursor.rest.length l
  exact (List.append_eq_nil_iff.1 (hds.symm.trans (clean_of_next h).1)).1

/-- Nothing is read between braces where no brace stands. -/
theorem readBraces_of_ne {start : Nat} {c : Char} {rest : List Char}
    (h : l.source.drop start = c :: rest) (hc : c ≠ '{') :
    l.readBraces start = .error .noBraceThere :=
  readBraces_of_no_brace fun _ heq => hc (List.cons.inj (h.symm.trans heq)).1

/-- A token that starts at a line end is the line end. -/
theorem newline_next (h : l.cursor.IsIn l.source) (hline : l.source[l.next.1.start]? = some '\n') :
    l.next.1.kind = .newline := by
  obtain ⟨hsource, n, hn⟩ := skipUpTo_spec l.cursor.rest.length l
  have hcursor : l.skipTrivia.cursor = l.cursor.advance n := hn
  have hin : l.skipTrivia.cursor.IsIn l.source := hcursor ▸ h.advance n
  change l.source[l.skipTrivia.cursor.offset]? = _ at hline
  change (lexemeAt l.skipTrivia.cursor.rest).kind = _
  rw [← hin.current?_eq, Cursor.current?] at hline
  cases hr : l.skipTrivia.cursor.rest with
  | nil =>
    rw [hr] at hline
    cases hline
  | cons c rest =>
    rw [hr] at hline
    cases hline
    rfl

/-- A token that fills the gap behind a comment is remembered. -/
theorem lastCommentLine_next_of_fillsGap (h : fillsGap l.next.1.kind) : l.next.2.lastCommentLine = 0 :=
  if_pos h

theorem kind_next_of_nil (h : l.cursor.rest = []) : l.next.1.kind = .endOfInput := by
  have hskip : l.skipTrivia = l := skipUpTo_of_none (skipOne?_nil h)
  change (lexemeAt l.skipTrivia.cursor.rest).kind = _
  rw [hskip, h]
  rfl

namespace Fits

/-- Reading one lexeme as a token. -/
theorem emit (h : l.Fits o l') (hstart : l.tokenStart = l.cursor.position)
    (hstart' : l'.tokenStart = l'.cursor.position) (x : Lexeme)
    (hgo : x.steps ≤ l.cursor.rest.length ∨ o.whole = true) :
    (l'.emit x).1 = o.token (l.emit x).1 ∧ (l.emit x).2.Fits o (l'.emit x).2 := by
  have hcursor := h.cursor_advance hgo
  have hheld : o.tidy = true → List.Forall₂ o.SameComment l.pending l'.pending
      ∧ (if fillsGap x.kind then 0 else l'.lastCommentLine)
        = o.line (if fillsGap x.kind then 0 else l.lastCommentLine) := fun htidy => by
    obtain ⟨hpending, hlast⟩ := h.held htidy
    refine ⟨hpending, ?_⟩
    split
    · rfl
    · exact hlast
  refine ⟨?_, ?_⟩
  · simp only [Lexer.emit, Window.token, hstart, hstart', h.cursor.position_eq,
      h.cursor.offset_eq]
  · unfold Lexer.emit
    cases x.fault with
    | none =>
      exact ⟨h.source_eq, h.source_eq', h.inside.advance _, h.inside'.advance _, h.exact_advance hgo, hcursor,
        h.messages_eq, hheld⟩
    | some f =>
      have hreport := h.report l.tokenStart l'.tokenStart f
      exact ⟨h.source_eq, h.source_eq', h.inside.advance _, h.inside'.advance _, h.exact_advance hgo, hcursor,
        hreport.messages_eq, hheld⟩

theorem startToken (h : l.Fits o l') : l.startToken.Fits o l'.startToken :=
  ⟨h.source_eq, h.source_eq', h.inside, h.inside', h.exact, h.cursor, h.messages_eq, h.held⟩

theorem isLined (h : l.Fits o l') (hgo : o.whole = true ∨ l.cursor.rest ≠ []) : IsLined o l := by
  cases hcut : o.whole with
  | true => exact .inl hcut
  | false =>
    rw [hcut] at hgo
    exact .inr (h.rest_line hcut (hgo.resolve_left Bool.false_ne_true))

/-- A lexeme in which nothing is wrong is the same in the source. -/
theorem lexemeAt_eq (h : l.Fits o l') (hlined : IsLined o l)
    (hsound : o.whole = true ∨ (lexemeAt l.cursor.rest).fault = none) :
    lexemeAt l'.cursor.rest = lexemeAt l.cursor.rest := by
  rw [h.cursor.rest_eq]
  rcases hlined with hwhole | ⟨cs, hcs⟩
  · rw [o.after_eq hwhole, List.append_nil]
  · rcases hsound with hwhole | hfault
    · rw [o.after_eq hwhole, List.append_nil]
    · rw [hcs] at hfault ⊢
      exact (lexemeAt_line hfault _).1

/-- In a text that is cut off it leaves the line end, unless it is the line end. -/
theorem exists_line_lexeme (hlined : IsLined o l) (hcut : o.whole = false)
    (hsound : o.whole = true ∨ (lexemeAt l.cursor.rest).fault = none) :
    ∃ cs, l.cursor.rest = cs ++ ['\n'] ∧ (lexemeAt l.cursor.rest).steps ≤ cs.length + 1
      ∧ ((lexemeAt l.cursor.rest).steps = cs.length + 1 → cs = []) := by
  rw [hcut] at hsound
  rw [IsLined, hcut] at hlined
  obtain ⟨cs, hcs⟩ := hlined.resolve_left Bool.false_ne_true
  have hfault := hsound.resolve_left Bool.false_ne_true
  rw [hcs] at hfault ⊢
  exact ⟨cs, rfl, (lexemeAt_line hfault []).2⟩

theorem steps_lexemeAt_le (hlined : IsLined o l)
    (hsound : o.whole = true ∨ (lexemeAt l.cursor.rest).fault = none) :
    (lexemeAt l.cursor.rest).steps ≤ l.cursor.rest.length ∨ o.whole = true := by
  cases hcut : o.whole with
  | true => exact .inr rfl
  | false =>
    obtain ⟨cs, hcs, hle, -⟩ := exists_line_lexeme hlined hcut hsound
    have hlength := congrArg List.length hcs
    rw [List.length_append, List.length_singleton] at hlength
    exact .inl (hlength ▸ hle)

/-- **One token.** -/
theorem next (h : l.Fits o l')
    (hgo : o.whole = true ∨ (l.cursor.rest ≠ [] ∧ l.next.2.diagnostics = [])) :
    SameNext o l l' := by
  have hclean := hgo.imp_right fun hgo => clean_of_next hgo.2
  have hsound := hclean.imp_right And.right
  obtain ⟨hfits, hlined⟩ :=
    h.skipTrivia (h.isLined (hgo.imp_right And.left)) (hclean.imp_right And.left)
  obtain ⟨htoken, hemit⟩ :=
    hfits.startToken.emit rfl rfl (lexemeAt l.skipTrivia.cursor.rest) (steps_lexemeAt_le hlined hsound)
  have hnext : l'.next = l'.skipTrivia.startToken.emit (lexemeAt l.skipTrivia.cursor.rest) := by
    rw [← hfits.lexemeAt_eq hlined hsound]
    rfl
  have hlength := hfits.inside.length_rest
  refine ⟨?_, ?_, fun hcut => ?_, fun hcut hrest => ?_, fun hcut hlast => ?_⟩
  · rw [hnext]
    exact htoken
  · rw [hnext]
    exact hemit
  · obtain ⟨cs, hcs, -⟩ := exists_line_lexeme hlined hcut hsound
    change (lexemeAt l.skipTrivia.cursor.rest).kind ≠ _
    rw [hcs]
    cases cs with
    | nil => decide
    | cons c cs => exact (Lexeme.isProper_read c _).kind_ne
  · obtain ⟨cs, hcs, hle, honly⟩ := exists_line_lexeme hlined hcut hsound
    change (l.skipTrivia.cursor.advance (lexemeAt l.skipTrivia.cursor.rest).steps).rest = [] at hrest
    rw [Cursor.rest_advance, List.drop_eq_nil_iff] at hrest
    have hlt := hfits.inside.offset_lt (by rw [hcs]; simp)
    rw [hcs, List.length_append, List.length_singleton] at hlength
    have hrest' : l.skipTrivia.cursor.rest.length = cs.length + 1 := by
      rw [hcs, List.length_append, List.length_singleton]
    have hnil := honly (Nat.le_antisymm hle (hrest' ▸ hrest))
    rw [hnil, List.length_nil] at hlength
    change l.skipTrivia.cursor.offset + 1 = _
    omega
  · obtain ⟨cs, hcs, -⟩ := exists_line_lexeme hlined hcut hsound
    change l.skipTrivia.cursor.offset + 1 = _ at hlast
    change (lexemeAt l.skipTrivia.cursor.rest).kind = _
    rw [hcs, List.length_append, List.length_singleton] at hlength
    have hnil : cs = [] := List.eq_nil_of_length_eq_zero (by omega)
    rw [hcs, hnil]
    rfl

/-! ### Where the text starts and ends -/

/-- The start of the text, on a lexer of its own and where what stands before it
has been read. -/
theorem start {name text : String} (htext : text.toList = o.text) (hsource : l'.source = o.source)
    (hcursor : l'.cursor = (Cursor.start o.source).advance o.before.length)
    (hmessages : l'.diagnostics = [])
    (hheld : o.tidy = true → l'.pending = [] ∧ l'.lastCommentLine = 0) :
    (Lexer.ofSource name text).Fits o l' := by
  have hstart : (Lexer.ofSource name text).cursor = .start o.text := by
    rw [← htext]
    rfl
  refine ⟨htext, hsource, hstart ▸ .start _, hcursor ▸ (Cursor.IsIn.start _).advance _, fun _ => ?_, ?_, by rw [hmessages]; rfl,
    fun htidy => ?_⟩
  · rw [hstart]
    rfl
  · rw [hstart, hcursor]
    exact Cursor.fits_start o
  · obtain ⟨hpending, hlast⟩ := hheld htidy
    rw [hpending, hlast]
    exact ⟨.nil, rfl⟩

/-- Where the text has been read, the lexer of the source stands where its
cursor comes to from the start. -/
theorem cursor_end (h : l.Fits o l') (hcut : o.whole = false) (hr : l.cursor.rest = []) :
    l'.cursor = (Cursor.start o.source).advance (o.before.length + o.text.length) := by
  have hpos : 0 < o.text.length := by
    obtain ⟨cs, hcs⟩ := o.text_line hcut
    rw [hcs, List.length_append]
    exact Nat.succ_pos _
  have hoffset : l.cursor.offset = o.text.length := h.inside.offset_eq hr
  have hend := (Cursor.fits_start o).advance (n := o.text.length) (.inl (Nat.le_refl _))
  have hposition : ((Cursor.start o.text).advance o.text.length).position = l.cursor.position := by
    have hlast : o.text.length ≤ (Cursor.start o.text).rest.length := Nat.le_refl _
    rw [Cursor.position_advance (.start _) hpos hlast, h.exact hcut, hoffset]
    exact congrArg _ (Nat.zero_add _)
  rw [Cursor.advance_add]
  have hrest_eq : l'.cursor.rest = (Cursor.advance o.text.length
      ((Cursor.start o.source).advance o.before.length)).rest := by
    rw [h.cursor.rest_eq, hend.rest_eq, Cursor.rest_advance, hr]
    exact congrArg (· ++ o.after) List.drop_length.symm
  have hoffset_eq : l'.cursor.offset = (Cursor.advance o.text.length
      ((Cursor.start o.source).advance o.before.length)).offset := by
    rw [h.cursor.offset_eq, hend.offset_eq, Cursor.offset_advance, hoffset]
    change _ = _ + (0 + min o.text.length o.text.length)
    omega
  have hposition_eq : l'.cursor.position = (Cursor.advance o.text.length
      ((Cursor.start o.source).advance o.before.length)).position := by
    rw [h.cursor.position_eq, hend.position_eq, hposition]
  calc l'.cursor = ⟨l'.cursor.rest, l'.cursor.offset, l'.cursor.position⟩ := rfl
    _ = _ := by rw [hrest_eq, hoffset_eq, hposition_eq]

/-! ### Text between braces -/

theorem filter_sameComment {cs cs' : List Comment} (h : List.Forall₂ o.SameComment cs cs')
    (p p' : Nat → Bool) (hp : ∀ n, p' (o.before.length + n) = p n) :
    List.Forall₂ o.SameComment (cs.filter fun c => p c.offset)
      (cs'.filter fun c => p' c.offset) := by
  induction h with
  | nil => exact .nil
  | cons hc _ ih =>
    rename_i c c' _ _ _
    have heq : p' c'.offset = p c.offset := by rw [hc.offset_eq, hp]
    rw [List.filter_cons, List.filter_cons, heq]
    split
    · exact .cons hc ih
    · exact ih

/-- **Text between braces** that close in the text. -/
theorem readBraces (h : l.Fits o l') {start : Nat} {code : String}
    (hs : l.readBraces start = .ok (code, m)) :
    ∃ m', l'.readBraces ↑(o.before.length + start) = .ok (code, m') ∧ m.Fits o m' := by
  obtain ⟨rest, n, hdrop, hclosing, rfl, rfl⟩ := exists_of_readBraces hs
  rw [h.source_eq] at hdrop
  have hlength := congrArg List.length hdrop
  simp only [List.length_drop, List.length_cons] at hlength
  have hdrop' : l'.source.drop (o.before.length + start) = '{' :: (rest ++ o.after) := by
    rw [h.source_eq', Window.source_drop (by omega), hdrop]
    rfl
  have hlt := Braces.closing?_lt hclosing
  have hn : start + n + 2 ≤ (Cursor.start o.text).rest.length := by
    change _ ≤ o.text.length
    omega
  have hread := readBraces_of_closing? hdrop' (Braces.closing?_append hclosing o.after)
  rw [List.take_append_of_le_length (Nat.le_of_lt hlt), h.source_eq', Nat.add_assoc,
    Nat.add_assoc, Cursor.advance_add] at hread
  refine ⟨_, hread, ⟨h.source_eq, rfl, ?_,
    ((Cursor.IsIn.start _).advance _).advance _, fun _ => ?_, ?_, h.messages_eq,
    fun htidy => ?_⟩⟩
  · rw [h.source_eq]
    exact (Cursor.IsIn.start _).advance _
  · change (Cursor.advance _ _).position = _
    rw [h.source_eq, Cursor.position_advance (.start _) (by change 0 < _; omega) hn]
    change _ = Position.ofOffset o.text (Cursor.advance _ _).offset
    rw [Cursor.offset_advance, Nat.min_eq_left hn]
  · rw [h.source_eq]
    exact (Cursor.fits_start o).advance (.inl hn)
  · obtain ⟨hpending, hlast⟩ := h.held htidy
    refine ⟨filter_sameComment hpending (· < start) (· < o.before.length + start) fun n => ?_,
      hlast⟩
    simp

/-- Text between braces that do not close in the source. -/
theorem readBraces_error (h : l.Fits o l') (hwhole : o.whole = true) {start : Nat} {f : BraceFault}
    (hle : start ≤ o.text.length) (hs : l.readBraces start = .error f) :
    l'.readBraces ↑(o.before.length + start) = .error f := by
  change l.readBraces (.ofNat start) = _ at hs
  change l'.readBraces (.ofNat (o.before.length + start)) = _
  have hdrop : l'.source.drop (o.before.length + start) = l.source.drop start := by
    rw [h.source_eq', Window.source_drop hle, o.after_eq hwhole, List.append_nil, h.source_eq]
  simp only [Lexer.readBraces, hdrop]
  simp only [Lexer.readBraces] at hs
  split at hs
  · split at hs
    · cases hs
    · exact hs
  · exact hs

end Fits

/-! ## Comments that are found -/

/-- **What a lexer finds on its way**: each comment starts with a slash that it
has left behind. -/
structure Finds (l m : Lexer) : Prop where
  source_eq : m.source = l.source
  cursor : m.cursor.IsIn l.source
  le_offset : l.cursor.offset ≤ m.cursor.offset
  pending : ∀ c ∈ m.pending, c ∈ l.pending
    ∨ l.source[c.offset]? = some '/' ∧ c.offset < m.cursor.offset
  line : m.lastCommentLine = l.lastCommentLine ∨ m.lastCommentLine = 0
    ∨ ∃ n, l.cursor.offset ≤ n ∧ n < m.cursor.offset ∧ l.source[n]? = some '/'

namespace Finds

theorem trans {n : Lexer} (h : Finds l m) (h' : Finds m n) : Finds l n := by
  refine ⟨h'.source_eq.trans h.source_eq, h.source_eq ▸ h'.cursor,
    Nat.le_trans h.le_offset h'.le_offset, fun c hc => ?_, ?_⟩
  · rcases h'.pending c hc with hold | ⟨hslash, hlt⟩
    · exact (h.pending c hold).imp_right fun ⟨hslash, hlt⟩ =>
        ⟨hslash, Nat.lt_of_lt_of_le hlt h'.le_offset⟩
    · exact .inr ⟨h.source_eq ▸ hslash, hlt⟩
  · rcases h'.line with heq | hzero | ⟨k, hle, hlt, hslash⟩
    · rw [heq]
      exact h.line.imp_right fun hline => hline.imp_right fun ⟨k, hle, hlt, hslash⟩ =>
        ⟨k, hle, Nat.lt_of_lt_of_le hlt h'.le_offset, hslash⟩
    · exact .inr (.inl hzero)
    · exact .inr (.inr ⟨k, Nat.le_trans h.le_offset hle, hlt, h.source_eq ▸ hslash⟩)

/-- Steps that find nothing. -/
theorem of_advance (h : l.cursor.IsIn l.source) {n : Nat} (hsource : m.source = l.source)
    (hcursor : m.cursor = l.cursor.advance n) (hpending : m.pending = l.pending)
    (hline : m.lastCommentLine = l.lastCommentLine ∨ m.lastCommentLine = 0) : Finds l m := by
  refine ⟨hsource, hcursor ▸ h.advance n, ?_, fun c hc => .inl (hpending ▸ hc),
    hline.imp_right .inl⟩
  rw [hcursor, Cursor.offset_advance]
  exact Nat.le_add_right _ _

theorem collect (h : l.cursor.IsIn l.source) (isBlock : Bool) {n : Nat} {rest : List Char}
    (hrest : l.cursor.rest = '/' :: rest) (hn : 0 < n) : Finds l (l.collect isBlock n) := by
  have hoffset : l.cursor.offset < (l.cursor.advance n).offset := by
    rw [Cursor.offset_advance, hrest, List.length_cons]
    omega
  have hslash : l.source[l.cursor.offset]? = some '/' := by
    rw [← List.head?_drop, ← h.rest_eq, hrest]
    rfl
  refine ⟨rfl, h.advance n, Nat.le_of_lt hoffset, fun c hc => ?_,
    .inr (.inr ⟨_, Nat.le_refl _, hoffset, hslash⟩)⟩
  refine (List.mem_append.1 hc).imp_right fun hnew => ?_
  rw [List.mem_singleton.1 hnew]
  exact ⟨hslash, hoffset⟩

theorem skipOne? (h : l.cursor.IsIn l.source) (hs : l.skipOne? = some m) : Finds l m := by
  cases skips_of_skipOne? hs with
  | line hrest => exact .collect h false hrest (Nat.succ_pos _)
  | block hrest => exact .collect h true hrest (Nat.succ_pos _)
  | _ => exact .of_advance h rfl rfl rfl (.inl rfl)

theorem skipUpTo (h : l.cursor.IsIn l.source) (fuel : Nat) : Finds l (Lexer.skipUpTo fuel l) :=
  skipUpTo_induction (fun hm hs => hm.trans (.skipOne? (hm.source_eq ▸ hm.cursor) hs))
    (.of_advance (n := 0) h rfl rfl rfl (.inl rfl)) fuel

/-- Reading a token. -/
theorem next (h : l.cursor.IsIn l.source) : Finds l l.next.2 := by
  have hskip := Finds.skipUpTo h l.cursor.rest.length
  refine hskip.trans ?_
  have hin : (Lexer.skipUpTo l.cursor.rest.length l).cursor.IsIn
      (Lexer.skipUpTo l.cursor.rest.length l).source := hskip.source_eq ▸ hskip.cursor
  have hnext : l.next.2 = (l.skipTrivia.startToken.emit (lexemeAt l.skipTrivia.cursor.rest)).2 :=
    rfl
  have hline : ∀ k : TokenKind, (if fillsGap k then 0 else l.skipTrivia.lastCommentLine)
      = (Lexer.skipUpTo l.cursor.rest.length l).lastCommentLine
        ∨ (if fillsGap k then 0 else l.skipTrivia.lastCommentLine) = 0 := by
    intro k
    split
    · exact .inr rfl
    · exact .inl rfl
  rw [hnext, Lexer.emit]
  cases (lexemeAt l.skipTrivia.cursor.rest).fault <;> exact .of_advance hin rfl rfl rfl (hline _)

end Finds

end Lexer

end Gsx
