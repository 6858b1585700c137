import Gsx.Grammar.Landmark
import Gsx.Proofs.Blanking.Sources
import Gsx.Proofs.Lexer.Lossless
/-!
# Lexing with comments made blank

Two lexers at one place of a source, one of them in the source with comments made
blank. As long as the first one finds each of these comments in front of a token,
both read the same tokens at the same places and have the same faults to report:
where one collects a comment, the other moves over blanks.
-/

namespace Gsx

/-- A diagnostic without its place. -/
def Diagnostic.plain (d : Diagnostic) : Diagnostic :=
  { d with position := .nowhere }

/-- **Two tokens that are alike**: they differ at most in line and column, and even
so declarations start at both or at none. -/
structure Token.Alike (t t' : Token) : Prop where
  kind_eq : t'.kind = t.kind
  literal_eq : t'.literal = t.literal
  start_eq : t'.start = t.start
  starts_eq : t'.startsDeclaration = t.startsDeclaration

/-- Of its position only the first column counts. -/
theorem Token.startsDeclaration_congr {t t' : Token} (hkind : t'.kind = t.kind)
    (hliteral : t'.literal = t.literal) (hcolumn : t'.position.column = 1 ↔ t.position.column = 1) :
    t'.startsDeclaration = t.startsDeclaration := by
  have hfirst : (t'.position.column == 1) = (t.position.column == 1) := by
    rw [Bool.eq_iff_iff, beq_iff_eq, beq_iff_eq, hcolumn]
  rw [startsDeclaration, startsDeclaration, isDeclWord, isDeclWord, hkind, hliteral, hfirst]

theorem Token.startsDeclaration_of_end {t : Token} (h : t.kind = .endOfInput) :
    t.startsDeclaration = false := by
  rw [startsDeclaration, isDeclWord, h]
  exact Bool.and_false _

/-! ## Single moves -/

namespace Lexer

variable {l m : Lexer}

theorem length_skipOne?_lt (h : l.skipOne? = some m) :
    m.cursor.rest.length < l.cursor.rest.length := by
  obtain ⟨k, hk, hcursor⟩ := cursor_skipOne? h
  have hne : l.cursor.rest ≠ [] := fun hnil => by
    rw [skipOne?_nil hnil] at h
    cases h
  have := List.length_pos_iff.2 hne
  rw [hcursor, Cursor.rest_advance, List.length_drop]
  omega

theorem skipUpTo_eq_skipTrivia {fuel : Nat} (h : l.cursor.rest.length ≤ fuel) :
    skipUpTo fuel l = l.skipTrivia := by
  rw [skipTrivia]
  generalize hlength : l.cursor.rest.length = n at h
  induction n using Nat.strong_induction_on generalizing l fuel with
  | _ n ih =>
    cases hs : l.skipOne? with
    | none => rw [skipUpTo_of_none hs, skipUpTo_of_none hs]
    | some m =>
      have hlt := length_skipOne?_lt hs
      obtain ⟨n, rfl⟩ : ∃ k, n = k + 1 := ⟨n - 1, by omega⟩
      obtain ⟨fuel, rfl⟩ : ∃ k, fuel = k + 1 := ⟨fuel - 1, by omega⟩
      have hless : m.cursor.rest.length ≤ n := by omega
      rw [skipUpTo, skipUpTo, hs]
      simp only
      rw [ih _ (Nat.lt_succ_of_le hless) rfl (hless.trans (Nat.le_of_succ_le_succ h)),
        ih _ (Nat.lt_succ_of_le hless) rfl hless]

theorem skipTrivia_of_skipOne? (h : l.skipOne? = some m) : l.skipTrivia = m.skipTrivia := by
  have hlt := length_skipOne?_lt h
  obtain ⟨n, hn⟩ : ∃ n, l.cursor.rest.length = n + 1 := ⟨l.cursor.rest.length - 1, by omega⟩
  rw [skipTrivia, hn, skipUpTo, h]
  exact skipUpTo_eq_skipTrivia (by omega)

/-- A move over blanks or a comment changes nothing of the next token. -/
theorem next_of_skipOne? (h : l.skipOne? = some m) : l.next = m.next := by
  rw [Lexer.next, Lexer.next, skipTrivia_of_skipOne? h]

/-- Nor do all of these moves. -/
theorem next_skipTrivia (l : Lexer) : l.skipTrivia.next = l.next := by
  generalize hlength : l.cursor.rest.length = n
  induction n using Nat.strong_induction_on generalizing l with
  | _ n ih =>
    cases hs : l.skipOne? with
    | none => rw [skipTrivia, skipUpTo_of_none hs]
    | some m =>
      rw [skipTrivia_of_skipOne? hs, next_of_skipOne? hs]
      exact ih _ (hlength ▸ length_skipOne?_lt hs) m rfl

theorem next_of_blanks {n : Nat} (h : l.cursor.rest.take n = List.replicate n ' ') :
    l.next = (l.step n).next := by
  induction n generalizing l with
  | zero => rfl
  | succ n ih =>
    obtain ⟨rest, hr⟩ : ∃ rest, l.cursor.rest = ' ' :: rest := by
      cases hr : l.cursor.rest with
      | nil =>
        rw [hr] at h
        cases h
      | cons c rest =>
        rw [hr, List.take_succ_cons, List.replicate_succ, List.cons.injEq] at h
        exact ⟨rest, by rw [h.1]⟩
    have hrest : (l.step 1).cursor.rest.take n = List.replicate n ' ' := by
      rw [hr, List.take_succ_cons, List.replicate_succ, List.cons.injEq] at h
      rw [step, Cursor.rest_advance, hr]
      exact h.2
    rw [next_of_skipOne? (skipOne?_blank hr (.inl rfl)), ih hrest]
    congr 1

theorem two_le_of_blockLength? {cs : List Char} {n : Nat} (h : blockLength? cs = some n) :
    2 ≤ n := by
  fun_induction blockLength? cs generalizing n with
  | case1 => cases h
  | case2 =>
    cases h
    exact le_rfl
  | case3 c rest hne ih =>
    obtain ⟨k, hk, rfl⟩ := Option.map_eq_some_iff.1 h
    exact Nat.le_succ_of_le (ih hk)

/-- Whether a comment closes in a text does not depend on what follows. -/
theorem blockLength?_of_append {xs ys : List Char} {n : Nat}
    (h : blockLength? (xs ++ ys) = some n) (hn : n ≤ xs.length) : blockLength? xs = some n := by
  induction xs generalizing n with
  | nil =>
    have htwo := two_le_of_blockLength? h
    rw [List.length_nil] at hn
    omega
  | cons x xs ih =>
    rw [List.cons_append, blockLength?.eq_def] at h
    split at h
    · cases h
    · next rest heq =>
      obtain ⟨rfl, hrest⟩ := List.cons.inj heq
      cases h
      cases xs with
      | nil => exact absurd hn (by decide)
      | cons y xs =>
        obtain ⟨rfl, -⟩ := List.cons.inj hrest
        rfl
    · next c rest hne heq =>
      obtain ⟨rfl, rfl⟩ := List.cons.inj heq
      obtain ⟨k, hk, rfl⟩ := Option.map_eq_some_iff.1 h
      rw [blockLength?, ih hk (Nat.le_of_succ_le_succ hn)]
      · rfl
      · rintro tail rfl rfl
        exact hne _ rfl rfl

/-- A comment that closes ends with its marker. -/
theorem getElem?_of_blockLength? {cs : List Char} {n : Nat} (h : blockLength? cs = some n) :
    cs[n - 1]? = some '/' := by
  fun_induction blockLength? cs generalizing n with
  | case1 => cases h
  | case2 =>
    cases h
    rfl
  | case3 c rest hne ih =>
    obtain ⟨k, hk, rfl⟩ := Option.map_eq_some_iff.1 h
    have htwo := two_le_of_blockLength? hk
    obtain ⟨k, rfl⟩ : ∃ j, k = j + 1 := ⟨k - 1, by omega⟩
    exact ih hk

/-! ## Comments that are found -/

/-- A comment of some length at the cursor. -/
def comment (l : Lexer) (isBlock : Bool) (n : Nat) : Comment :=
  ⟨String.ofList (l.cursor.rest.take n), l.cursor.position, (l.cursor.advance n).position, isBlock,
    l.isAfterBlankLine l.cursor.position.line, l.cursor.offset⟩

theorem endOffset_comment (isBlock : Bool) {n : Nat} (hn : n ≤ l.cursor.rest.length) :
    (l.comment isBlock n).endOffset = l.cursor.offset + n := by
  rw [Comment.endOffset, comment, String.toList_ofList, List.length_take, Nat.min_eq_left hn]

theorem isMarked_comment (h : l.cursor.IsIn l.source) (isBlock : Bool) {n : Nat}
    (hn : n ≤ l.cursor.rest.length) (hpos : 0 < n) (hslash : l.cursor.rest.head? = some '/')
    (hlast : l.cursor.rest[n - 1]? ≠ some '\n') : (l.comment isBlock n).IsMarked l.source := by
  refine ⟨?_, ?_⟩
  · change l.source[l.cursor.offset]? = _
    rw [← hslash, h.rest_eq, List.head?_drop]
  · rw [endOffset_comment isBlock hn, Nat.add_sub_assoc hpos, ← List.getElem?_drop, ← h.rest_eq]
    exact hlast

/-- A line comment ends in front of the line end. -/
theorem newline_notMem_line {rest : List Char} (hrest : l.cursor.rest = '/' :: '/' :: rest) :
    '\n' ∉ l.cursor.rest.take ((rest.takeWhile (· != '\n')).length + 2) := by
  rw [hrest, List.take_succ_cons, List.take_succ_cons,
    ← List.prefix_iff_eq_take.1 (List.takeWhile_prefix _), List.mem_cons, List.mem_cons]
  rintro (hslash | hslash | hmem)
  · exact absurd hslash (by decide)
  · exact absurd hslash (by decide)
  · exact absurd (List.mem_takeWhile_imp hmem) (by decide)

theorem isMarked_of_skips (h : l.cursor.IsIn l.source) (hs : Skips l m) :
    ∀ c ∈ m.pending, c ∈ l.pending ∨ c.IsMarked l.source := by
  have hcollect : ∀ {isBlock n}, (l.comment isBlock n).IsMarked l.source →
      ∀ c ∈ (l.collect isBlock n).pending, c ∈ l.pending ∨ c.IsMarked l.source := by
    intro isBlock n hmarked c hc
    refine (List.mem_append.1 hc).imp_right fun hnew => ?_
    obtain rfl : c = l.comment isBlock n := List.mem_singleton.1 hnew
    exact hmarked
  cases hs with
  | blank hrest hblank => exact fun c hc => .inl hc
  | openBlock hrest hopen => exact fun c hc => .inl hc
  | @line rest hrest =>
    refine hcollect (isMarked_comment h _ (length_line_le hrest) (Nat.succ_pos _)
      (by rw [hrest]; rfl) fun hline => ?_)
    let k := (rest.takeWhile (· != '\n')).length
    have hget : (l.cursor.rest.take (k + 2))[k + 1]? = some '\n' := by
      rw [List.getElem?_take, if_pos (Nat.lt_succ_self _)]
      exact hline
    exact newline_notMem_line hrest (List.mem_of_getElem? hget)
  | @block rest n hrest hlength =>
    refine hcollect (isMarked_comment h _ (length_block_le hrest hlength) (Nat.succ_pos _)
      (by rw [hrest]; rfl) ?_)
    obtain ⟨n, rfl⟩ : ∃ k, n = k + 1 := ⟨n - 1, by have := two_le_of_blockLength? hlength; omega⟩
    have hlast : rest[n]? = some '/' := getElem?_of_blockLength? hlength
    have hget : l.cursor.rest[n + 1 + 2 - 1]? = some '/' := by rw [hrest]; exact hlast
    rw [hget]
    decide

theorem isMarked_next (h : l.cursor.IsIn l.source) :
    ∀ c ∈ l.next.2.pending, c ∈ l.pending ∨ c.IsMarked l.source := by
  rw [pending_next]
  refine (skipUpTo_induction (p := fun m => Finds l m
      ∧ ∀ c ∈ m.pending, c ∈ l.pending ∨ c.IsMarked l.source)
    (fun {m m'} ⟨hm, hold⟩ hs => ?_)
    ⟨.of_advance (n := 0) h rfl rfl rfl (.inl rfl), fun _ hc => .inl hc⟩ l.cursor.rest.length).2
  have hin : m.cursor.IsIn m.source := hm.source_eq ▸ hm.cursor
  refine ⟨hm.trans (.skipOne? hin hs), fun c hc => ?_⟩
  rcases isMarked_of_skips hin (skips_of_skipOne? hs) c hc with hkept | hmarked
  · exact hold c hkept
  · exact .inr (hm.source_eq ▸ hmarked)

end Lexer

/-! ## Two lexers -/

/-- A column is the first one at the start and behind a line end. -/
theorem Position.column_ofOffset_eq_one {source : List Char} {o : Nat} :
    (Position.ofOffset source o).column = 1 ↔ o = 0 ∨ source[o - 1]? = some '\n' := by
  have hle : ∀ n, lastNewline source n < n := fun n => by
    induction n with
    | zero => exact Int.negSucc_lt_zero 0
    | succ n ih =>
      rw [lastNewline]
      split <;> omega
  rw [Position.ofOffset]
  cases o with
  | zero => exact iff_of_true rfl (.inl rfl)
  | succ n =>
    rw [lastNewline, Nat.add_sub_cancel]
    split
    · next hline => exact iff_of_true (by simp only; omega) (.inr hline)
    · next hline =>
      have := hle n
      refine iff_of_false (by simp only; omega) fun h => h.elim (Nat.succ_ne_zero n) hline

namespace Blanking

variable {w : Blanking} {l l' m : Lexer}

/-- **Two lexers at one place**, one in the source and one in the source with
comments made blank. They have the same faults to report. -/
structure Beside (w : Blanking) (l l' : Lexer) : Prop where
  name_eq : l'.name = l.name
  source_eq : l.source = w.source
  source_eq' : l'.source = w.result
  cursor : l.cursor.IsIn w.source
  cursor' : l'.cursor.IsIn w.result
  offset_eq : l'.cursor.offset = l.cursor.offset
  whole : w.Whole l.cursor.offset
  said_eq : l'.diagnostics.map Diagnostic.plain = l.diagnostics.map Diagnostic.plain

theorem Whole.move {o stop : Nat} (h : w.Whole o)
    (hnew : ∀ c ∈ w.comments, o ≤ c.offset → c.offset < stop → c.endOffset ≤ stop)
    (hle : o ≤ stop) : w.Whole stop := fun c hc hlt =>
  (Nat.lt_or_ge c.offset o).elim (fun hold => (h c hc hold).trans hle) fun hge => hnew c hc hge hlt

/-- Declarations start at the same places. -/
theorem column_eq_one_iff {o : Nat} (h : w.Whole o) :
    (Position.ofOffset w.result o).column = 1 ↔ (Position.ofOffset w.source o).column = 1 := by
  rw [Position.column_ofOffset_eq_one, Position.column_ofOffset_eq_one]
  refine or_congr_right' fun hpos => ?_
  rcases getElem?_result w (o - 1) with heq | ⟨⟨c, hc, hcovers⟩, heq⟩
  · rw [heq]
  · -- no comment ends with a line end
    obtain ⟨hfrom, hto⟩ := Comment.covers_iff.1 hcovers
    have hend : c.endOffset = o := by
      have := h c hc (by omega)
      omega
    have hlast := (w.marked c hc).last
    rw [hend] at hlast
    rw [heq]
    exact iff_of_false (by decide) hlast

namespace Beside

theorem rest_eq (h : w.Beside l l') : l.cursor.rest = w.source.drop l.cursor.offset :=
  h.cursor.rest_eq

theorem rest_eq' (h : w.Beside l l') : l'.cursor.rest = w.result.drop l.cursor.offset := by
  rw [h.cursor'.rest_eq, h.offset_eq]

theorem length_rest (h : w.Beside l l') : l'.cursor.rest.length = l.cursor.rest.length := by
  rw [h.rest_eq, h.rest_eq', List.length_drop, List.length_drop, length_result]

/-- A number of steps, to where no comment is cut in two. -/
theorem step (h : w.Beside l l') {n : Nat} (hwhole : w.Whole (l.cursor.advance n).offset) :
    w.Beside (l.step n) (l'.step n) where
  name_eq := h.name_eq
  source_eq := h.source_eq
  source_eq' := h.source_eq'
  cursor := h.cursor.advance n
  cursor' := h.cursor'.advance n
  offset_eq := by
    simp only [Lexer.step, Cursor.offset_advance, h.offset_eq, h.length_rest]
  whole := hwhole
  said_eq := h.said_eq

theorem report (h : w.Beside l l') (p p' : Position) (f : LexicalFault) :
    w.Beside (l.report p f) (l'.report p' f) where
  name_eq := h.name_eq
  source_eq := h.source_eq
  source_eq' := h.source_eq'
  cursor := h.cursor
  cursor' := h.cursor'
  offset_eq := h.offset_eq
  whole := h.whole
  said_eq := by
    simp only [Lexer.report, List.map_append, h.said_eq, h.name_eq]
    rfl

/-- Of what is collected nothing counts. -/
theorem of_eq {n n' : Lexer} (h : w.Beside l l') (hname : n.name = l.name)
    (hsource : n.source = l.source) (hcursor : n.cursor = l.cursor)
    (hdiagnostics : n.diagnostics = l.diagnostics) (hname' : n'.name = l'.name)
    (hsource' : n'.source = l'.source) (hcursor' : n'.cursor = l'.cursor)
    (hdiagnostics' : n'.diagnostics = l'.diagnostics) : w.Beside n n' where
  name_eq := by rw [hname', hname, h.name_eq]
  source_eq := hsource.trans h.source_eq
  source_eq' := hsource'.trans h.source_eq'
  cursor := hcursor ▸ h.cursor
  cursor' := hcursor' ▸ h.cursor'
  offset_eq := by rw [hcursor', hcursor, h.offset_eq]
  whole := hcursor ▸ h.whole
  said_eq := by rw [hdiagnostics', hdiagnostics, h.said_eq]

/-- What a move of the first lexer over blanks or a comment is to the other. -/
def Follows (w : Blanking) (l' m : Lexer) : Prop :=
  ∃ m', l'.next = m'.next ∧ w.Beside m m'

/-- The other lexer moves over as many blanks where the comment is blank. -/
theorem collect_blank (h : w.Beside l l') {isBlock : Bool} {n : Nat}
    (hn : n ≤ l.cursor.rest.length) (hmem : l.comment isBlock n ∈ w.comments)
    (hwhole : w.Whole (l.cursor.advance n).offset) : Follows w l' (l.collect isBlock n) := by
  have hlength := h.cursor.length_rest
  have htake : l'.cursor.rest.take n = List.replicate n ' ' := by
    refine List.ext_getElem? fun i => ?_
    rw [List.getElem?_take, List.getElem?_replicate, h.rest_eq', List.getElem?_drop]
    split
    · next hlt =>
      refine getElem?_of_hides ⟨_, hmem, Comment.covers_iff.2 ⟨Nat.le_add_right _ _, ?_⟩⟩ (by omega)
      rw [Lexer.endOffset_comment isBlock hn]
      omega
    · rfl
  exact ⟨l'.step n, Lexer.next_of_blanks htake,
    (h.step hwhole).of_eq rfl rfl rfl rfl rfl rfl rfl rfl⟩

/-- The other lexer collects what is no blank comment. -/
theorem collect (h : w.Beside l l') {isBlock : Bool} {n : Nat}
    (hs : l'.skipOne? = some (l'.collect isBlock n))
    (hwhole : w.Whole (l.cursor.advance n).offset) : Follows w l' (l.collect isBlock n) :=
  ⟨_, Lexer.next_of_skipOne? hs, (h.step hwhole).of_eq rfl rfl rfl rfl rfl rfl rfl rfl⟩

/-- Where the next comment that is blank starts behind a number of characters. -/
theorem exists_common (h : w.Beside l l') {n : Nat}
    (hnone : ∀ c ∈ w.comments, l.cursor.offset ≤ c.offset → l.cursor.offset + n ≤ c.offset) :
    l'.cursor.rest = l.cursor.rest ∨ ∃ xs rest rest', n ≤ xs.length
      ∧ l.cursor.rest = xs ++ '/' :: rest ∧ l'.cursor.rest = xs ++ ' ' :: rest' := by
  rw [h.rest_eq, h.rest_eq']
  rcases split h.whole with heq | ⟨c, hc, xs, rest, rest', hoffset, hsource, hresult⟩
  · exact .inl heq
  · have hge := hnone c hc (by omega)
    exact .inr ⟨xs, rest, rest', by omega, hsource, hresult⟩

/-- A line comment that is not made blank. -/
theorem skipOne?_line (h : w.Beside l l') {rest : List Char}
    (hrest : l.cursor.rest = '/' :: '/' :: rest)
    (hnone : ∀ c ∈ w.comments, l.cursor.offset ≤ c.offset →
      l.cursor.offset + ((rest.takeWhile (· != '\n')).length + 2) ≤ c.offset) :
    l'.skipOne? = some (l'.collect false ((rest.takeWhile (· != '\n')).length + 2)) := by
  rcases h.exists_common hnone with heq | ⟨xs, ys, ys', hlength, hxs, hxs'⟩
  · exact Lexer.skipOne?_line (heq.trans hrest)
  · rw [hrest] at hxs
    match xs with
    | [] => exact absurd hlength (Nat.not_succ_le_zero _)
    | [x] => exact absurd (Nat.le_of_succ_le_succ hlength) (Nat.not_succ_le_zero _)
    | x :: y :: xs =>
      obtain ⟨rfl, htail⟩ := List.cons.inj hxs
      obtain ⟨rfl, rfl⟩ := List.cons.inj htail
      rw [List.append_eq] at hlength ⊢
      have hlt : (xs.takeWhile (· != '\n')).length < xs.length := by
        refine Nat.lt_of_not_le fun hle => ?_
        have hall := (List.takeWhile_prefix (· != '\n') (l := xs)).eq_of_length_le hle
        rw [List.takeWhile_append, hall, if_pos rfl, List.takeWhile_cons_of_pos (by decide)] at hlength
        simp only [List.length_append, List.length_cons] at hlength
        omega
      rw [Lexeme.takeWhile_append_of_lt hlt, ← Lexeme.takeWhile_append_of_lt hlt (' ' :: ys')]
      exact Lexer.skipOne?_line hxs'

/-- A block comment that is not made blank. -/
theorem skipOne?_block (h : w.Beside l l') {rest : List Char} {n : Nat}
    (hrest : l.cursor.rest = '/' :: '*' :: rest) (hn : Lexer.blockLength? rest = some n)
    (hnone : ∀ c ∈ w.comments, l.cursor.offset ≤ c.offset → l.cursor.offset + (n + 2) ≤ c.offset) :
    l'.skipOne? = some (l'.collect true (n + 2)) := by
  rcases h.exists_common hnone with heq | ⟨xs, ys, ys', hlength, hxs, hxs'⟩
  · exact Lexer.skipOne?_block (heq.trans hrest) hn
  · rw [hrest] at hxs
    match xs with
    | [] => exact absurd hlength (Nat.not_succ_le_zero _)
    | [x] => exact absurd (Nat.le_of_succ_le_succ hlength) (Nat.not_succ_le_zero _)
    | x :: y :: xs =>
      obtain ⟨rfl, htail⟩ := List.cons.inj hxs
      obtain ⟨rfl, rfl⟩ := List.cons.inj htail
      have hle : n ≤ xs.length := Nat.le_of_succ_le_succ (Nat.le_of_succ_le_succ hlength)
      exact Lexer.skipOne?_block hxs'
        (Lexer.blockLength?_append (Lexer.blockLength?_of_append hn hle) _)

/-- A block comment without an end. -/
theorem skipOne?_openBlock (h : w.Beside l l') {rest : List Char}
    (hrest : l.cursor.rest = '/' :: '*' :: rest) (hopen : Lexer.blockLength? rest = none)
    (hnone : ∀ c ∈ w.comments, l.cursor.offset ≤ c.offset →
      l.cursor.offset + (rest.length + 2) ≤ c.offset) :
    l'.skipOne?
      = some ((l'.report l'.cursor.position .unterminatedComment).step (rest.length + 2)) := by
  rcases h.exists_common hnone with heq | ⟨xs, ys, ys', hlength, hxs, -⟩
  · exact Lexer.skipOne?_openBlock (heq.trans hrest) hopen
  · have hle := congrArg List.length hxs
    rw [hrest, List.length_append, List.length_cons, List.length_cons, List.length_cons] at hle
    omega

/-- What is neither blank nor a comment is so in both sources. -/
theorem skipOne?_none (h : w.Beside l l') {n : Nat} (hpos : 0 < n)
    (hnone : ∀ c ∈ w.comments, l.cursor.offset ≤ c.offset → l.cursor.offset + n ≤ c.offset)
    (hs : l.skipOne? = none) : l'.skipOne? = none := by
  -- one character is the same, and so is the next one unless it is made blank
  obtain ⟨hfirst, hsecond⟩ : (∀ {c : Char} {rest : List Char}, l'.cursor.rest = c :: rest →
        ∃ rest', l.cursor.rest = c :: rest')
      ∧ ∀ {c d : Char} {rest : List Char}, d ≠ ' ' → l'.cursor.rest = c :: d :: rest →
        ∃ rest', l.cursor.rest = c :: d :: rest' := by
    rcases h.exists_common hnone with heq | ⟨_ | ⟨x, xs⟩, ys, ys', hlength, hxs, hxs'⟩
    · rw [heq]
      exact ⟨fun hr => ⟨_, hr⟩, fun _ hr => ⟨_, hr⟩⟩
    · exact absurd hlength (Nat.not_le.2 hpos)
    · refine ⟨fun hr => ?_, fun hd hr => ?_⟩
      · obtain ⟨rfl, -⟩ := List.cons.inj (hr.symm.trans hxs')
        exact ⟨_, hxs⟩
      · obtain ⟨rfl, htail⟩ := List.cons.inj (hr.symm.trans hxs')
        cases xs with
        | nil => exact absurd (List.cons.inj htail).1 hd
        | cons y xs =>
          obtain ⟨rfl, -⟩ := List.cons.inj htail
          exact ⟨_, hxs⟩
  rw [Lexer.skipOne?] at hs
  split at hs
  case h_5 rest hr => cases hb : Lexer.blockLength? rest <;> rw [hb] at hs <;> cases hs
  case h_6 hspace htab hreturn hslash hstar =>
    rw [Lexer.skipOne?]
    split
    case h_1 rest hr => exact ((hfirst hr).elim fun _ => hspace _).elim
    case h_2 rest hr => exact ((hfirst hr).elim fun _ => htab _).elim
    case h_3 rest hr => exact ((hfirst hr).elim fun _ => hreturn _).elim
    case h_4 rest hr => exact ((hsecond (by decide) hr).elim fun _ => hslash _).elim
    case h_5 rest hr => exact ((hsecond (by decide) hr).elim fun _ => hstar _).elim
    case h_6 => rfl
  all_goals cases hs

/-- **A lexeme in front of which nothing is left to skip** is the same in both
sources. -/
theorem lexemeAt_eq (h : w.Beside l l')
    (hnone : ∀ c ∈ w.comments, l.cursor.offset ≤ c.offset →
      (l.cursor.advance (Lexer.lexemeAt l.cursor.rest).steps).offset ≤ c.offset) :
    Lexer.lexemeAt l'.cursor.rest = Lexer.lexemeAt l.cursor.rest := by
  simp only [Cursor.offset_advance] at hnone
  rcases h.exists_common hnone with heq | ⟨_ | ⟨c, cs⟩, ys, ys', hlength, hxs, hxs'⟩
  · rw [heq]
  · have hpos := (Lexeme.isProper_read '/' ys).steps_pos
    rw [hxs, List.nil_append, Lexer.lexemeAt, List.length_cons, List.length_nil] at hlength
    omega
  · rw [hxs, hxs', List.cons_append, List.cons_append, Lexer.lexemeAt, Lexer.lexemeAt]
    refine Lexeme.read_blank ?_ _
    rw [hxs, List.cons_append, Lexer.lexemeAt, List.length_cons, List.length_cons, List.length_append,
      List.length_cons] at hlength
    omega

end Beside

/-! ## Comments in front of a token -/

/-- **The comments are found**: those that a lexer has found stand in front of it,
and those up to the end of the next token it finds in front of this token. -/
structure Found (w : Blanking) (l : Lexer) : Prop where
  old : ∀ c ∈ w.comments, c ∈ l.pending → c.offset < l.cursor.offset
  new : ∀ c ∈ w.comments, l.cursor.offset ≤ c.offset → c.offset < l.next.2.cursor.offset →
    c ∈ l.next.2.pending

namespace Found

theorem of_skipOne? (h : w.Found l) (hin : l.cursor.IsIn l.source) (hs : l.skipOne? = some m) :
    w.Found m where
  old c hc hmem := ((Lexer.Finds.skipOne? hin hs).pending c hmem).elim
    (fun hold => (h.old c hc hold).trans_le (Lexer.Finds.skipOne? hin hs).le_offset) And.right
  new c hc hle hlt := by
    have hle' := (Lexer.Finds.skipOne? hin hs).le_offset.trans hle
    rw [← Lexer.next_of_skipOne? hs] at hlt ⊢
    exact h.new c hc hle' hlt

/-- A comment on the way is found at once. -/
theorem mem_pending (h : w.Found l) (hin : l.cursor.IsIn l.source) (hs : l.skipOne? = some m)
    {c : Comment} (hc : c ∈ w.comments) (hle : l.cursor.offset ≤ c.offset)
    (hlt : c.offset < m.cursor.offset) : c ∈ m.pending := by
  have hskip := Lexer.Finds.skipOne? hin hs
  have hgrows := Lexer.grows_next (hskip.source_eq.symm ▸ hskip.cursor)
  have hmem := h.new c hc hle (by
    rw [Lexer.next_of_skipOne? hs]
    exact hlt.trans_le hgrows.le_offset)
  obtain ⟨cs, hcs, hrow⟩ := hgrows.pending
  rw [Lexer.next_of_skipOne? hs, hcs] at hmem
  exact (List.mem_append.1 hmem).resolve_right fun hlate =>
    absurd (hrow.of_mem hlate).1 (Nat.not_le.2 hlt)

/-- Where nothing is collected no comment is blank. -/
theorem none_of_pending (h : w.Found l) (hin : l.cursor.IsIn l.source) (hs : l.skipOne? = some m)
    (hpending : m.pending = l.pending) :
    ∀ c ∈ w.comments, l.cursor.offset ≤ c.offset → m.cursor.offset ≤ c.offset := by
  intro c hc hle
  refine Nat.le_of_not_lt fun hlt => ?_
  have hold := h.old c hc (hpending ▸ h.mem_pending hin hs hc hle hlt)
  omega

/-- Where a comment is collected no other one is blank. -/
theorem eq_of_collect (h : w.Found l) (hin : l.cursor.IsIn l.source) {isBlock : Bool} {n : Nat}
    (hs : l.skipOne? = some (l.collect isBlock n)) {c : Comment} (hc : c ∈ w.comments)
    (hle : l.cursor.offset ≤ c.offset) (hlt : c.offset < (l.cursor.advance n).offset) :
    c = l.comment isBlock n := by
  rcases List.mem_append.1 (h.mem_pending hin hs hc hle hlt) with hold | hnew
  · have hbefore := h.old c hc hold
    omega
  · exact List.mem_singleton.1 hnew

/-- No comment starts in a token. -/
theorem none_of_skipOne?_none (h : w.Found l) (hs : l.skipOne? = none) :
    ∀ c ∈ w.comments, l.cursor.offset ≤ c.offset → l.next.2.cursor.offset ≤ c.offset := by
  intro c hc hle
  refine Nat.le_of_not_lt fun hlt => ?_
  have hmem := h.new c hc hle hlt
  rw [Lexer.pending_next, Lexer.skipTrivia, Lexer.skipUpTo_of_none hs] at hmem
  have hbefore := h.old c hc hmem
  omega

end Found

namespace Beside

theorem isIn (h : w.Beside l l') : l.cursor.IsIn l.source :=
  h.source_eq ▸ h.cursor

/-- A comment, whether it is made blank or not. -/
theorem follows_collect (h : w.Beside l l') (hfound : w.Found l) {isBlock : Bool} {n : Nat}
    (hs : l.skipOne? = some (l.collect isBlock n)) (hn : n ≤ l.cursor.rest.length)
    (hother : (∀ c ∈ w.comments, l.cursor.offset ≤ c.offset → l.cursor.offset + n ≤ c.offset) →
      l'.skipOne? = some (l'.collect isBlock n)) : Follows w l' (l.collect isBlock n) := by
  have hoffset : (l.cursor.advance n).offset = l.cursor.offset + n := by
    rw [Cursor.offset_advance, Nat.min_eq_left hn]
  have honly : ∀ c ∈ w.comments, l.cursor.offset ≤ c.offset → c.offset < l.cursor.offset + n →
      c = l.comment isBlock n := fun c hc hle hlt =>
    hfound.eq_of_collect h.isIn hs hc hle (hoffset ▸ hlt)
  have hwhole : w.Whole (l.cursor.advance n).offset := by
    refine h.whole.move (fun c hc hle hlt => ?_) (hoffset ▸ Nat.le_add_right _ _)
    rw [honly c hc hle (hoffset ▸ hlt), Lexer.endOffset_comment isBlock hn, hoffset]
  by_cases hmem : l.comment isBlock n ∈ w.comments
  · exact h.collect_blank hn hmem hwhole
  · refine h.collect (hother fun c hc hle => Nat.le_of_not_lt fun hlt => hmem ?_) hwhole
    exact honly c hc hle hlt ▸ hc

/-- **What the first lexer moves over the other one moves over**, too. -/
theorem follows_skips (h : w.Beside l l') (hfound : w.Found l) (hs : l.skipOne? = some m) :
    Follows w l' m := by
  cases Lexer.skips_of_skipOne? hs with
  | @blank c rest hrest hblank =>
    have hnone := hfound.none_of_pending h.isIn hs rfl
    have hoffset : (l.cursor.advance 1).offset = l.cursor.offset + 1 := by
      rw [Cursor.offset_advance, hrest, List.length_cons]
      omega
    have hwhole : w.Whole (l.cursor.advance 1).offset := h.whole.move
      (fun c hc hle hlt => absurd (hnone c hc hle) (Nat.not_le.2 hlt)) (hoffset ▸ Nat.le_succ _)
    refine ⟨l'.step 1, Lexer.next_of_skipOne? ?_, h.step hwhole⟩
    rcases h.exists_common (n := 1) fun c hc hle => hoffset ▸ hnone c hc hle with
      heq | ⟨_ | ⟨x, xs⟩, ys, ys', hlength, hxs, hxs'⟩
    · exact Lexer.skipOne?_blank (heq.trans hrest) hblank
    · exact absurd hlength (Nat.not_succ_le_zero _)
    · obtain ⟨rfl, -⟩ := List.cons.inj (hxs.symm.trans hrest)
      exact Lexer.skipOne?_blank hxs' hblank
  | line hrest =>
    exact h.follows_collect hfound hs (Lexer.length_line_le hrest) (h.skipOne?_line hrest)
  | block hrest hlength =>
    exact h.follows_collect hfound hs (Lexer.length_block_le hrest hlength)
      (h.skipOne?_block hrest hlength)
  | @openBlock rest hrest hopen =>
    have hnone := hfound.none_of_pending h.isIn hs rfl
    have hoffset : (l.cursor.advance (rest.length + 2)).offset
        = l.cursor.offset + (rest.length + 2) := by
      rw [Cursor.offset_advance, hrest, List.length_cons, List.length_cons, Nat.min_self]
    have hwhole : w.Whole (l.cursor.advance (rest.length + 2)).offset := h.whole.move
      (fun c hc hle hlt => absurd (hnone c hc hle) (Nat.not_le.2 hlt))
      (hoffset ▸ Nat.le_add_right _ _)
    exact ⟨_, Lexer.next_of_skipOne?
      (h.skipOne?_openBlock hrest hopen fun c hc hle => hoffset ▸ hnone c hc hle),
      (h.report _ _ _).step hwhole⟩

/-- What two lexers beside each other read next. -/
structure ReadsAlike (w : Blanking) (l l' : Lexer) : Prop where
  token : l.next.1.Alike l'.next.1
  beside : w.Beside l.next.2 l'.next.2
  whole : w.Whole l.next.1.start

/-- A lexeme that both lexers read as a token. -/
theorem emit (h : w.Beside l l') {x : Lexeme} (hwhole : w.Whole (l.cursor.advance x.steps).offset)
    (p p' : Position) :
    w.Beside ({ l with tokenStart := p }.emit x).2 ({ l' with tokenStart := p' }.emit x).2 := by
  have hstep := h.step hwhole
  unfold Lexer.emit
  cases x.fault with
  | none => exact hstep.of_eq rfl rfl rfl rfl rfl rfl rfl rfl
  | some f => exact (hstep.report p p' f).of_eq rfl rfl rfl rfl rfl rfl rfl rfl

/-- A token with nothing in front of it. -/
theorem next_of_skipOne?_none (h : w.Beside l l') (hfound : w.Found l)
    (hs : l.skipOne? = none) : ReadsAlike w l l' := by
  have hnone := hfound.none_of_skipOne?_none hs
  have htrivia : l.skipTrivia = l := Lexer.skipUpTo_of_none hs
  have hnext : l.next = l.startToken.emit (Lexer.lexemeAt l.cursor.rest) := by
    rw [Lexer.next, htrivia]
    rfl
  have hstop : l.next.2.cursor.offset
      = (l.cursor.advance (Lexer.lexemeAt l.cursor.rest).steps).offset := by
    rw [hnext]
    rfl
  rw [hstop] at hnone
  have hwhole : w.Whole (l.cursor.advance (Lexer.lexemeAt l.cursor.rest).steps).offset := by
    refine h.whole.move (fun c hc hle hlt => absurd (hnone c hc hle) (Nat.not_le.2 hlt)) ?_
    rw [Cursor.offset_advance]
    exact Nat.le_add_right _ _
  have hlexeme := h.lexemeAt_eq hnone
  have hs' : l'.skipOne? = none := by
    cases hr : l.cursor.rest with
    | nil =>
      refine Lexer.skipOne?_nil (List.length_eq_zero_iff.1 ?_)
      rw [h.length_rest, hr, List.length_nil]
    | cons c rest =>
      have hpos := (Lexeme.isProper_read c rest).steps_pos
      refine h.skipOne?_none Nat.one_pos (fun d hd hle => ?_) hs
      refine Nat.le_trans ?_ (hnone d hd hle)
      rw [Cursor.offset_advance, hr, Lexer.lexemeAt, List.length_cons]
      omega
  have hnext' : l'.next = l'.startToken.emit (Lexer.lexemeAt l.cursor.rest) := by
    rw [Lexer.next, Lexer.skipTrivia, Lexer.skipUpTo_of_none hs', ← hlexeme]
    rfl
  refine ⟨?_, ?_, ?_⟩
  · rw [hnext, hnext']
    refine ⟨rfl, rfl, h.offset_eq, ?_⟩
    cases hr : l.cursor.rest with
    | nil =>
      exact (Token.startsDeclaration_of_end rfl).trans (Token.startsDeclaration_of_end rfl).symm
    | cons c rest =>
      have hlt := h.cursor.offset_lt (by rw [hr]; exact List.cons_ne_nil _ _)
      refine Token.startsDeclaration_congr rfl rfl ?_
      change l'.cursor.position.column = 1 ↔ l.cursor.position.column = 1
      rw [h.cursor.position_eq hlt, h.cursor'.position_eq (by rw [length_result, h.offset_eq]; exact hlt),
        h.offset_eq]
      exact column_eq_one_iff h.whole
  · rw [hnext, hnext']
    exact h.emit hwhole _ _
  · rw [hnext]
    exact h.whole

/-- **Two lexers beside each other read the same token** and stay beside each
other, as long as the first one finds the comments that are blank. -/
theorem next (h : w.Beside l l') (hfound : w.Found l) : ReadsAlike w l l' := by
  generalize hlength : l.cursor.rest.length = n
  induction n using Nat.strong_induction_on generalizing l l' with
  | _ n ih =>
    cases hs : l.skipOne? with
    | none => exact h.next_of_skipOne?_none hfound hs
    | some m =>
      obtain ⟨m', hnext', hm⟩ := h.follows_skips hfound hs
      have hless : m.cursor.rest.length < n := hlength ▸ Lexer.length_skipOne?_lt hs
      obtain ⟨htoken, hbeside, hwhole⟩ := ih _ hless hm (hfound.of_skipOne? h.isIn hs) rfl
      rw [← Lexer.next_of_skipOne? hs] at htoken hbeside hwhole
      rw [← hnext'] at htoken hbeside
      exact ⟨htoken, hbeside, hwhole⟩

end Beside

end Blanking

end Gsx
