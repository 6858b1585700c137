import Gsx.Proofs.Blanking.Lexers
import Gsx.Proofs.Grammar.Route
/-!
# Where the line ends go

A line ends with a token of its own unless something has taken the line end
along. A block comment does so, and a literal in backquotes; but so does a
string behind a backslash, whatever an escape may mean there, and a rune that
has no other character (`Lexeme.TakesAlong`). Nothing else reaches over a line
end: a string that comes to one in any other place ends there and is reported
(`newlines_read`).
-/

namespace Gsx

/-! ## Line ends in a lexeme -/

namespace Lexeme

variable {c : Char} {pre post body cs : List Char} {k : Nat}

/-- **Where a literal takes a line end along**, counted from its opening quote:
anywhere behind a backquote, behind a backslash in a string, and in a rune as
its character, with a backslash in front of it or not. -/
def TakesAlong (cs : List Char) (k : Nat) : Prop :=
  cs.head? = some '\x60' ∨ cs.head? = some '"' ∧ cs[k - 1]? = some '\\'
    ∨ cs.head? = some '\'' ∧ (k = 1 ∨ k = 2 ∧ cs[1]? = some '\\')

/-- **A string that is still open** behind its quote: no quote and no line end
has been met, other than behind a backslash. -/
inductive StaysOpen : List Char → Prop
  | nil : StaysOpen []
  | plain {c : Char} {cs : List Char} (hslash : c ≠ '\\') (hquote : c ≠ '"') (hline : c ≠ '\n') :
      StaysOpen cs → StaysOpen (c :: cs)
  | escape (c : Char) {cs : List Char} : StaysOpen cs → StaysOpen ('\\' :: c :: cs)

/-- A string that is open at a line end stays without its closing quote, and
ends in front of the line end. -/
theorem StaysOpen.stringBody_newline (h : StaysOpen body) (post : List Char) :
    (stringBody (body ++ '\n' :: post)).closed = false
      ∧ (stringBody (body ++ '\n' :: post)).steps = body.length := by
  induction h with
  | nil => exact ⟨rfl, rfl⟩
  | plain hslash hquote hline _ ih =>
    rw [List.cons_append, stringBody_cons hslash, if_neg hquote, if_neg hline]
    exact ⟨ih.1, by rw [StringBody.push, ih.2, List.length_cons, Nat.add_comm]⟩
  | escape c _ ih =>
    rw [List.cons_append, List.cons_append, stringBody]
    exact ⟨ih.1, by rw [StringBody.push, ih.2, List.length_cons, List.length_cons, Nat.add_comm]⟩

/-- A string reaches over a line end only behind a backslash. -/
theorem getLast?_of_lt_steps_stringBody
    (h : pre.length < (stringBody (pre ++ '\n' :: post)).steps) : pre.getLast? = some '\\' := by
  fun_induction stringBody pre with
  | case1 => exact absurd h (Nat.lt_irrefl _)
  | case2 => rfl
  | case3 c cs ih =>
    simp only [List.cons_append, stringBody, StringBody.push, List.length_cons] at h
    rw [List.getLast?_cons, List.getLast?_cons, ih (by omega)]
    rfl
  | case4 cs =>
    simp only [List.cons_append, stringBody_cons (c := '"') (by decide), if_true,
      List.length_cons] at h
    omega
  | case5 cs =>
    simp only [List.cons_append, stringBody_cons (c := '\n') (by decide), if_true,
      List.length_cons] at h
    exact absurd h (Nat.not_lt_zero _)
  | case6 c cs hnil hcons hquote hline ih =>
    have hslash : c ≠ '\\' := ne_of_nil_of_cons hnil hcons
    simp only [List.cons_append, stringBody_cons hslash, if_neg hquote, if_neg hline,
      StringBody.push, List.length_cons] at h
    rw [List.getLast?_cons, ih (by omega)]
    rfl

theorem steps_string (cs : List Char) : (string cs).steps = (stringBody cs).steps + 1 := by
  simp only [string]
  split <;> rfl

/-- The end of a rune does not reach over a line end. -/
theorem steps_runeEnd_le_of_newline (value : List Char) (n : Nat) (pre post : List Char) :
    (runeEnd value n (pre ++ '\n' :: post)).steps ≤ pre.length + n := by
  cases pre with
  | nil => exact Nat.le_add_left _ _
  | cons c pre =>
    rw [runeEnd, List.length_cons]
    split
    · simp only [sound]
      omega
    · simp only [faulty]
      omega

/-- A rune reaches over a line end only where that is its character. -/
theorem eq_of_lt_steps_rune (h : pre.length + 1 < (rune (pre ++ '\n' :: post)).steps) :
    pre = [] ∨ pre = ['\\'] := by
  cases pre with
  | nil => exact .inl rfl
  | cons c pre =>
    rw [List.cons_append] at h
    by_cases hslash : c = '\\'
    · subst hslash
      cases pre with
      | nil => exact .inr rfl
      | cons d pre =>
        -- behind the escaped character stands the line end or something before it
        rw [List.cons_append, rune] at h
        have hle := steps_runeEnd_le_of_newline [(escape? '\'' d).getD d] 3 pre post
        simp only [List.length_cons] at h
        omega
    · rw [rune_cons hslash] at h
      simp only [List.length_cons] at h
      split at h
      · simp only [faulty] at h
        omega
      · have hle := steps_runeEnd_le_of_newline [c] 2 pre post
        omega

/-- What does not start with a quote does not reach over a line end. -/
theorem steps_read_le_of_newline (hc : isQuote c = false) (pre post : List Char) :
    (read c (pre ++ '\n' :: post)).steps ≤ pre.length + 1 := by
  have hone : 1 ≤ pre.length + 1 := Nat.le_add_left _ _
  have hword : continuesWord '\n' = false := continuesWord_of_isDelimiter rfl
  have hnumber := endsNumber_of_isDelimiter (d := '\n') rfl
  have hpair {d : Char} (hhead : (pre ++ '\n' :: post).head? = some d) (hd : d ≠ '\n') :
      2 ≤ pre.length + 1 := by
    cases pre with
    | nil => exact absurd (Option.some.inj hhead).symm hd
    | cons e pre => exact Nat.succ_le_succ (Nat.succ_pos _)
  unfold read
  split
  case h_1 => exact hone
  case h_2 | h_3 | h_5 =>
    split
    · next hhead => exact hpair hhead (by decide)
    · exact hone
  case h_4 =>
    split
    · rw [← List.cons_append, number_append hnumber]
      exact steps_number_le _
    · exact hone
  case h_6 =>
    split
    · rw [← List.cons_append, word_append hword]
      exact steps_word_le _
    · exact hone
  case h_7 =>
    rw [directive_append hword]
    exact steps_directive_le _
  case h_8 | h_9 | h_10 => exact absurd hc (by decide)
  case h_11 =>
    split
    · exact hone
    · split
      · rw [← List.cons_append, word_append hword]
        exact steps_word_le _
      · split
        · rw [← List.cons_append, number_append hnumber]
          exact steps_number_le _
        · exact hone

theorem getElem?_append_cons (pre : List Char) (c : Char) (post : List Char) :
    (pre ++ c :: post)[pre.length]? = some c := by
  rw [List.getElem?_append_right (Nat.le_refl _), Nat.sub_self]
  rfl

/-- **Which lexemes reach over a line end**: the line end itself, and the
literals that take it along. -/
theorem takesAlong_read {rest : List Char} (hk : (c :: rest)[k]? = some '\n')
    (hlt : k < (read c rest).steps) : k = 0 ∨ TakesAlong (c :: rest) k := by
  cases k with
  | zero => exact .inl rfl
  | succ k =>
    refine .inr ?_
    obtain ⟨pre, post, rfl, rfl⟩ : ∃ pre post, rest = pre ++ '\n' :: post ∧ pre.length = k := by
      rw [List.getElem?_cons_succ] at hk
      obtain ⟨hlength, hget⟩ := List.getElem?_eq_some_iff.1 hk
      refine ⟨rest.take k, rest.drop (k + 1), ?_, List.length_take_of_le (Nat.le_of_lt hlength)⟩
      rw [← hget, List.getElem_cons_drop, List.take_append_drop]
    cases hc : isQuote c with
    | false => exact absurd hlt (Nat.not_lt.2 (steps_read_le_of_newline hc pre post))
    | true =>
      rw [isQuote, Bool.or_eq_true, Bool.or_eq_true, beq_iff_eq, beq_iff_eq, beq_iff_eq] at hc
      rcases hc with (rfl | rfl) | rfl
      · change _ < (string _).steps at hlt
        rw [steps_string] at hlt
        have hlast := getLast?_of_lt_steps_stringBody (Nat.lt_of_succ_lt_succ hlt)
        obtain ⟨init, rfl⟩ := List.getLast?_eq_some_iff.1 hlast
        refine .inr (.inl ⟨rfl, ?_⟩)
        rw [Nat.add_sub_cancel, List.length_append, List.length_singleton, List.getElem?_cons_succ,
          List.append_assoc]
        exact getElem?_append_cons init '\\' _
      · rcases eq_of_lt_steps_rune hlt with rfl | rfl
        · exact .inr (.inr ⟨rfl, .inl rfl⟩)
        · exact .inr (.inr ⟨rfl, .inr ⟨rfl, rfl⟩⟩)
      · exact .inl rfl

end Lexeme

/-! ## Line ends between tokens -/

namespace Lexer

variable {l m : Lexer} {p : Nat}

/-- **A line end that one move goes over** is in a block comment, one that is
collected or one that never ends. -/
theorem Skips.newline (hs : Skips l m) (h : l.cursor.IsIn l.source) (hle : l.cursor.offset ≤ p)
    (hlt : p < m.cursor.offset) (hline : l.source[p]? = some '\n') :
    (∃ c ∈ m.pending, c.isBlock ∧ c.covers p)
      ∨ IsOpenComment l.source l.cursor.offset ∧ m.cursor.rest = [] := by
  obtain ⟨k, rfl⟩ := Nat.exists_eq_add_of_le hle
  have hk : l.cursor.rest[k]? = some '\n' := by
    rw [h.rest_eq, List.getElem?_drop]
    exact hline
  cases hs with
  | blank hrest hblank =>
    change _ < (l.cursor.advance 1).offset at hlt
    rw [Cursor.offset_advance] at hlt
    obtain rfl : k = 0 := by omega
    rw [hrest] at hk
    obtain rfl := Option.some.inj hk
    exact absurd hblank (by decide)
  | line hrest =>
    change _ < (l.cursor.advance _).offset at hlt
    rw [Cursor.offset_advance] at hlt
    refine absurd (List.mem_of_getElem? (i := k) ?_) (newline_notMem_line hrest)
    rw [List.getElem?_take, if_pos (by omega)]
    exact hk
  | @block rest n hrest hlength =>
    refine .inl ⟨l.comment true (n + 2), List.mem_append_right _ (List.mem_singleton.2 rfl), rfl, ?_⟩
    change _ < (l.cursor.advance _).offset at hlt
    rw [Cursor.offset_advance, Nat.min_eq_left (length_block_le hrest hlength)] at hlt
    rw [Comment.covers_iff, endOffset_comment true (length_block_le hrest hlength)]
    exact ⟨Nat.le_add_right _ _, hlt⟩
  | @openBlock rest hrest hopen =>
    refine .inr ⟨⟨rest, h.rest_eq ▸ hrest, not_infix_of_blockLength? hopen⟩, ?_⟩
    change (l.cursor.advance _).rest = []
    rw [Cursor.rest_advance, hrest]
    exact List.drop_of_length_le (Nat.le_refl _)

/-- So is one that a lexer goes over on its way to a token. -/
theorem newline_skipUpTo (h : l.cursor.IsIn l.source) (fuel : Nat) (hle : l.cursor.offset ≤ p)
    (hlt : p < (skipUpTo fuel l).cursor.offset) (hline : l.source[p]? = some '\n') :
    (∃ c ∈ (skipUpTo fuel l).pending, c.isBlock ∧ c.covers p)
      ∨ (∃ q, l.cursor.offset ≤ q ∧ q ≤ p ∧ IsOpenComment l.source q)
        ∧ (skipUpTo fuel l).cursor.rest = [] := by
  induction fuel generalizing l with
  | zero => exact absurd hlt (Nat.not_lt.2 hle)
  | succ fuel ih =>
    rw [skipUpTo] at hlt ⊢
    cases hs : l.skipOne? with
    | none =>
      rw [hs] at hlt
      exact absurd hlt (Nat.not_lt.2 hle)
    | some m =>
      rw [hs] at hlt
      have hm := Crosses.skipOne? h hs
      have hin : m.cursor.IsIn m.source := hm.source_eq ▸ hm.cursor
      simp only
      by_cases hbehind : m.cursor.offset ≤ p
      · rcases ih hin hbehind hlt (hm.source_eq ▸ hline) with
          hblock | ⟨⟨q, hq, hqp, hopen⟩, hrest⟩
        · exact .inl hblock
        · exact .inr ⟨⟨q, hm.le_offset.trans hq, hqp, hm.source_eq ▸ hopen⟩, hrest⟩
      · have hlater := Crosses.skipUpTo hin fuel
        rcases (skips_of_skipOne? hs).newline h hle (Nat.not_le.1 hbehind) hline with
          ⟨c, hc, hblock⟩ | ⟨hopen, hrest⟩
        · exact .inl ⟨c, hlater.pending_subset hc, hblock⟩
        · refine .inr ⟨⟨_, le_rfl, hle, hopen⟩, ?_⟩
          rw [skipUpTo_of_none (skipOne?_nil hrest), hrest]

/-! ## Tokens at their places -/

/-- **What a token is**, told by the lexeme that stands at its start. -/
theorem lexeme_token (h : l.cursor.IsIn l.source) (n : Nat) :
    let x := lexemeAt (l.source.drop (l.token n).start)
    (l.token n).kind = x.kind ∧ (l.token n).literal = String.ofList x.literal
      ∧ (after (n + 1) l).cursor.offset
        = (l.token n).start + min x.steps (l.source.length - (l.token n).start)
      ∧ ∀ f, x.fault = some f →
        .error l.name (l.token n).position f.message ∈ (after (n + 1) l).diagnostics := by
  obtain ⟨hsource, hin⟩ := isIn_after h n
  have hname := (grows_after h n).name_eq
  have hcrosses := Crosses.skipTrivia (l := after n l) (hsource ▸ hin)
  have hrest : (after n l).skipTrivia.cursor.rest = l.source.drop (l.token n).start :=
    hsource ▸ hcrosses.cursor.rest_eq
  rw [after_succ, ← hrest]
  refine ⟨rfl, rfl, ?_, fun f hf => ?_⟩
  · change ((after n l).skipTrivia.cursor.advance _).offset = _
    rw [Cursor.offset_advance, hcrosses.cursor.length_rest, hsource]
    rfl
  · have hnext : (after n l).next.2 = ((after n l).skipTrivia.startToken.emit
        (lexemeAt (after n l).skipTrivia.cursor.rest)).2 := rfl
    rw [hnext, emit, hf, ← hname, ← hcrosses.name_eq]
    exact List.mem_append_right _ (List.mem_singleton.2 rfl)

/-- The token of the line end at an offset. -/
def lineEnd (l : Lexer) (p : Nat) : Token :=
  ⟨.newline, "\n", .ofOffset l.source p, p⟩

/-- **A token that starts at a line end** is that of the line end. -/
theorem token_eq_lineEnd (h : l.cursor.IsIn l.source) {n : Nat}
    (hline : l.source[(l.token n).start]? = some '\n') :
    l.token n = l.lineEnd (l.token n).start := by
  obtain ⟨hlt, hget⟩ := List.getElem?_eq_some_iff.1 hline
  obtain ⟨hkind, hliteral, -⟩ := lexeme_token h n
  rw [List.drop_eq_getElem_cons hlt, hget] at hkind hliteral
  change Token.mk (l.token n).kind (l.token n).literal (l.token n).position _ = _
  rw [hkind, hliteral, position_token h hlt]
  rfl

/-- In front of a line end there is nothing to skip. -/
theorem token_of_current?_newline (h : l.cursor.IsIn l.source) {n : Nat}
    (hline : l.source[(after n l).cursor.offset]? = some '\n') :
    l.token n = l.lineEnd (after n l).cursor.offset := by
  obtain ⟨hsource, hin⟩ := isIn_after h n
  obtain ⟨rest, hrest⟩ : ∃ rest, (after n l).cursor.rest = '\n' :: rest := by
    rw [← hin.current?_eq, Cursor.current?] at hline
    exact List.head?_eq_some_iff.1 hline
  have hstay : (after n l).skipTrivia = after n l :=
    skipUpTo_of_none (by rw [skipOne?, hrest]; rfl)
  have hstart : (l.token n).start = (after n l).cursor.offset := by
    change (after n l).skipTrivia.cursor.offset = _
    rw [hstay]
  rw [← hstart]
  exact token_eq_lineEnd h (hstart ▸ hline)

/-- **Where a token takes a line end along**: it starts in front of the offset
and ends behind it, as a literal that does so there. -/
def TakesAlong (l : Lexer) (n p : Nat) : Prop :=
  (l.token n).start < p ∧ p < (after (n + 1) l).cursor.offset
    ∧ Lexeme.TakesAlong (l.source.drop (l.token n).start) (p - (l.token n).start)

/-- **Which line ends are inside a token**: its own, and those it takes along. -/
theorem newline_in_token (h : l.cursor.IsIn l.source) {n : Nat} (hle : (l.token n).start ≤ p)
    (hlt : p < (after (n + 1) l).cursor.offset) (hline : l.source[p]? = some '\n') :
    l.token n = l.lineEnd p ∨ l.TakesAlong n p := by
  obtain ⟨k, rfl⟩ := Nat.exists_eq_add_of_le hle
  obtain ⟨-, -, hstop, -⟩ := lexeme_token h n
  rw [← List.getElem?_drop] at hline
  have hlength := (List.getElem?_eq_some_iff.1 hline).1
  cases hdrop : l.source.drop (l.token n).start with
  | nil => rw [hdrop] at hline; cases hline
  | cons c rest =>
    rw [hdrop] at hline hstop
    rcases Nat.eq_zero_or_pos k with rfl | hpos
    · exact .inl (token_eq_lineEnd h (by rw [← List.head?_drop, hdrop]; exact hline))
    · refine .inr ⟨Nat.lt_add_of_pos_right hpos, hlt, ?_⟩
      have hsteps : k < (Lexeme.read c rest).steps := by
        change _ = _ + min (Lexeme.read c rest).steps _ at hstop
        omega
      rw [Nat.add_sub_cancel_left, hdrop]
      exact (Lexeme.takesAlong_read hline hsteps).resolve_left (Nat.ne_of_gt hpos)

/-- **Which line ends are between tokens**: those in block comments. -/
theorem newline_in_gap (h : l.cursor.IsIn l.source) {n : Nat}
    (hle : (after n l).cursor.offset ≤ p) (hlt : p < (l.token n).start)
    (hline : l.source[p]? = some '\n') :
    (∃ c ∈ (after (n + 1) l).pending, c.isBlock ∧ c.covers p)
      ∨ (l.token n).kind = .endOfInput
        ∧ ∃ q, (after n l).cursor.offset ≤ q ∧ q ≤ p ∧ IsOpenComment l.source q := by
  obtain ⟨hsource, hin⟩ := isIn_after h n
  rw [after_succ, pending_next]
  refine (newline_skipUpTo (l := after n l) (hsource ▸ hin) _ hle hlt (hsource ▸ hline)).imp_right
    fun ⟨hopen, hrest⟩ => ⟨?_, hsource ▸ hopen⟩
  change (lexemeAt (after n l).skipTrivia.cursor.rest).kind = _
  rw [skipTrivia, hrest]
  rfl

/-- Every offset that tokens have been read up to is behind the start of one of
them, or in front of it and behind the one before. -/
theorem exists_behind {n : Nat} (hle : l.cursor.offset ≤ p)
    (hlt : p < (after n l).cursor.offset) :
    ∃ i < n, (after i l).cursor.offset ≤ p ∧ p < (after (i + 1) l).cursor.offset := by
  induction n with
  | zero => exact absurd hlt (Nat.not_lt.2 hle)
  | succ n ih =>
    by_cases hbehind : (after n l).cursor.offset ≤ p
    · exact ⟨n, Nat.lt_succ_self n, hbehind, hlt⟩
    · obtain ⟨i, hi, hplace⟩ := ih (Nat.not_le.1 hbehind)
      exact ⟨i, Nat.lt_succ_of_lt hi, hplace⟩

/-- **Whether an offset is in a block comment**: one that is collected, or one
that never ends, which no token follows. -/
def InBlockComment (l : Lexer) (p : Nat) : Prop :=
  (∃ c ∈ l.tokenize.2.pending, c.isBlock ∧ c.covers p)
    ∨ ∃ n q, (l.token n).kind = .endOfInput ∧ (after n l).cursor.offset ≤ q ∧ q ≤ p
      ∧ IsOpenComment l.source q

/-! ### Where a token starts -/

/-- Where a token starts is not between two others. -/
theorem start_lt_of_start_lt (h : l.cursor.IsIn l.source) {i j : Nat}
    (hthere : (l.token j).kind ≠ .endOfInput) (hlt : (l.token j).start < (l.token i).start) :
    (l.token j).start < (after i l).cursor.offset := by
  have hji : j < i := Nat.lt_of_not_le fun hle => absurd hlt (Nat.not_lt.2 (start_token_mono h hle))
  exact ((reads_token h j).start_lt hthere).trans_le (grows_after_of_le h hji).le_offset

/-- It is in no comment. -/
theorem not_covers_start (h : l.cursor.IsIn l.source) (hnone : l.pending = []) {n j : Nat}
    (hthere : (l.token j).kind ≠ .endOfInput) {c : Comment} (hc : c ∈ (after n l).pending) :
    ¬c.covers (l.token j).start := by
  intro hcovers
  obtain ⟨i, -, hbehind, hfront⟩ := exists_of_mem_pending h hnone hc
  obtain ⟨hle, hlt⟩ := Comment.covers_iff.1 hcovers
  have hbefore := start_lt_of_start_lt h (i := i) hthere (by omega)
  omega

/-- It is in front of everything that the end of the input comes behind. -/
theorem start_lt_of_endOfInput (h : l.cursor.IsIn l.source) {i j : Nat}
    (hthere : (l.token j).kind ≠ .endOfInput) (hend : (l.token i).kind = .endOfInput) :
    (l.token j).start < (after i l).cursor.offset := by
  refine start_lt_of_start_lt h hthere ?_
  rw [(reads_token h i).start_end hend, (isIn_after h i).1]
  exact start_token_lt_length h hthere

/-- And no other token takes it along. -/
theorem not_takesAlong_start (h : l.cursor.IsIn l.source) (i j : Nat) :
    ¬l.TakesAlong i (l.token j).start := by
  rintro ⟨hlt, hstop, -⟩
  rcases Nat.lt_or_ge i j with hij | hij
  · have hle : (after (i + 1) l).cursor.offset ≤ (l.token j).start :=
      (grows_after_of_le h hij).le_offset.trans (reads_token h j).le_start
    omega
  · have hle := start_token_mono h hij
    omega

/-! ### The line ends of a source -/

/-- **A string that comes to a line end** is an error that is reported, and the
line end is the next token. -/
theorem string_newline (h : l.cursor.IsIn l.source) {n : Nat} {body rest : List Char}
    (hdrop : l.source.drop (l.token n).start = '"' :: (body ++ '\n' :: rest))
    (hopen : Lexeme.StaysOpen body) :
    (l.token n).kind = .error
      ∧ .error l.name (l.token n).position LexicalFault.unterminatedString.message
        ∈ (after (n + 1) l).diagnostics
      ∧ l.token (n + 1) = l.lineEnd ((l.token n).start + body.length + 1) := by
  obtain ⟨hclosed, hsteps⟩ := hopen.stringBody_newline rest
  obtain ⟨hkind, -, hstop, hreported⟩ := lexeme_token h n
  have hlexeme : lexemeAt (l.source.drop (l.token n).start)
      = .faulty .unterminatedString (Lexeme.stringBody (body ++ '\n' :: rest)).value
        (body.length + 1) := by
    rw [hdrop]
    change Lexeme.string _ = _
    simp only [Lexeme.string, hclosed, hsteps, Bool.false_eq_true, if_false]
  rw [hlexeme] at hkind hstop hreported
  refine ⟨hkind, hreported _ rfl, ?_⟩
  have hbehind : (after (n + 1) l).cursor.offset = (l.token n).start + body.length + 1 := by
    have hlength := congrArg List.length hdrop
    simp only [List.length_drop, List.length_cons, List.length_append] at hlength
    simp only [Lexeme.faulty] at hstop
    omega
  have hline : l.source[(after (n + 1) l).cursor.offset]? = some '\n' := by
    rw [hbehind, Nat.add_assoc, ← List.getElem?_drop, hdrop, List.getElem?_cons_succ]
    exact Lexeme.getElem?_append_cons body '\n' rest
  rw [token_of_current?_newline h hline, hbehind]

/-- All tokens of a source, up to the end of the input. -/
theorem exists_tokenize_eq (name source : String) :
    ∃ n, (ofSource name source).tokenize
        = ((List.range (n + 1)).map (ofSource name source).token, after (n + 1) (ofSource name source))
      ∧ ((ofSource name source).token n).kind = .endOfInput := by
  have hl : (ofSource name source).cursor.IsIn (ofSource name source).source :=
    Cursor.IsIn.start source.toList
  obtain ⟨n, -, htokens, hkinds⟩ := tokensUpTo_spec hl (Nat.lt_succ_self _)
  exact ⟨n, htokens, (hkinds n le_rfl).2 rfl⟩

/-- **Line ends are tokens.** A line end has its token exactly if it is in no
block comment and no literal takes it along: no raw string, no string behind a
backslash, and no rune as its character. There is no other token that reaches
over a line end. And a string that comes to a line end with its quote still open
and no backslash in front is an error, which is reported where it starts; the
token behind it is that of the line end. -/
theorem newlines_read (name source : String) :
    let l := ofSource name source
    (∀ p, l.source[p]? = some '\n' →
        (l.lineEnd p ∈ l.tokenize.1 ↔ ¬l.InBlockComment p ∧ ∀ n, ¬l.TakesAlong n p))
      ∧ (∀ n p, (l.token n).start ≤ p → p < (after (n + 1) l).cursor.offset →
        l.source[p]? = some '\n' → l.token n = l.lineEnd p ∨ l.TakesAlong n p)
      ∧ ∀ n body rest, l.source.drop (l.token n).start = '"' :: (body ++ '\n' :: rest) →
        Lexeme.StaysOpen body →
        (l.token n).kind = .error
          ∧ .error name (l.token n).position LexicalFault.unterminatedString.message
            ∈ l.tokenize.2.diagnostics
          ∧ l.token (n + 1) = l.lineEnd ((l.token n).start + body.length + 1) := by
  intro l
  have hl : l.cursor.IsIn l.source := Cursor.IsIn.start source.toList
  obtain ⟨n, hall, hend⟩ : ∃ n, l.tokenize = ((List.range (n + 1)).map l.token, after (n + 1) l)
    ∧ (l.token n).kind = .endOfInput := exists_tokenize_eq name source
  have hmem {t : Token} : t ∈ l.tokenize.1 ↔ ∃ i < n + 1, l.token i = t := by
    rw [hall, List.mem_map]
    exact exists_congr fun i => and_congr_left' List.mem_range
  have hlast : (l.token n).start = l.source.length :=
    ((reads_token hl n).start_end hend).trans (congrArg List.length (isIn_after hl n).1)
  refine ⟨fun p hline => ⟨fun hown => ?_, fun ⟨hblock, htaken⟩ => ?_⟩,
    fun i p hle hlt hline => newline_in_token hl hle hlt hline, fun i body rest hdrop hopen => ?_⟩
  · obtain ⟨j, -, heq⟩ := hmem.1 hown
    obtain rfl : (l.token j).start = p := congrArg Token.start heq
    have hthere : (l.token j).kind ≠ .endOfInput := by rw [heq]; exact nofun
    refine ⟨?_, fun i => not_takesAlong_start hl i j⟩
    rintro (⟨c, hc, -, hcovers⟩ | ⟨i, q, hi, hq, hqp, -⟩)
    · rw [hall] at hc
      exact not_covers_start hl rfl hthere hc hcovers
    · exact absurd (start_lt_of_endOfInput hl hthere hi) (Nat.not_lt.2 (hq.trans hqp))
  · have hbound : p < (after (n + 1) l).cursor.offset :=
      (hlast ▸ (List.getElem?_eq_some_iff.1 hline).1).trans_le (reads_token hl n).start_le
    obtain ⟨i, hi, hle, hlt⟩ := exists_behind (Nat.zero_le p) hbound
    by_cases hfront : p < (l.token i).start
    · refine absurd ?_ hblock
      rcases newline_in_gap hl hle hfront hline with ⟨c, hc, hcovers⟩ | ⟨hi', q, hopen⟩
      · refine .inl ⟨c, ?_, hcovers⟩
        rw [hall]
        exact (grows_after_of_le hl hi).pending_subset hc
      · exact .inr ⟨i, q, hi', hopen⟩
    · exact hmem.2 ⟨i, hi, (newline_in_token hl (Nat.not_lt.1 hfront) hlt hline).resolve_right
        (htaken i)⟩
  · obtain ⟨hkind, hreported, hnext⟩ := string_newline hl hdrop hopen
    refine ⟨hkind, ?_, hnext⟩
    have hi : i < n + 1 := Nat.lt_of_not_le fun hge => by
      have hmono := start_token_mono hl (Nat.le_of_succ_le hge)
      have hthere := start_token_lt_length hl (n := i) (by rw [hkind]; exact nofun)
      omega
    rw [hall]
    exact (grows_after_of_le hl hi).diagnostics_subset hreported

/-- A lexer in front of a string that takes one line end along and is stopped by
the next. -/
def atStoppedString : Lexer :=
  ofSource "a.gsx" "x\n\"a\\\nb\n"

theorem newlines_read_stoppedString :
    (¬atStoppedString.InBlockComment 1 ∧ ∀ n, ¬atStoppedString.TakesAlong n 1)
      ∧ atStoppedString.TakesAlong 2 5
      ∧ .error "a.gsx" ⟨2, 1⟩ LexicalFault.unterminatedString.message
        ∈ atStoppedString.tokenize.2.diagnostics
      ∧ atStoppedString.token 3 = atStoppedString.lineEnd 7 := by
  have hread := newlines_read "a.gsx" "x\n\"a\\\nb\n"
  rw [← atStoppedString] at hread
  have hown : atStoppedString.lineEnd 1 ∈ atStoppedString.tokenize.1 := by decide +kernel
  have hstart : (atStoppedString.token 2).start = 2 := by decide +kernel
  have hstop : (after 3 atStoppedString).cursor.offset = 7 := by decide +kernel
  have hother : atStoppedString.token 2 ≠ atStoppedString.lineEnd 5 := by decide +kernel
  have hposition : (atStoppedString.token 2).position = ⟨2, 1⟩ := by decide +kernel
  have hdrop : atStoppedString.source.drop 2 = '"' :: (['a', '\\', '\n', 'b'] ++ ['\n']) := by
    decide +kernel
  have hopen : Lexeme.StaysOpen ['a', '\\', '\n', 'b'] :=
    .plain (by decide) (by decide) (by decide)
      (.escape '\n' (.plain (by decide) (by decide) (by decide) .nil))
  obtain ⟨hlines, htokens, hstrings⟩ := hread
  have hstring := hstrings 2 _ [] (hstart.symm ▸ hdrop) hopen
  rw [hposition, hstart] at hstring
  have htaken := htokens 2 5 (by rw [hstart]; decide) (by rw [hstop]; decide) rfl
  exact ⟨(hlines 1 rfl).1 hown, htaken.resolve_left hother, hstring.2⟩

end Lexer

end Gsx
