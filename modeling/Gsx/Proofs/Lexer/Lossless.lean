import Gsx.Proofs.Lexer.Closing
import Gsx.Proofs.Lexer.Gaps
import Gsx.Proofs.Lexer.Progress
/-!
# Tokens lose nothing

The tokens of a source take up parts of it that lie one behind the other, and
what lies between them is blank, or in exactly one comment, or in a block
comment that never ends. What a token takes up can be read off its literal: it
is the literal itself for most kinds, and otherwise the literal with the marks
of its kind around it.
-/

namespace Gsx

/-! ## How lexemes are spelled -/

namespace TokenKind

/-- Whether the literal of a kind is what the source says, mark for mark, and
there is no more to say of it. -/
def isVerbatim : TokenKind → Bool
  | .atCall | .string | .rawString | .rune | .int | .error => false
  | _ => true

theorem isVerbatim_ofWord (w : String) : (ofWord w).isVerbatim := by
  unfold ofWord
  split <;> rfl

theorem isVerbatim_ofDirective? {w : String} {kind : TokenKind} (h : ofDirective? w = some kind) :
    kind.isVerbatim := by
  unfold ofDirective? at h
  split at h <;> cases h <;> rfl

theorem isVerbatim_ofPunctuation? {c : Char} {kind : TokenKind}
    (h : ofPunctuation? c = some kind) : kind.isVerbatim := by
  unfold ofPunctuation? at h
  split at h <;> cases h <;> rfl

end TokenKind

namespace Lexeme

/-- What stands between the quotes of a string, with the escapes that have a
meaning replaced by it and the others as they are. -/
def unescape : List Char → List Char
  | '\\' :: c :: rest =>
    match escape? '"' c with
    | some v => v :: unescape rest
    | none => '\\' :: c :: unescape rest
  | c :: rest => c :: unescape rest
  | [] => []

theorem unescape_cons {c : Char} (h : c ≠ '\\') (rest : List Char) :
    unescape (c :: rest) = c :: unescape rest := by
  rw [unescape]
  exact fun _ _ hc => absurd hc h

/-- Whether a character opens a literal in quotes. -/
def isQuote (c : Char) : Bool :=
  c == '"' || c == '\'' || c == '\x60'

/-- **How a token is spelled**: what the literal says about the characters that
the token takes up. An error in quotes keeps no more than what was read of its
literal. -/
def IsSpelled (kind : TokenKind) (literal span : List Char) : Prop :=
  match kind with
  | .atCall => span = '@' :: literal
  | .rawString => span = '\x60' :: (literal ++ ['\x60'])
  | .string => ∃ body, span = '"' :: (body ++ ['"']) ∧ literal = unescape body
  | .rune => ∃ body, span = '\'' :: (body ++ ['\''])
  | .int => span = literal ∧ ∀ d ∈ literal, Unicode.isDecimal d
  | .error => span.head?.any isQuote = false → span = literal
  | _ => span = literal

theorem isSpelled_of_isVerbatim {kind : TokenKind} {literal span : List Char}
    (hkind : kind.isVerbatim) (h : span = literal) : IsSpelled kind literal span := by
  cases kind
  case atCall | string | rawString | rune | int | error => cases hkind
  all_goals exact h

/-- An error in quotes. -/
theorem isSpelled_of_isQuote {c : Char} (hc : isQuote c) (literal span : List Char) :
    IsSpelled .error literal (c :: span) := by
  intro h
  rw [List.head?_cons, Option.any_some, hc] at h
  cases h

variable {cs rest : List Char} {c : Char}

theorem take_length_takeWhile (p : Char → Bool) (cs : List Char) :
    cs.take (cs.takeWhile p).length = cs.takeWhile p :=
  (List.prefix_iff_eq_take.1 (List.takeWhile_prefix p)).symm

theorem isSpelled_word (cs : List Char) :
    IsSpelled (word cs).kind (word cs).literal (cs.take (word cs).steps) :=
  isSpelled_of_isVerbatim (TokenKind.isVerbatim_ofWord _) (take_length_takeWhile _ _)

theorem isPrefix_fractionPart (cs : List Char) : fractionPart cs <+: cs := by
  unfold fractionPart
  split
  · exact List.prefix_rfl
  · split
    · exact List.cons_prefix_cons.2 ⟨rfl, List.takeWhile_prefix _⟩
    · exact List.nil_prefix

theorem isPrefix_exponentDigits (cs : List Char) : exponentDigits cs <+: cs := by
  unfold exponentDigits
  split
  · exact List.prefix_rfl
  · split
    · exact List.cons_prefix_cons.2 ⟨rfl, List.takeWhile_prefix _⟩
    · exact List.takeWhile_prefix _

theorem isPrefix_exponentPart (cs : List Char) : exponentPart cs <+: cs := by
  unfold exponentPart
  split
  · exact List.prefix_rfl
  · split
    · exact List.cons_prefix_cons.2 ⟨rfl, isPrefix_exponentDigits _⟩
    · exact List.nil_prefix

/-- A prefix and a prefix of what follows it. -/
theorem append_prefix_of_drop {ds es : List Char} (hd : ds <+: cs)
    (he : es <+: cs.drop ds.length) : ds ++ es <+: cs := by
  obtain ⟨tail, rfl⟩ := hd
  rw [List.drop_left] at he
  exact (List.prefix_append_right_inj ds).2 he

theorem isPrefix_literal_number (cs : List Char) : (number cs).literal <+: cs := by
  have hwhole : cs.takeWhile Unicode.isDecimal <+: cs := List.takeWhile_prefix _
  have hfraction := append_prefix_of_drop hwhole (isPrefix_fractionPart _)
  refine append_prefix_of_drop hfraction ?_
  rw [List.length_append]
  exact isPrefix_exponentPart _

/-- Without fraction and exponent a number is a run of digits. -/
theorem isSpelled_number (cs : List Char) :
    IsSpelled (number cs).kind (number cs).literal (cs.take (number cs).steps) := by
  have hspan : cs.take (number cs).steps = (number cs).literal :=
    (List.prefix_iff_eq_take.1 (isPrefix_literal_number cs)).symm
  rw [hspan]
  simp only [number, sound]
  generalize fractionPart (cs.drop (cs.takeWhile Unicode.isDecimal).length) = fraction
  generalize exponentPart (cs.drop _) = exponent
  split
  · next hnone =>
    rw [Bool.and_eq_true, List.isEmpty_iff, List.isEmpty_iff] at hnone
    obtain ⟨rfl, rfl⟩ := hnone
    refine ⟨rfl, fun d hd => ?_⟩
    rw [List.append_nil, List.append_nil] at hd
    exact List.all_eq_true.1 (List.all_takeWhile) d hd
  · rfl

theorem isSpelled_directive (cs : List Char) :
    IsSpelled (directive cs).kind (directive cs).literal
      (('@' :: cs).take (directive cs).steps) := by
  have hname : ∀ name, name = (if cs.head?.any startsWord then cs.takeWhile continuesWord else [])
      → ('@' :: cs).take (name.length + 1) = '@' :: name := by
    rintro name rfl
    rw [List.take_succ_cons]
    split
    · rw [take_length_takeWhile]
    · rfl
  simp only [directive]
  generalize hn : (if cs.head?.any startsWord then cs.takeWhile continuesWord else []) = name
  have htake := hname name hn.symm
  split
  · next kind h => exact isSpelled_of_isVerbatim (TokenKind.isVerbatim_ofDirective? h) htake
  · split
    · exact htake
    · exact fun _ => htake

/-- A literal with its quotes, at the front of what is left. -/
theorem take_quoted (q : Char) (body tail : List Char) :
    (q :: (body ++ q :: tail)).take (body.length + 2) = q :: (body ++ [q]) := by
  have hspan : q :: (body ++ q :: tail) = (q :: (body ++ [q])) ++ tail := by simp
  rw [hspan]
  exact List.take_left' (by simp)

/-- A closed string body is what stands before the closing quote. -/
theorem exists_of_stringBody (h : (stringBody cs).closed) :
    ∃ body tail, cs = body ++ '"' :: tail ∧ (stringBody cs).steps = body.length + 1
      ∧ (stringBody cs).value = unescape body := by
  fun_induction stringBody cs with
  | case1 => cases h
  | case2 => cases h
  | case3 c rest ih =>
    obtain ⟨body, tail, rfl, hsteps, hvalue⟩ := ih h
    refine ⟨'\\' :: c :: body, tail, rfl, ?_, ?_⟩
    · simp only [StringBody.push, hsteps, List.length_cons]
      omega
    · rw [unescape, StringBody.push, hvalue]
      cases escape? '"' c <;> rfl
  | case4 rest => exact ⟨[], rest, rfl, rfl, rfl⟩
  | case5 rest => cases h
  | case6 c rest hend hescape hquote hline ih =>
    obtain ⟨body, tail, rfl, hsteps, hvalue⟩ := ih h
    refine ⟨c :: body, tail, rfl, ?_, ?_⟩
    · simp only [StringBody.push, hsteps, List.length_cons]
      omega
    · rw [unescape_cons (ne_of_nil_of_cons hend hescape), StringBody.push, hvalue]
      rfl

theorem isSpelled_string (cs : List Char) :
    IsSpelled (string cs).kind (string cs).literal (('"' :: cs).take (string cs).steps) := by
  cases hclosed : (stringBody cs).closed with
  | false =>
    simp only [string, hclosed]
    exact isSpelled_of_isQuote rfl _ _
  | true =>
    obtain ⟨body, tail, hcs, hsteps, hvalue⟩ := exists_of_stringBody hclosed
    simp only [string, hclosed, if_true]
    refine ⟨body, ?_, hvalue⟩
    simp only [sound, hsteps]
    rw [hcs]
    exact take_quoted '"' body tail

/-- A rune ends with the quote that is found. -/
theorem isSpelled_runeEnd (body value : List Char) (rest : List Char) :
    IsSpelled (runeEnd value (body.length + 1) rest).kind (runeEnd value (body.length + 1) rest).literal
      (('\'' :: (body ++ rest)).take (runeEnd value (body.length + 1) rest).steps) := by
  unfold runeEnd
  split
  · next h =>
    obtain ⟨tail, rfl⟩ := List.head?_eq_some_iff.1 h
    exact ⟨body, take_quoted '\'' body tail⟩
  · exact isSpelled_of_isQuote rfl _ _

theorem isSpelled_rune (cs : List Char) :
    IsSpelled (rune cs).kind (rune cs).literal (('\'' :: cs).take (rune cs).steps) := by
  unfold rune
  split
  · exact isSpelled_of_isQuote rfl _ _
  · exact isSpelled_of_isQuote rfl _ _
  · next c rest => exact isSpelled_runeEnd ['\\', c] _ rest
  · next c rest _ _ =>
    split
    · exact isSpelled_of_isQuote rfl _ _
    · exact isSpelled_runeEnd [c] _ rest

theorem isSpelled_rawString (cs : List Char) :
    IsSpelled (rawString cs).kind (rawString cs).literal
      (('\x60' :: cs).take (rawString cs).steps) := by
  unfold rawString
  simp only
  split
  · next hlt =>
    -- the character that ends the literal is the closing quote
    obtain ⟨tail, htail⟩ : ∃ tail, cs.dropWhile (· != '\x60') = '\x60' :: tail := by
      have hsplit := List.takeWhile_append_dropWhile (p := (· != '\x60')) (l := cs)
      have hhead := List.head?_dropWhile_not (· != '\x60') cs
      cases hdrop : cs.dropWhile (· != '\x60') with
      | nil =>
        rw [hdrop, List.append_nil] at hsplit
        exact absurd hlt (by rw [hsplit]; exact Nat.lt_irrefl _)
      | cons d tail =>
        rw [hdrop] at hhead
        obtain rfl : d = '\x60' := by simpa using hhead
        exact ⟨tail, rfl⟩
    have hcs : cs = cs.takeWhile (· != '\x60') ++ '\x60' :: tail := by
      rw [← htail, List.takeWhile_append_dropWhile]
    generalize cs.takeWhile (· != '\x60') = literal at hcs ⊢
    rw [hcs]
    exact take_quoted '\x60' literal tail
  · exact isSpelled_of_isQuote rfl _ _

/-- **Every lexeme is spelled as its kind is.** -/
theorem isSpelled_read (c : Char) (rest : List Char) :
    IsSpelled (read c rest).kind (read c rest).literal ((c :: rest).take (read c rest).steps) := by
  unfold read
  split
  case h_1 => rfl
  case h_2 | h_3 | h_5 =>
    split
    · next h =>
      obtain ⟨tail, rfl⟩ := List.head?_eq_some_iff.1 h
      rfl
    · rfl
  case h_4 =>
    split
    · exact isSpelled_number _
    · rfl
  case h_6 =>
    split
    · exact isSpelled_word _
    · rfl
  case h_7 => exact isSpelled_directive rest
  case h_8 => exact isSpelled_string rest
  case h_9 => exact isSpelled_rune rest
  case h_10 => exact isSpelled_rawString rest
  case h_11 =>
    split
    · next kind h => exact isSpelled_of_isVerbatim (TokenKind.isVerbatim_ofPunctuation? h) rfl
    · split
      · exact isSpelled_word _
      · split
        · exact isSpelled_number _
        · exact fun _ => rfl

end Lexeme


/-! ## The tokens of a source -/

namespace Lexer

variable {l : Lexer}

/-- The lexer behind a number of tokens. -/
def after : Nat → Lexer → Lexer
  | 0, l => l
  | n + 1, l => after n l.next.2

/-- The token behind a number of tokens. -/
def token (l : Lexer) (n : Nat) : Token :=
  (after n l).next.1

/-- The characters from the start of a token up to the place behind it. -/
def span (l : Lexer) (n : Nat) : List Char :=
  l.slice (l.token n).start (after (n + 1) l).cursor.offset

theorem after_add (m n : Nat) (l : Lexer) : after (m + n) l = after n (after m l) := by
  induction m generalizing l with
  | zero => rw [Nat.zero_add, after]
  | succ m ih => rw [Nat.succ_add, after, ih, after]

theorem after_succ (n : Nat) (l : Lexer) : after (n + 1) l = (after n l).next.2 := by
  rw [after_add]
  rfl

/-- Tokens only add to what a lexer has found. -/
theorem grows_after (h : l.cursor.IsIn l.source) (n : Nat) : Grows l (after n l) := by
  induction n generalizing l with
  | zero => exact .refl h
  | succ n ih =>
    have hnext := grows_next h
    exact hnext.trans (ih (hnext.source_eq ▸ hnext.cursor))

theorem grows_after_of_le (h : l.cursor.IsIn l.source) {m n : Nat} (hle : m ≤ n) :
    Grows (after m l) (after n l) := by
  obtain ⟨k, rfl⟩ := Nat.exists_eq_add_of_le hle
  have hm := grows_after h m
  rw [after_add]
  exact grows_after (hm.source_eq ▸ hm.cursor) k

/-- **Reading all tokens** reads one token behind the other up to the first end
of the input; there are not more than there are characters before it. -/
theorem tokensUpTo_spec {fuel : Nat} (h : l.cursor.IsIn l.source)
    (hfuel : l.cursor.rest.length < fuel) :
    ∃ n ≤ l.cursor.rest.length,
      tokensUpTo fuel l = ((List.range (n + 1)).map l.token, after (n + 1) l)
        ∧ ∀ i ≤ n, (l.token i).kind = .endOfInput ↔ i = n := by
  induction fuel generalizing l with
  | zero => exact absurd hfuel (Nat.not_lt_zero _)
  | succ fuel ih =>
    have hreads := reads_next h
    have hnext : l.next.2.cursor.IsIn l.next.2.source := hreads.source_eq ▸ hreads.cursor
    rw [tokensUpTo]
    by_cases hend : l.next.1.kind = .endOfInput
    · refine ⟨0, Nat.zero_le _, if_pos hend, fun i hi => ?_⟩
      obtain rfl := Nat.le_zero.1 hi
      exact iff_of_true hend rfl
    · -- a token that is not the end leaves less to read
      have hless : l.next.2.cursor.rest.length < l.cursor.rest.length := by
        have hlt := hreads.start_lt hend
        have hle := hreads.le_start
        have hin := hreads.cursor.offset_le
        rw [hreads.cursor.length_rest, h.length_rest]
        omega
      obtain ⟨n, hn, heq, hkinds⟩ := ih hnext (by omega)
      refine ⟨n + 1, by omega, ?_, fun i hi => ?_⟩
      · rw [List.range_succ_eq_map, List.map_cons, List.map_map]
        simp only [hend, if_false, heq]
        rfl
      · cases i with
        | zero => exact iff_of_false hend (Nat.succ_ne_zero n).symm
        | succ i => exact (hkinds i (Nat.le_of_succ_le_succ hi)).trans (Nat.succ_inj.symm)

/-- The characters that a token takes up are its lexeme. -/
theorem isSpelled_next (h : l.cursor.IsIn l.source) :
    Lexeme.IsSpelled l.next.1.kind l.next.1.literal.toList
      (l.slice l.next.1.start l.next.2.cursor.offset) := by
  have hcrosses := Crosses.skipTrivia h
  have hrest := hcrosses.cursor.rest_eq
  have hlength := hcrosses.cursor.length_rest
  have hstart : l.next.1.start = l.skipTrivia.cursor.offset := rfl
  have hstop : l.next.2.cursor.offset = l.skipTrivia.cursor.offset
      + min (lexemeAt l.skipTrivia.cursor.rest).steps l.skipTrivia.cursor.rest.length := by
    rw [← Cursor.offset_advance]
    rfl
  have hspan : l.slice l.next.1.start l.next.2.cursor.offset
      = l.skipTrivia.cursor.rest.take (lexemeAt l.skipTrivia.cursor.rest).steps := by
    rw [slice, hstart, hstop, ← hrest, Nat.add_sub_cancel_left, ← List.take_take, List.take_length]
  have hliteral : l.next.1.literal.toList = (lexemeAt l.skipTrivia.cursor.rest).literal :=
    String.toList_ofList
  change Lexeme.IsSpelled (lexemeAt l.skipTrivia.cursor.rest).kind _ _
  rw [hspan, hliteral]
  cases l.skipTrivia.cursor.rest with
  | nil => rfl
  | cons c rest => exact Lexeme.isSpelled_read c rest

/-- And so are those of any later token. -/
theorem isSpelled_token (h : l.cursor.IsIn l.source) (n : Nat) :
    Lexeme.IsSpelled (l.token n).kind (l.token n).literal.toList (l.span n) := by
  have hgrows := grows_after h n
  have hspelled := isSpelled_next (hgrows.source_eq ▸ hgrows.cursor)
  rw [slice, hgrows.source_eq] at hspelled
  rw [span, slice, after_succ]
  exact hspelled

/-- The comments behind a token are those in front of it. -/
theorem pending_next (l : Lexer) : l.next.2.pending = l.skipTrivia.pending := by
  obtain ⟨-, -, hpending, -⟩ := emit_spec l.skipTrivia.startToken
    (lexemeAt l.skipTrivia.cursor.rest)
  exact hpending

/-- Every comment stands in front of a token and behind the one before. -/
theorem exists_of_mem_pending (h : l.cursor.IsIn l.source) (hnone : l.pending = []) {n : Nat}
    {c : Comment} (hc : c ∈ (after n l).pending) :
    ∃ i < n, (after i l).cursor.offset ≤ c.offset ∧ c.endOffset ≤ (l.token i).start := by
  induction n with
  | zero =>
    rw [after, hnone] at hc
    exact absurd hc List.not_mem_nil
  | succ n ih =>
    have hgrows := grows_after h n
    obtain ⟨cs, hcs, hrow⟩ := (Crosses.skipTrivia (hgrows.source_eq ▸ hgrows.cursor)).pending
    rw [after_succ, pending_next, hcs] at hc
    rcases List.mem_append.1 hc with hc | hc
    · obtain ⟨i, hi, hplace⟩ := ih hc
      exact ⟨i, Nat.lt_succ_of_lt hi, hplace⟩
    · exact ⟨n, Nat.lt_succ_self n, hrow.of_mem hc⟩

/-- **In front of a token** every character is blank, or in a comment that is
found by then, or in a comment that never ends. -/
theorem accounted_token (h : l.cursor.IsIn l.source) (n : Nat) {p : Nat}
    (hle : (after n l).cursor.offset ≤ p) (hlt : p < (l.token n).start) :
    IsBlankAt l.source p ∨ (∃ c ∈ (after (n + 1) l).pending, c.covers p)
      ∨ (l.token n).kind = .endOfInput ∧ ∃ q ≤ p, IsOpenComment l.source q
        ∧ .error l.name (.ofOffset l.source q) LexicalFault.unterminatedComment.message
          ∈ (after (n + 1) l).diagnostics := by
  have hgrows := grows_after h n
  have hin : (after n l).cursor.IsIn (after n l).source := hgrows.source_eq ▸ hgrows.cursor
  have hcrosses := Crosses.skipTrivia hin
  rw [after_succ, pending_next]
  rcases hcrosses.accounted p hle hlt with hblank | hcovered | ⟨q, hq, hopen⟩
  · exact .inl (hgrows.source_eq ▸ hblank)
  · exact .inr (.inl hcovered)
  · have hname : (after n l).skipTrivia.name = l.name := hcrosses.name_eq.trans hgrows.name_eq
    have hsource : (after n l).skipTrivia.source = l.source :=
      hcrosses.source_eq.trans hgrows.source_eq
    have hreported := (grows_emit (hcrosses.source_eq ▸ hcrosses.cursor)).diagnostics_subset
      hopen.reported
    rw [hname, hsource] at hreported
    refine .inr (.inr ⟨?_, q, hq, hsource ▸ hopen.isOpen, hreported⟩)
    change (lexemeAt (after n l).skipTrivia.cursor.rest).kind = _
    rw [hopen.rest_eq]
    rfl

/-- **No character is lost.** Reading all tokens of a source ends with the one
end of the input. There are at most as many tokens before it as characters, each
takes up at least one, and each starts where the one before it has ended or
further on. Every character in front of a token is blank, or in exactly one of
the comments that are found, or in a block comment that never ends, which is
reported where it starts and has nothing but the end of the input behind it. No
comment reaches into a token. And every token is spelled as its kind is. -/
theorem tokenize_lossless (name source : String) :
    let text := source.toList
    let l := ofSource name source
    let found := l.tokenize.2
    let behind i := (after i l).cursor.offset
    ∃ n ≤ text.length,
      l.tokenize = ((List.range (n + 1)).map l.token, after (n + 1) l)
        ∧ (∀ i ≤ n, (l.token i).kind = .endOfInput ↔ i = n)
        ∧ (∀ i < n, (l.token i).start < behind (i + 1))
        ∧ (l.token n).start = text.length
        ∧ (∀ i ≤ n, behind i ≤ (l.token i).start)
        ∧ (∀ i ≤ n, ∀ p, behind i ≤ p → p < (l.token i).start →
          IsBlankAt text p ∨ found.pending.countP (Comment.covers p) = 1
            ∨ i = n ∧ ∃ q ≤ p, IsOpenComment text q
              ∧ .error name (.ofOffset text q) LexicalFault.unterminatedComment.message
                ∈ found.diagnostics)
        ∧ (∀ c ∈ found.pending, ∃ i ≤ n, behind i ≤ c.offset ∧ c.endOffset ≤ (l.token i).start)
        ∧ ∀ i ≤ n, Lexeme.IsSpelled (l.token i).kind (l.token i).literal.toList (l.span i) := by
  intro text l found behind
  have hl : l.cursor.IsIn l.source := Cursor.IsIn.start text
  obtain ⟨n, hn, htokens, hkinds⟩ := tokensUpTo_spec hl (Nat.lt_succ_self _)
  have hfound : found = after (n + 1) l := congrArg Prod.snd htokens
  have hreads : ∀ i, (after i l).Reads (l.token i) (after (i + 1) l) := fun i => by
    have hgrows := grows_after hl i
    rw [after_succ]
    exact reads_next (hgrows.source_eq ▸ hgrows.cursor)
  refine ⟨n, hn, htokens, hkinds, fun i hi => ?_, ?_, fun i _ => (hreads i).le_start,
    fun i hi p hle hlt => ?_, fun c hc => ?_, fun i _ => isSpelled_token hl i⟩
  · have hne : ¬(l.token i).kind = .endOfInput := fun hend =>
      Nat.ne_of_lt hi ((hkinds i (Nat.le_of_lt hi)).1 hend)
    exact (hreads i).start_lt hne
  · rw [(hreads n).start_end ((hkinds n (Nat.le_refl n)).2 rfl)]
    exact congrArg List.length (grows_after hl n).source_eq
  · have hlater := grows_after_of_le hl (Nat.succ_le_succ hi)
    rcases accounted_token hl i hle hlt with hblank | ⟨c, hc, hcovers⟩ | ⟨hend, q, hq, hopen, hreported⟩
    · exact .inl hblank
    · obtain ⟨cs, hcs, hrow⟩ := (grows_after hl (n + 1)).pending
      have hmem : c ∈ cs := by
        have := hlater.pending_subset hc
        rwa [hcs] at this
      rw [hfound, hcs]
      exact .inr (.inl (hrow.countP_eq_one hmem hcovers))
    · rw [hfound]
      exact .inr (.inr ⟨(hkinds i hi).1 hend, q, hq, hopen, hlater.diagnostics_subset hreported⟩)
  · rw [hfound] at hc
    obtain ⟨i, hi, hplace⟩ := exists_of_mem_pending hl rfl hc
    exact ⟨i, Nat.le_of_lt_succ hi, hplace⟩

end Lexer

end Gsx
