import Gsx.Proofs.Lexer.Calls
/-!
# Reading goes forward

Every lexeme takes at least one step, and only the end of the input is an end
of input. So a token starts at or behind the cursor, and leaves the cursor
behind its start unless nothing is left; and reading between braces leaves it
behind the opening one.
-/

namespace Gsx

/-! ## Lexemes -/

namespace TokenKind

theorem ofWord_ne_endOfInput (w : String) : ofWord w ≠ .endOfInput := by
  unfold ofWord
  split <;> exact nofun

theorem ofDirective?_ne_endOfInput (w : String) : ofDirective? w ≠ some .endOfInput := by
  unfold ofDirective?
  split <;> exact nofun

theorem ofPunctuation?_ne_endOfInput (c : Char) : ofPunctuation? c ≠ some .endOfInput := by
  unfold ofPunctuation?
  split <;> exact nofun

end TokenKind

namespace Lexeme

/-- A lexeme that is there: it takes a step and is not the end of the input. -/
structure IsProper (x : Lexeme) : Prop where
  steps_pos : 0 < x.steps
  kind_ne : x.kind ≠ .endOfInput

theorem continuesWord_of_startsWord {c : Char} (h : startsWord c = true) :
    continuesWord c = true := by
  rw [continuesWord, h, Bool.true_or]

theorem isProper_word {c : Char} (h : continuesWord c = true) (rest : List Char) :
    (word (c :: rest)).IsProper := by
  refine ⟨?_, TokenKind.ofWord_ne_endOfInput _⟩
  simp only [word, sound, List.takeWhile_cons, h, if_true, List.length_cons]
  omega

theorem isProper_number {cs : List Char} (h : 0 < (number cs).literal.length) :
    (number cs).IsProper := by
  refine ⟨h, ?_⟩
  simp only [number, sound]
  split <;> exact nofun

theorem isProper_number_of_isDecimal {c : Char} (h : Unicode.isDecimal c = true)
    (rest : List Char) : (number (c :: rest)).IsProper := by
  refine isProper_number ?_
  simp only [number, sound, List.takeWhile_cons, h, if_true, List.length_append, List.length_cons]
  omega

/-- A point starts a number with its fraction. -/
theorem isProper_number_point (rest : List Char) : (number ('.' :: rest)).IsProper := by
  refine isProper_number ?_
  have h : Unicode.isDecimal '.' = false := by decide
  simp only [number, sound, List.takeWhile_cons, h, List.length_append, List.length_nil,
    List.drop_zero, fractionPart, if_true, List.length_cons, Bool.false_eq_true, if_false]
  omega

theorem isProper_directive (cs : List Char) : (directive cs).IsProper := by
  simp only [directive]
  generalize (if cs.head?.any startsWord = true then cs.takeWhile continuesWord else []) = name
  split
  · next kind h =>
    refine ⟨Nat.succ_pos _, ?_⟩
    rintro rfl
    exact TokenKind.ofDirective?_ne_endOfInput _ h
  · split <;> exact ⟨Nat.succ_pos _, nofun⟩

theorem isProper_string (cs : List Char) : (string cs).IsProper := by
  unfold string
  simp only
  split <;> exact ⟨Nat.succ_pos _, nofun⟩

theorem isProper_runeEnd (value : List Char) {steps : Nat} (h : 0 < steps) (rest : List Char) :
    (runeEnd value steps rest).IsProper := by
  unfold runeEnd
  split
  · exact ⟨Nat.succ_pos _, nofun⟩
  · exact ⟨h, nofun⟩

theorem isProper_rune (cs : List Char) : (rune cs).IsProper := by
  unfold rune
  split
  · exact ⟨Nat.one_pos, nofun⟩
  · exact ⟨Nat.succ_pos _, nofun⟩
  · exact isProper_runeEnd _ (Nat.succ_pos _) _
  · split
    · exact ⟨Nat.succ_pos _, nofun⟩
    · exact isProper_runeEnd _ (Nat.succ_pos _) _

theorem isProper_rawString (cs : List Char) : (rawString cs).IsProper := by
  unfold rawString
  simp only
  split <;> exact ⟨Nat.succ_pos _, nofun⟩

/-- **Every lexeme is there.** -/
theorem isProper_read (c : Char) (rest : List Char) : (read c rest).IsProper := by
  unfold read
  split
  case h_1 => exact ⟨Nat.one_pos, nofun⟩
  case h_2 | h_3 | h_5 => split <;> exact ⟨Nat.succ_pos _, nofun⟩
  case h_4 =>
    split
    · exact isProper_number_point rest
    · exact ⟨Nat.one_pos, nofun⟩
  case h_6 =>
    split
    · exact isProper_word (continuesWord_of_startsWord rfl) rest
    · exact ⟨Nat.one_pos, nofun⟩
  case h_7 => exact isProper_directive rest
  case h_8 => exact isProper_string rest
  case h_9 => exact isProper_rune rest
  case h_10 => exact isProper_rawString rest
  case h_11 =>
    split
    · next kind h =>
      refine ⟨Nat.one_pos, ?_⟩
      rintro rfl
      exact TokenKind.ofPunctuation?_ne_endOfInput _ h
    · split
      · next h => exact isProper_word (continuesWord_of_startsWord h) rest
      · split
        · next h => exact isProper_number_of_isDecimal h rest
        · exact ⟨Nat.one_pos, nofun⟩

end Lexeme

/-! ## Tokens -/

namespace Lexer

variable {l : Lexer}

theorem source_skipOne? {l' : Lexer} (h : l.skipOne? = some l') : l'.source = l.source := by
  cases skips_of_skipOne? h <;> rfl

/-- A move over blanks or a comment is some steps of the cursor. -/
theorem cursor_skipOne? {l' : Lexer} (h : l.skipOne? = some l') :
    ∃ n, 0 < n ∧ l'.cursor = l.cursor.advance n := by
  cases skips_of_skipOne? h <;> exact ⟨_, Nat.succ_pos _, rfl⟩

theorem skipUpTo_spec (fuel : Nat) (l : Lexer) :
    (skipUpTo fuel l).source = l.source
      ∧ ∃ n, (skipUpTo fuel l).cursor = l.cursor.advance n := by
  refine skipUpTo_induction (p := fun m => m.source = l.source ∧ ∃ n, m.cursor = l.cursor.advance n)
    (fun ⟨hsource, n, hn⟩ hs => ?_) ⟨rfl, 0, rfl⟩ fuel
  obtain ⟨k, -, hk⟩ := cursor_skipOne? hs
  exact ⟨(source_skipOne? hs).trans hsource, n + k, by rw [hk, hn, Cursor.advance_add]⟩

/-- **What reading a token does to the cursor.** The token starts where the
cursor is or further on, and the cursor ends behind its start; only at the end
of the input it stays there. -/
structure Reads (l : Lexer) (t : Token) (l' : Lexer) : Prop where
  source_eq : l'.source = l.source
  cursor : l'.cursor.IsIn l.source
  le_start : l.cursor.offset ≤ t.start
  start_le : t.start ≤ l'.cursor.offset
  start_lt : t.kind ≠ .endOfInput → t.start < l'.cursor.offset
  start_end : t.kind = .endOfInput → t.start = l.source.length

theorem reads_next (h : l.cursor.IsIn l.source) : l.Reads l.next.1 l.next.2 := by
  obtain ⟨hsource, n, hn⟩ := skipUpTo_spec l.cursor.rest.length l
  have hcursor : l.skipTrivia.cursor = l.cursor.advance n := hn
  have hin : l.skipTrivia.cursor.IsIn l.source := hcursor ▸ h.advance n
  have hstart : l.next.1.start = l.skipTrivia.cursor.offset := rfl
  have hkind : l.next.1.kind = (lexemeAt l.skipTrivia.cursor.rest).kind := rfl
  have hstop : l.next.2.cursor
      = l.skipTrivia.cursor.advance (lexemeAt l.skipTrivia.cursor.rest).steps := rfl
  have hoffset : l.next.2.cursor.offset = l.skipTrivia.cursor.offset
      + min (lexemeAt l.skipTrivia.cursor.rest).steps l.skipTrivia.cursor.rest.length := by
    rw [hstop, Cursor.offset_advance]
  refine ⟨?_, hstop ▸ hin.advance _, ?_, by omega, fun hne => ?_, fun heq => ?_⟩
  · rw [← hsource]
    change ((l.skipTrivia.startToken).emit _).2.source = l.skipTrivia.source
    rw [Lexer.emit]
    cases (lexemeAt l.skipTrivia.startToken.cursor.rest).fault <;> rfl
  · rw [hstart, hcursor, Cursor.offset_advance]
    omega
  · cases hr : l.skipTrivia.cursor.rest with
    | nil =>
      rw [hkind, hr] at hne
      exact absurd rfl hne
    | cons c rest =>
      have hsteps : 0 < (lexemeAt (c :: rest)).steps := (Lexeme.isProper_read c rest).steps_pos
      rw [hr, List.length_cons] at hoffset
      omega
  · cases hr : l.skipTrivia.cursor.rest with
    | nil => rw [hstart, hin.offset_eq hr]
    | cons c rest =>
      rw [hkind, hr] at heq
      exact absurd heq (Lexeme.isProper_read c rest).kind_ne

/-- Reading between braces leaves the cursor behind the opening one. -/
theorem readBraces_spec {start : Nat} {text : String} {l' : Lexer}
    (h : l.readBraces start = .ok (text, l')) :
    l'.source = l.source ∧ l'.cursor.IsIn l.source ∧ start < l'.cursor.offset := by
  obtain ⟨rest, n, hdrop, -, -, rfl⟩ := exists_of_readBraces h
  have hlength := congrArg List.length hdrop
  simp only [List.length_drop, List.length_cons] at hlength
  refine ⟨rfl, (Cursor.IsIn.start _).advance _, ?_⟩
  simp only [Cursor.offset_advance, Cursor.start]
  omega

end Lexer

end Gsx
