import Gsx.Grammar.Landmark
import Gsx.Proofs.Lexer.Lossless
import Gsx.Text.Blank
/-!
# What stands where a token starts

A token can be seen in the source without a lexer: it is the lexeme at the front
of what is left from its start on. The kinds of tokens with which nodes start
have one spelling each, and a word has no blank in it, so trimming takes nothing
away in front of it.
-/

namespace Gsx

/-! ## Blanks and words -/

/-- The code points of blanks. -/
def blankCodes : List Nat :=
  [9, 10, 11, 12, 13, 28, 29, 30, 31, 32, 0x85, 0xA0, 0x1680, 0x2000, 0x2001, 0x2002, 0x2003,
    0x2004, 0x2005, 0x2006, 0x2007, 0x2008, 0x2009, 0x200A, 0x2028, 0x2029, 0x202F, 0x205F, 0x3000]

theorem toNat_mem_blankCodes {c : Char} (h : Text.isBlank c) : c.toNat ∈ blankCodes := by
  simp only [Text.isBlank, Bool.or_eq_true, Bool.and_eq_true, decide_eq_true_eq, beq_iff_eq] at h
  simp only [blankCodes, List.mem_cons, List.not_mem_nil, or_false]
  omega

theorem continuesWord_blankCodes :
    ∀ n ∈ blankCodes, Lexeme.continuesWord (Char.ofNat n) = false := by
  decide +kernel

/-- No word has a blank in it. -/
theorem isBlank_of_continuesWord {c : Char} (h : Lexeme.continuesWord c) :
    Text.isBlank c = false := by
  refine Bool.eq_false_iff.2 fun hblank => ?_
  have hnot := continuesWord_blankCodes _ (toNat_mem_blankCodes hblank)
  rw [Char.ofNat_toNat, h] at hnot
  cases hnot

/-- Trimming takes nothing away in front of a character that is no blank. -/
theorem trimList_prefix {c : Char} {cs : List Char} (h : Text.isBlank c = false) :
    Text.trimList (c :: cs) <+: c :: cs := by
  rw [Text.trimList, List.dropWhile_cons_of_neg (by rw [h]; exact nofun), ← List.reverse_suffix,
    List.reverse_reverse]
  exact List.dropWhile_suffix _

/-! ## Lexemes by their kinds -/

namespace Lexeme

/-- The kinds that have one spelling. -/
def isFixed : TokenKind → Bool
  | .leftAngle | .atLet | .atFor | .atIf | .atComponent | .funcWord => true
  | _ => false

theorem text_ofWord {w : String} (h : isFixed (.ofWord w)) : (TokenKind.ofWord w).text = w := by
  revert h
  unfold TokenKind.ofWord
  split <;> first | exact fun _ => rfl | exact nofun

theorem text_ofDirective? {w : String} {k : TokenKind} (h : TokenKind.ofDirective? w = some k) :
    k.text.toList = '@' :: w.toList := by
  unfold TokenKind.ofDirective? at h
  split at h <;> cases h <;> rfl

theorem isFixed_ofPunctuation? {c : Char} {k : TokenKind} (h : TokenKind.ofPunctuation? c = some k) :
    isFixed k = false := by
  unfold TokenKind.ofPunctuation? at h
  split at h <;> cases h <;> rfl

theorem isFixed_number (cs : List Char) : isFixed (number cs).kind = false := by
  simp only [number, sound]
  split <;> rfl

theorem literal_word (cs : List Char) (h : isFixed (word cs).kind) :
    (word cs).literal = (word cs).kind.text.toList := by
  have htext := text_ofWord (w := String.ofList (cs.takeWhile continuesWord)) h
  change cs.takeWhile continuesWord = (TokenKind.ofWord _).text.toList
  rw [htext, String.toList_ofList]

theorem literal_directive (cs : List Char) (h : isFixed (directive cs).kind) :
    (directive cs).literal = (directive cs).kind.text.toList := by
  revert h
  unfold directive
  simp only
  generalize (if cs.head?.any startsWord then cs.takeWhile continuesWord else []) = name
  split
  · next k hk =>
    intro _
    have htext := text_ofDirective? hk
    rw [String.toList_ofList] at htext
    exact htext.symm
  · split <;> exact nofun

theorem isFixed_string (cs : List Char) : isFixed (string cs).kind = false := by
  unfold string
  simp only
  split <;> rfl

theorem isFixed_runeEnd (value : List Char) (steps : Nat) (rest : List Char) :
    isFixed (runeEnd value steps rest).kind = false := by
  unfold runeEnd
  split <;> rfl

theorem isFixed_rune (cs : List Char) : isFixed (rune cs).kind = false := by
  unfold rune
  split
  · rfl
  · rfl
  · exact isFixed_runeEnd _ _ _
  · split
    · rfl
    · exact isFixed_runeEnd _ _ _

theorem isFixed_rawString (cs : List Char) : isFixed (rawString cs).kind = false := by
  unfold rawString
  simp only
  split <;> rfl

/-- **A lexeme of a kind that has one spelling is spelled so.** -/
theorem literal_of_isFixed (c : Char) (rest : List Char) (h : isFixed (read c rest).kind) :
    (read c rest).literal = (read c rest).kind.text.toList := by
  have hno : ∀ {x : Lexeme}, isFixed x.kind = false → isFixed x.kind → x.literal = x.kind.text.toList :=
    fun hfalse htrue => absurd htrue (Bool.eq_false_iff.1 hfalse)
  revert h
  unfold read
  split
  case h_1 => exact hno rfl
  case h_2 =>
    split
    · exact hno rfl
    · exact fun _ => rfl
  case h_3 | h_5 => split <;> exact hno rfl
  case h_4 =>
    split
    · exact hno (isFixed_number _)
    · exact hno rfl
  case h_6 =>
    split
    · exact literal_word _
    · exact hno rfl
  case h_7 => exact literal_directive rest
  case h_8 => exact hno (isFixed_string rest)
  case h_9 => exact hno (isFixed_rune rest)
  case h_10 => exact hno (isFixed_rawString rest)
  case h_11 =>
    split
    · next kind hkind => exact hno (isFixed_ofPunctuation? hkind)
    · split
      · exact literal_word _
      · split
        · exact hno (isFixed_number _)
        · exact hno rfl

/-- Nothing that starts a statement starts with a blank. -/
theorem startsStatement_of_isBlank {c : Char} (hblank : Text.isBlank c) (rest : List Char) :
    (read c rest).kind.startsStatement = false := by
  have hword : continuesWord c = false :=
    Bool.eq_false_iff.2 fun h => absurd hblank (Bool.eq_false_iff.1 (isBlank_of_continuesWord h))
  rw [continuesWord, Bool.or_eq_false_iff] at hword
  unfold read
  split
  case h_1 => rfl
  case h_11 =>
    split
    · next kind hkind =>
      unfold TokenKind.ofPunctuation? at hkind
      split at hkind <;> cases hkind <;> rfl
    · rw [hword.1, hword.2]
      rfl
  all_goals exact absurd hblank (by decide)

/-- A lexeme that is spelled as it stands is what it starts with. -/
theorem literal_prefix {c : Char} {rest : List Char}
    (h : (read c rest).kind.isVerbatim ∨ (read c rest).kind = .int) :
    (read c rest).literal <+: c :: rest := by
  have hspelled := isSpelled_read c rest
  have hspan : (c :: rest).take (read c rest).steps = (read c rest).literal := by
    generalize read c rest = x at h hspelled
    obtain ⟨kind, literal, steps, fault⟩ := x
    obtain h | rfl := h
    · cases kind <;> first | exact hspelled | cases h
    · exact hspelled.1
  exact hspan ▸ List.take_prefix _ _

end Lexeme

/-! ## Tokens -/

namespace Lexer

open Lexeme

variable {l : Lexer}

/-- **A token is the lexeme where it starts.** -/
theorem lexemeAt_token (h : l.cursor.IsIn l.source) (n : Nat) :
    (lexemeAt (l.source.drop (l.token n).start)).kind = (l.token n).kind
      ∧ (lexemeAt (l.source.drop (l.token n).start)).literal = (l.token n).literal.toList := by
  have hgrows := grows_after h n
  have hcrosses := Crosses.skipTrivia (hgrows.source_eq ▸ hgrows.cursor)
  have hrest := hcrosses.cursor.rest_eq
  rw [hgrows.source_eq] at hrest
  have hstart : (l.token n).start = (after n l).skipTrivia.cursor.offset := rfl
  rw [hstart, ← hrest]
  exact ⟨rfl, String.toList_ofList.symm⟩

/-- A token that is there has characters from its start on. -/
theorem exists_drop_token (h : l.cursor.IsIn l.source) {n : Nat}
    (hthere : (l.token n).kind ≠ .endOfInput) :
    ∃ c rest, l.source.drop (l.token n).start = c :: rest
      ∧ (read c rest).kind = (l.token n).kind
      ∧ (read c rest).literal = (l.token n).literal.toList := by
  obtain ⟨hkind, hliteral⟩ := lexemeAt_token h n
  cases hdrop : l.source.drop (l.token n).start with
  | nil =>
    rw [hdrop] at hkind
    exact absurd hkind.symm hthere
  | cons c rest =>
    rw [hdrop] at hkind hliteral
    exact ⟨c, rest, rfl, hkind, hliteral⟩

/-- **A token with one spelling** stands in the source. -/
theorem text_prefix_token (h : l.cursor.IsIn l.source) {n : Nat}
    (hfixed : isFixed (l.token n).kind) :
    (l.token n).kind.text.toList <+: l.source.drop (l.token n).start := by
  have hthere : (l.token n).kind ≠ .endOfInput := by
    intro hend
    rw [hend] at hfixed
    cases hfixed
  obtain ⟨c, rest, hdrop, hkind, -⟩ := exists_drop_token h hthere
  have htext := literal_of_isFixed c rest (hkind ▸ hfixed)
  have hverbatim : (read c rest).kind.isVerbatim := by
    rw [hkind]
    generalize (l.token n).kind = k at hfixed
    cases k <;> first | rfl | cases hfixed
  rw [hdrop, ← hkind, ← htext]
  exact literal_prefix (.inl hverbatim)

/-- So does one that is spelled as it stands. -/
theorem literal_prefix_token (h : l.cursor.IsIn l.source) {n : Nat}
    (hthere : (l.token n).kind ≠ .endOfInput)
    (hverbatim : (l.token n).kind.isVerbatim ∨ (l.token n).kind = .int) :
    (l.token n).literal.toList <+: l.source.drop (l.token n).start := by
  obtain ⟨c, rest, hdrop, hkind, hliteral⟩ := exists_drop_token h hthere
  rw [hdrop, ← hliteral]
  exact literal_prefix (hkind ▸ hverbatim)

/-- A call is its name behind an `@`. -/
theorem call_prefix_token (h : l.cursor.IsIn l.source) {n : Nat}
    (hcall : (l.token n).kind = .atCall) :
    '@' :: (l.token n).literal.toList <+: l.source.drop (l.token n).start := by
  have hthere : (l.token n).kind ≠ .endOfInput := by
    rw [hcall]
    exact nofun
  obtain ⟨c, rest, hdrop, hkind, hliteral⟩ := exists_drop_token h hthere
  have hspelled := isSpelled_read c rest
  rw [hkind, hcall, hliteral] at hspelled
  have hspan : (c :: rest).take (read c rest).steps = '@' :: (l.token n).literal.toList := hspelled
  rw [hdrop, ← hspan]
  exact List.take_prefix _ _

/-- What starts a statement is no blank. -/
theorem isBlank_token (h : l.cursor.IsIn l.source) {n : Nat}
    (hstart : (l.token n).kind.startsStatement) :
    ∃ c rest, l.source.drop (l.token n).start = c :: rest ∧ Text.isBlank c = false := by
  have hthere : (l.token n).kind ≠ .endOfInput := by
    intro hend
    rw [hend] at hstart
    cases hstart
  obtain ⟨c, rest, hdrop, hkind, -⟩ := exists_drop_token h hthere
  refine ⟨c, rest, hdrop, Bool.eq_false_iff.2 fun hblank => ?_⟩
  have hnot := startsStatement_of_isBlank hblank rest
  rw [hkind, hstart] at hnot
  cases hnot

end Lexer

end Gsx
