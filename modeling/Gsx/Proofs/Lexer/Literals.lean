import Gsx.Proofs.Rendering.Leaves
/-!
# Spelled-out literals

A text is spelled out between quotes by an escape for the quote, for the backslash
and for each control that has one, and by every other character as itself. A literal
that is spelled out in this way is read back, and the lexer stands right behind its
closing quote, whatever follows there (`next_spelledOut`).
-/

namespace Gsx

variable {c quote : Char} {rest : List Char}

/-! ## Spelling -/

namespace Lexeme

/-- **A character between quotes**: an escape of two characters for each that has one,
and the character itself otherwise. -/
def spell (quote c : Char) : List Char :=
  match c with
  | '\n' => ['\\', 'n']
  | '\t' => ['\\', 't']
  | '\r' => ['\\', 'r']
  | '\\' => ['\\', '\\']
  | '\x00' => ['\\', '0']
  | c => if c = quote then ['\\', quote] else [c]

/-- A literal with its quotes. -/
def spelledOut (quote : Char) (cs : List Char) : List Char :=
  quote :: (cs.flatMap (spell quote) ++ [quote])

/-- Between double quotes characters are written as in the values of attributes. -/
theorem spell_doubleQuote : spell '"' = Rendering.escape := by
  funext c
  by_cases hquote : c = '"'
  · rw [hquote]
    rfl
  · unfold spell Rendering.escape
    split
    case h_6 =>
      rw [if_neg hquote]
      split
      case h_7 => rfl
      all_goals contradiction
    all_goals rfl

/-- No line ends in a literal that is spelled out. -/
theorem newline_notMem_spelledOut (hquote : quote ≠ '\n') (cs : List Char) :
    '\n' ∉ spelledOut quote cs := by
  have hspell : ∀ c, '\n' ∉ spell quote c := by
    intro c
    unfold spell
    split
    case h_6 hline _ _ _ _ =>
      split
      · simpa using Ne.symm hquote
      · simpa using Ne.symm hline
    all_goals decide
  intro hmem
  rw [spelledOut, List.mem_cons, List.mem_append, List.mem_singleton] at hmem
  rcases hmem with hfirst | hbody | hlast
  · exact hquote hfirst.symm
  · obtain ⟨c, -, hc⟩ := List.mem_flatMap.1 hbody
    exact hspell c hc
  · exact hquote hlast.symm

/-! ## Reading -/

theorem string_spell (cs rest : List Char) :
    string (cs.flatMap (spell '"') ++ '"' :: rest)
      = .sound .string cs (spelledOut '"' cs).length := by
  rw [string, spell_doubleQuote, Rendering.stringBody_quoted, spelledOut, spell_doubleQuote,
    List.length_cons, List.length_append]
  rfl

theorem rune_spell (c : Char) (rest : List Char) :
    rune (spell '\'' c ++ '\'' :: rest) = .sound .rune [c] (spelledOut '\'' [c]).length := by
  rw [spelledOut, List.flatMap_singleton, List.length_cons, List.length_append]
  unfold spell
  split
  -- the escapes are read by computation
  case h_6 hslash _ =>
    split
    · next hquote =>
      rw [hquote]
      rfl
    · next hquote =>
      rw [List.singleton_append, rune_cons hslash, if_neg hquote]
      rfl
  all_goals rfl

end Lexeme

namespace Lexer

open Lexeme

variable {l : Lexer} {k : TokenKind} {cs text rest : List Char}

/-- A cursor moves over a part of a line column by column. -/
theorem advance_append (hline : '\n' ∉ text) (rest : List Char) (o : Nat) (p : Position) :
    Cursor.advance text.length ⟨text ++ rest, o, p⟩
      = ⟨rest, o + text.length, p.shifted text.length⟩ := by
  induction text generalizing o p with
  | nil => simp only [Cursor.advance, List.length_nil, List.nil_append, Nat.add_zero,
      Int.natCast_zero, Position.shifted_zero]
  | cons c text ih =>
    obtain ⟨hc, htext⟩ := List.ne_and_not_mem_of_not_mem_cons hline
    have hcolumn : (p.shifted 1).shifted text.length = p.shifted (c :: text).length := by
      rw [Position.shifted_shifted, List.length_cons, Int.natCast_add, Int.add_comm]
      rfl
    have hstep : (⟨c :: text ++ rest, o, p⟩ : Cursor).next
        = ⟨text ++ rest, o + 1, p.shifted 1⟩ := by
      rw [Cursor.next]
      simp only [List.cons_append, Cursor.after, if_neg hc.symm]
      rfl
    rw [List.length_cons, Cursor.advance, hstep, ih htext, hcolumn, Nat.add_right_comm]
    rfl

/-- **A literal that is spelled out** is read wherever a lexer stands in front of it:
the token starts there, nothing is found wrong, and the lexer moves behind the literal
on the same line. -/
theorem next_of_spelledOut (hquote : quote = '"' ∨ quote = '\'') (hgap : fillsGap k = true)
    (hread : lexemeAt (spelledOut quote cs ++ rest) = .sound k cs (spelledOut quote cs).length)
    (hrest : l.cursor.rest = spelledOut quote cs ++ rest) :
    l.next = (⟨k, String.ofList cs, l.cursor.position, l.cursor.offset⟩,
      { l with
        tokenStart := l.cursor.position
        cursor := ⟨rest, l.cursor.offset + (spelledOut quote cs).length,
          l.cursor.position.shifted (spelledOut quote cs).length⟩
        lastCommentLine := 0 }) := by
  have hends : quote ≠ '\n' := by rcases hquote with rfl | rfl <;> decide
  have hopens : quote ≠ '/' := by rcases hquote with rfl | rfl <;> decide
  have hgaps : (spelledOut quote cs ++ rest).head?.any Rendering.isGap = false := by
    rcases hquote with rfl | rfl <;> rfl
  have hcursor : l.cursor.advance (spelledOut quote cs).length
      = ⟨rest, l.cursor.offset + (spelledOut quote cs).length,
          l.cursor.position.shifted (spelledOut quote cs).length⟩ := by
    rw [← advance_append (newline_notMem_spelledOut hends cs) rest, ← hrest]
  rw [Rendering.next_eq hgaps (Rendering.opensComment_of_ne hopens) hrest hread, hcursor,
    if_pos hgap]

/-- A source that starts with a literal has its token first. -/
theorem next_ofSource_spelledOut (hquote : quote = '"' ∨ quote = '\'')
    (hgap : fillsGap k = true) (name rest : String)
    (hread : lexemeAt (spelledOut quote cs ++ rest.toList)
      = .sound k cs (spelledOut quote cs).length) :
    let read := (ofSource name (String.ofList (spelledOut quote cs) ++ rest)).next
    read.1 = ⟨k, String.ofList cs, ⟨1, 1⟩, 0⟩ ∧ read.2.diagnostics = []
      ∧ read.2.cursor = ⟨rest.toList, (spelledOut quote cs).length,
          ⟨1, (spelledOut quote cs).length + 1⟩⟩ := by
  have hrest : (ofSource name (String.ofList (spelledOut quote cs) ++ rest)).cursor.rest
      = spelledOut quote cs ++ rest.toList := by
    simp only [ofSource, Cursor.start, String.toList_append, String.toList_ofList]
  intro read
  simp only [read, next_of_spelledOut hquote hgap hread hrest]
  refine ⟨rfl, rfl, ?_⟩
  simp only [ofSource, Cursor.start, Position.shifted, Nat.zero_add, Int.add_comm]

/-- **Literals are read back.** A source that starts with a text spelled out between
double quotes has a string token with this text first, and one that starts with a
character spelled out between single quotes a rune token with this character. Nothing
is found wrong, and the lexer stands in front of whatever follows. -/
theorem next_spelledOut (name rest : String) :
    (∀ s : String,
      let literal := spelledOut '"' s.toList
      let read := (ofSource name (String.ofList literal ++ rest)).next
      read.1 = ⟨.string, s, ⟨1, 1⟩, 0⟩ ∧ read.2.diagnostics = []
        ∧ read.2.cursor = ⟨rest.toList, literal.length, ⟨1, literal.length + 1⟩⟩)
    ∧ ∀ c : Char,
      let literal := spelledOut '\'' [c]
      let read := (ofSource name (String.ofList literal ++ rest)).next
      read.1 = ⟨.rune, String.singleton c, ⟨1, 1⟩, 0⟩ ∧ read.2.diagnostics = []
        ∧ read.2.cursor = ⟨rest.toList, literal.length, ⟨1, literal.length + 1⟩⟩ := by
  constructor
  · intro s
    have hread : lexemeAt (spelledOut '"' s.toList ++ rest.toList)
        = .sound .string s.toList (spelledOut '"' s.toList).length := by
      change string (s.toList.flatMap (spell '"') ++ ['"'] ++ rest.toList) = _
      rw [List.append_assoc]
      exact string_spell s.toList rest.toList
    have h := next_ofSource_spelledOut (.inl rfl) rfl name rest hread
    rwa [String.ofList_toList] at h
  · intro c
    have hread : lexemeAt (spelledOut '\'' [c] ++ rest.toList)
        = .sound .rune [c] (spelledOut '\'' [c]).length := by
      change rune ([c].flatMap (spell '\'') ++ ['\''] ++ rest.toList) = _
      rw [List.flatMap_singleton, List.append_assoc]
      exact rune_spell c rest.toList
    exact next_ofSource_spelledOut (.inr rfl) rfl name rest hread

/-- A backslash in front of a letter is not taken for the escape of a line end. -/
example :
    (ofSource "" (String.ofList (spelledOut '"' ['\\', 'n', '\n']))).next.1.literal = "\\n\n" := by
  rfl

end Lexer

end Gsx
