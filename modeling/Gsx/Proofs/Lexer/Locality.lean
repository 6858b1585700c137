import Gsx.Lexer
import Gsx.Proofs.Lexer.Closing
/-!
# Lexemes in front of a delimiter

A lexeme looks no further than the character behind it. So a lexeme in which
nothing is wrong reads the same with anything after it, as long as a character
stands in between that no lexeme goes on with.
-/

namespace Gsx

/-- Whether a character is one that no lexeme goes on with. -/
def isDelimiter (d : Char) : Bool :=
  d == ' ' || d == '\n' || d == ')' || d == ',' || d == '}'

variable {d : Char} {cs : List Char}

theorem isDelimiter_cases (h : isDelimiter d) :
    d = ' ' ∨ d = '\n' ∨ d = ')' ∨ d = ',' ∨ d = '}' := by
  simpa [isDelimiter, or_assoc] using h

theorem continuesWord_of_isDelimiter (h : isDelimiter d) : Lexeme.continuesWord d = false := by
  rcases isDelimiter_cases h with rfl | rfl | rfl | rfl | rfl <;> decide

theorem takeWhile_append_cons {p : Char → Bool} (h : p d = false) (cs rest : List Char) :
    (cs ++ d :: rest).takeWhile p = cs.takeWhile p := by
  induction cs with
  | nil => simp [h]
  | cons c cs ih =>
    rw [List.cons_append, List.takeWhile_cons, List.takeWhile_cons, ih]

theorem length_takeWhile_le (p : Char → Bool) (cs : List Char) :
    (cs.takeWhile p).length ≤ cs.length :=
  (List.takeWhile_sublist p).length_le

namespace Lexeme

/-! ## Words and directives -/

theorem word_append (h : continuesWord d = false) (cs rest : List Char) :
    word (cs ++ d :: rest) = word cs := by
  rw [word, word, takeWhile_append_cons h]

theorem startsWord_of_continuesWord (h : continuesWord d = false) : startsWord d = false := by
  rw [continuesWord, Bool.or_eq_false_iff] at h
  exact h.1

theorem head?_append_any {p : Char → Bool} (h : p d = false) (cs rest : List Char) :
    (cs ++ d :: rest).head?.any p = cs.head?.any p := by
  cases cs with
  | nil => simp [h]
  | cons c cs => rfl

theorem directive_append (h : continuesWord d = false) (cs rest : List Char) :
    directive (cs ++ d :: rest) = directive cs := by
  rw [directive, directive, head?_append_any (startsWord_of_continuesWord h),
    takeWhile_append_cons h]

/-! ## Numbers -/

/-- Whether a character cannot stand in a number. -/
def endsNumber (d : Char) : Bool :=
  !Unicode.isDecimal d && d != '.' && d != 'e' && d != 'E' && d != '+' && d != '-'

theorem endsNumber_of_isDelimiter (h : isDelimiter d) : endsNumber d := by
  rcases isDelimiter_cases h with rfl | rfl | rfl | rfl | rfl <;> decide

theorem isDecimal_of_endsNumber (h : endsNumber d) : Unicode.isDecimal d = false := by
  simp only [endsNumber, Bool.and_eq_true, Bool.not_eq_true'] at h
  exact h.1.1.1.1.1

theorem fractionPart_append (h : endsNumber d) (cs rest : List Char) :
    fractionPart (cs ++ d :: rest) = fractionPart cs := by
  have hd := isDecimal_of_endsNumber h
  have hpoint : d ≠ '.' := by rintro rfl; exact absurd h (by decide)
  cases cs with
  | nil => simp [fractionPart, hpoint]
  | cons c cs => rw [List.cons_append, fractionPart, fractionPart, takeWhile_append_cons hd]

theorem exponentDigits_append (h : endsNumber d) (cs rest : List Char) :
    exponentDigits (cs ++ d :: rest) = exponentDigits cs := by
  have hd := isDecimal_of_endsNumber h
  have hplus : d ≠ '+' := by rintro rfl; exact absurd h (by decide)
  have hminus : d ≠ '-' := by rintro rfl; exact absurd h (by decide)
  cases cs with
  | nil => simp [exponentDigits, hd, hplus, hminus]
  | cons c cs =>
    rw [List.cons_append, exponentDigits, exponentDigits, ← List.cons_append,
      takeWhile_append_cons hd, takeWhile_append_cons hd]

theorem exponentPart_append (h : endsNumber d) (cs rest : List Char) :
    exponentPart (cs ++ d :: rest) = exponentPart cs := by
  have hlower : d ≠ 'e' := by rintro rfl; exact absurd h (by decide)
  have hupper : d ≠ 'E' := by rintro rfl; exact absurd h (by decide)
  cases cs with
  | nil => simp [exponentPart, hlower, hupper]
  | cons c cs => rw [List.cons_append, exponentPart, exponentPart, exponentDigits_append h]

theorem length_fractionPart_le (cs : List Char) : (fractionPart cs).length ≤ cs.length := by
  cases cs with
  | nil => exact Nat.le_refl _
  | cons c cs =>
    rw [fractionPart]
    split
    · simpa using length_takeWhile_le Unicode.isDecimal cs
    · exact Nat.zero_le _

theorem number_append (h : endsNumber d) (cs rest : List Char) :
    number (cs ++ d :: rest) = number cs := by
  have hwhole := takeWhile_append_cons (isDecimal_of_endsNumber h) cs rest
  have hle := length_takeWhile_le Unicode.isDecimal cs
  have hfraction := length_fractionPart_le (cs.drop (cs.takeWhile Unicode.isDecimal).length)
  rw [List.length_drop] at hfraction
  simp only [number, hwhole, List.drop_append_of_le_length hle, fractionPart_append h]
  rw [List.drop_append_of_le_length (by omega), exponentPart_append h]

/-! ## Literals in quotes -/

theorem stringBody_cons {c : Char} (h : c ≠ '\\') (rest : List Char) :
    stringBody (c :: rest) = if c = '"' then ⟨[], 1, true⟩
      else if c = '\n' then ⟨[], 0, false⟩ else (stringBody rest).push [c] 1 := by
  rw [stringBody]
  · exact fun hc _ => h hc
  · exact fun _ _ hc _ => h hc

/-- A string literal that is closed ends at its quote. -/
theorem stringBody_append {cs : List Char} (h : (stringBody cs).closed) (rest : List Char) :
    stringBody (cs ++ rest) = stringBody cs := by
  fun_induction stringBody cs with
  | case1 => exact absurd h nofun
  | case2 => exact absurd h nofun
  | case3 c cs ih => rw [List.cons_append, List.cons_append, stringBody, ih h]
  | case4 cs => rw [List.cons_append, stringBody_cons (by decide), if_pos rfl]
  | case5 => exact absurd h nofun
  | case6 c cs hnil hcons hquote hline ih =>
    have hslash : c ≠ '\\' := ne_of_nil_of_cons hnil hcons
    rw [List.cons_append, stringBody_cons hslash, if_neg hquote, if_neg hline, ih h]

theorem string_append {cs : List Char} (h : (string cs).fault = none) (rest : List Char) :
    string (cs ++ rest) = string cs := by
  cases hclosed : (stringBody cs).closed with
  | false =>
    simp only [string, hclosed, Bool.false_eq_true, if_false] at h
    exact absurd h nofun
  | true => simp only [string, stringBody_append hclosed]

theorem runeEnd_append {value : List Char} {steps : Nat} {cs : List Char}
    (h : (runeEnd value steps cs).fault = none) (rest : List Char) :
    runeEnd value steps (cs ++ rest) = runeEnd value steps cs := by
  cases cs with
  | nil => exact absurd h nofun
  | cons c cs => rfl

theorem rune_cons {c : Char} (h : c ≠ '\\') (rest : List Char) :
    rune (c :: rest) = if c = '\'' then faulty .emptyRune [] 2 else runeEnd [c] 2 rest := by
  rw [rune]
  · exact fun hc _ => h hc
  · exact fun _ _ hc _ => h hc

theorem rune_append {cs : List Char} (h : (rune cs).fault = none) (rest : List Char) :
    rune (cs ++ rest) = rune cs := by
  cases cs with
  | nil => exact absurd h nofun
  | cons c cs =>
    by_cases hslash : c = '\\'
    · subst hslash
      cases cs with
      | nil => exact absurd h nofun
      | cons c cs => exact runeEnd_append h rest
    · rw [rune_cons hslash] at h
      rw [List.cons_append, rune_cons hslash, rune_cons hslash]
      split at h
      · exact absurd h nofun
      · next hquote =>
        rw [if_neg hquote, if_neg hquote]
        exact runeEnd_append h rest

theorem takeWhile_append_of_lt {p : Char → Bool} {cs : List Char}
    (h : (cs.takeWhile p).length < cs.length) (rest : List Char) :
    (cs ++ rest).takeWhile p = cs.takeWhile p := by
  induction cs with
  | nil => exact absurd h (Nat.lt_irrefl _)
  | cons c cs ih =>
    rw [List.cons_append, List.takeWhile_cons, List.takeWhile_cons]
    cases hc : p c with
    | false => rfl
    | true =>
      rw [List.takeWhile_cons, hc] at h
      simp only [if_true, List.length_cons, Nat.add_lt_add_iff_right] at h
      simp only [if_true, ih h]

theorem rawString_append {cs : List Char} (h : (rawString cs).fault = none) (rest : List Char) :
    rawString (cs ++ rest) = rawString cs := by
  by_cases hlt : (cs.takeWhile (· != '\x60')).length < cs.length
  · have hlt' : (cs.takeWhile (· != '\x60')).length < (cs ++ rest).length := by
      rw [List.length_append]
      omega
    simp only [rawString, takeWhile_append_of_lt hlt, if_pos hlt, if_pos hlt']
  · simp only [rawString, if_neg hlt] at h
    exact absurd h nofun

/-! ## All lexemes -/

theorem head?_append_eq {c : Char} (h : d ≠ c) (cs rest : List Char) :
    ((cs ++ d :: rest).head? = some c) = (cs.head? = some c) := by
  cases cs with
  | nil => simp [h]
  | cons _ _ => rfl

/-- **A lexeme ends in front of a delimiter**, whatever comes after that. -/
theorem read_append {c : Char} (h : (Lexeme.read c cs).fault = none) (hd : isDelimiter d)
    (rest : List Char) : Lexeme.read c (cs ++ d :: rest) = Lexeme.read c cs := by
  have hword := continuesWord_of_isDelimiter hd
  have hnumber := endsNumber_of_isDelimiter hd
  have hne : ∀ c, isDelimiter c = false → d ≠ c := by
    rintro _ hc rfl
    rw [hd] at hc
    exact absurd hc nofun
  unfold Lexeme.read
  split
  case h_1 => rfl
  case h_2 => simp only [head?_append_eq (hne '/' rfl)]
  case h_3 => simp only [head?_append_eq (hne '>' rfl)]
  case h_4 =>
    rw [head?_append_any (isDecimal_of_endsNumber hnumber), ← List.cons_append,
      number_append hnumber]
  case h_5 => simp only [head?_append_eq (hne '=' rfl)]
  case h_6 => rw [head?_append_any hword, ← List.cons_append, word_append hword]
  case h_7 => exact directive_append hword cs rest
  case h_8 => exact string_append h _
  case h_9 => exact rune_append h _
  case h_10 => exact rawString_append h _
  case h_11 => rw [← List.cons_append, word_append hword, number_append hnumber]

/-! ## How far a lexeme goes -/

theorem steps_stringBody_le {cs : List Char} (h : (stringBody cs).closed) :
    (stringBody cs).steps ≤ cs.length := by
  fun_induction stringBody cs with
  | case1 => exact absurd h nofun
  | case2 => exact absurd h nofun
  | case3 c cs ih =>
    have := ih h
    simp only [StringBody.push, List.length_cons]
    omega
  | case4 cs => simp only [List.length_cons]; omega
  | case5 => exact absurd h nofun
  | case6 c cs hnil hcons hquote hline ih =>
    have := ih h
    simp only [StringBody.push, List.length_cons]
    omega

theorem steps_runeEnd_le {value : List Char} {steps n : Nat} {cs : List Char}
    (h : (runeEnd value steps cs).fault = none) (hsteps : steps ≤ n) :
    (runeEnd value steps cs).steps ≤ n + cs.length := by
  cases cs with
  | nil => exact absurd h nofun
  | cons c cs =>
    rw [runeEnd] at h ⊢
    split at h
    · next hc =>
      rw [if_pos hc]
      simp only [sound, List.length_cons]
      omega
    · exact absurd h nofun

theorem length_exponentDigits_le (cs : List Char) : (exponentDigits cs).length ≤ cs.length := by
  cases cs with
  | nil => exact Nat.le_refl _
  | cons c cs =>
    rw [exponentDigits]
    split
    · simpa using length_takeWhile_le Unicode.isDecimal cs
    · exact length_takeWhile_le _ _

theorem length_exponentPart_le (cs : List Char) : (exponentPart cs).length ≤ cs.length := by
  cases cs with
  | nil => exact Nat.le_refl _
  | cons c cs =>
    rw [exponentPart]
    split
    · simpa using length_exponentDigits_le cs
    · exact Nat.zero_le _

theorem steps_number_le (cs : List Char) : (number cs).steps ≤ cs.length := by
  have hwhole := length_takeWhile_le Unicode.isDecimal cs
  simp only [number, sound, List.length_append]
  generalize (cs.takeWhile Unicode.isDecimal).length = whole at hwhole ⊢
  have hfraction := length_fractionPart_le (cs.drop whole)
  generalize (fractionPart (cs.drop whole)).length = fraction at hfraction ⊢
  have hexponent := length_exponentPart_le (cs.drop (whole + fraction))
  rw [List.length_drop] at hfraction hexponent
  omega

theorem steps_word_le (cs : List Char) : (word cs).steps ≤ cs.length :=
  length_takeWhile_le continuesWord cs

theorem steps_directive_le (cs : List Char) : (directive cs).steps ≤ cs.length + 1 := by
  have hname : (if cs.head?.any startsWord then cs.takeWhile continuesWord else []).length
      ≤ cs.length := by
    split
    · exact length_takeWhile_le _ _
    · exact Nat.zero_le _
  simp only [directive]
  generalize (if cs.head?.any startsWord = true then cs.takeWhile continuesWord else []) = name
    at hname ⊢
  split
  · exact Nat.succ_le_succ hname
  · split <;> exact Nat.succ_le_succ hname

theorem steps_string_le {cs : List Char} (h : (string cs).fault = none) :
    (string cs).steps ≤ cs.length + 1 := by
  cases hclosed : (stringBody cs).closed with
  | false =>
    simp only [string, hclosed, Bool.false_eq_true, if_false] at h
    exact absurd h nofun
  | true =>
    have := steps_stringBody_le hclosed
    simp only [string, hclosed, if_true, sound]
    omega

theorem steps_rune_le {cs : List Char} (h : (rune cs).fault = none) :
    (rune cs).steps ≤ cs.length + 1 := by
  cases cs with
  | nil => exact absurd h nofun
  | cons c cs =>
    by_cases hslash : c = '\\'
    · subst hslash
      cases cs with
      | nil => exact absurd h nofun
      | cons c cs =>
        have := steps_runeEnd_le (n := 3) h (Nat.le_refl _)
        simp only [List.length_cons]
        exact Nat.le_trans this (by omega)
    · rw [rune_cons hslash] at h ⊢
      split at h
      · exact absurd h nofun
      · next hquote =>
        rw [if_neg hquote]
        have := steps_runeEnd_le (n := 2) h (Nat.le_refl _)
        simp only [List.length_cons]
        omega

theorem steps_rawString_le {cs : List Char} (h : (rawString cs).fault = none) :
    (rawString cs).steps ≤ cs.length + 1 := by
  by_cases hlt : (cs.takeWhile (· != '\x60')).length < cs.length
  · simp only [rawString, if_pos hlt, sound]
    omega
  · simp only [rawString, if_neg hlt] at h
    exact absurd h nofun

/-- A lexeme in which nothing is wrong ends where the text ends at the latest. -/
theorem steps_read_le {c : Char} (h : (Lexeme.read c cs).fault = none) :
    (Lexeme.read c cs).steps ≤ cs.length + 1 := by
  have hone : 1 ≤ cs.length + 1 := by omega
  have htwo : ∀ {x}, cs.head? = some x → 2 ≤ cs.length + 1 := by
    intro x hx
    cases cs with
    | nil => cases hx
    | cons => simp only [List.length_cons]; omega
  unfold Lexeme.read
  split
  case h_1 => exact hone
  case h_2 | h_3 | h_5 =>
    split
    · next hx => exact htwo hx
    · exact hone
  case h_4 =>
    split
    · exact steps_number_le _
    · exact hone
  case h_6 =>
    split
    · exact steps_word_le _
    · exact hone
  case h_7 => exact steps_directive_le _
  case h_8 => exact steps_string_le h
  case h_9 => exact steps_rune_le h
  case h_10 => exact steps_rawString_le h
  case h_11 =>
    split
    · exact hone
    · split
      · exact steps_word_le _
      · split
        · exact steps_number_le _
        · exact hone

/-! ## In front of a line end -/

theorem stringBody_of_newline {cs : List Char} (h : (stringBody (cs ++ ['\n'])).closed) :
    (stringBody cs).closed := by
  fun_induction stringBody cs with
  | case1 => exact absurd h nofun
  | case2 => exact absurd h nofun
  | case3 c cs ih =>
    rw [List.cons_append, List.cons_append, stringBody] at h
    exact ih h
  | case4 => rfl
  | case5 =>
    rw [List.cons_append, stringBody_cons (by decide), if_neg (by decide), if_pos rfl] at h
    exact absurd h nofun
  | case6 c cs hnil hcons hquote hline ih =>
    have hslash : c ≠ '\\' := ne_of_nil_of_cons hnil hcons
    rw [List.cons_append, stringBody_cons hslash, if_neg hquote, if_neg hline] at h
    exact ih h

theorem string_of_newline {cs : List Char} (h : (string (cs ++ ['\n'])).fault = none) :
    (string cs).fault = none := by
  have hclosed : (stringBody (cs ++ ['\n'])).closed := by
    cases hc : (stringBody (cs ++ ['\n'])).closed with
    | true => rfl
    | false =>
      simp only [string, hc, Bool.false_eq_true, if_false] at h
      exact absurd h nofun
  simp only [string, stringBody_of_newline hclosed, if_true]
  rfl

theorem runeEnd_of_newline {value : List Char} {steps : Nat} {cs : List Char}
    (h : (runeEnd value steps (cs ++ ['\n'])).fault = none) :
    (runeEnd value steps cs).fault = none := by
  cases cs with
  | nil => exact absurd h nofun
  | cons c cs => exact h

theorem rune_of_newline {cs : List Char} (h : (rune (cs ++ ['\n'])).fault = none) :
    (rune cs).fault = none := by
  cases cs with
  | nil => exact absurd h nofun
  | cons c cs =>
    by_cases hslash : c = '\\'
    · subst hslash
      cases cs with
      | nil => exact absurd h nofun
      | cons c cs => exact runeEnd_of_newline h
    · rw [List.cons_append, rune_cons hslash] at h
      rw [rune_cons hslash]
      split at h
      · exact absurd h nofun
      · next hquote =>
        rw [if_neg hquote]
        exact runeEnd_of_newline h

theorem takeWhile_of_newline {p : Char → Bool} (hp : p '\n') {cs : List Char}
    (h : ((cs ++ ['\n']).takeWhile p).length < (cs ++ ['\n']).length) :
    (cs.takeWhile p).length < cs.length := by
  induction cs with
  | nil =>
    rw [List.nil_append, List.takeWhile_cons, if_pos hp] at h
    exact absurd h (Nat.lt_irrefl _)
  | cons c cs ih =>
    rw [List.cons_append, List.takeWhile_cons] at h
    rw [List.takeWhile_cons]
    cases hc : p c with
    | false => exact Nat.succ_pos _
    | true =>
      rw [hc] at h
      exact Nat.succ_lt_succ (ih (Nat.lt_of_succ_lt_succ h))

theorem rawString_of_newline {cs : List Char} (h : (rawString (cs ++ ['\n'])).fault = none) :
    (rawString cs).fault = none := by
  by_cases hlt : ((cs ++ ['\n']).takeWhile (· != '\x60')).length < (cs ++ ['\n']).length
  · simp only [rawString, if_pos (takeWhile_of_newline (by decide) hlt)]
    rfl
  · simp only [rawString, if_neg hlt] at h
    exact absurd h nofun

/-- A lexeme in front of a line end has no need of it. -/
theorem read_of_newline {c : Char} {cs : List Char}
    (h : (Lexeme.read c (cs ++ ['\n'])).fault = none) : (Lexeme.read c cs).fault = none := by
  have hword : continuesWord '\n' = false := continuesWord_of_isDelimiter rfl
  have hnumber := endsNumber_of_isDelimiter (d := '\n') rfl
  unfold Lexeme.read at h ⊢
  split at h
  case h_1 => rfl
  case h_2 => split <;> rfl
  case h_3 => split <;> rfl
  case h_4 => split <;> rfl
  case h_5 => split <;> rfl
  case h_6 => split <;> rfl
  case h_7 => rwa [directive_append hword] at h
  case h_8 => exact string_of_newline h
  case h_9 => exact rune_of_newline h
  case h_10 => exact rawString_of_newline h
  case h_11 =>
    rwa [← List.cons_append, word_append hword, number_append hnumber] at h

/-- **A lexeme of a line** is the same whatever lines follow, and it does not
take the line end with it. -/
theorem read_line {c : Char} {cs : List Char}
    (h : (Lexeme.read c (cs ++ ['\n'])).fault = none) (rest : List Char) :
    Lexeme.read c (cs ++ '\n' :: rest) = Lexeme.read c (cs ++ ['\n'])
      ∧ (Lexeme.read c (cs ++ ['\n'])).steps ≤ cs.length + 1 := by
  have hsound := read_of_newline h
  rw [read_append hsound rfl rest, read_append hsound rfl []]
  exact ⟨rfl, steps_read_le hsound⟩

end Lexeme

end Gsx
