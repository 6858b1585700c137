import Gsx.Proofs.Rendering.Reads
import Mathlib.Data.List.TakeWhile
/-!
# Leaves

Names, literals and captured Go, each read back from its text.
-/

namespace Gsx.Rendering

open Lexer Parse

variable {source cs rest w : List Char} {c d : Char}

/-! ## Words -/

theorem ofPunctuation?_of_startsWord (h : Lexeme.startsWord c) :
    TokenKind.ofPunctuation? c = none := by
  cases hk : TokenKind.ofPunctuation? c with
  | none => rfl
  | some k =>
    -- one case for each sign, and none of the signs starts a word
    unfold TokenKind.ofPunctuation? at hk
    split at hk
    case h_21 => cases hk
    all_goals exact absurd h (by decide)

theorem read_of_startsWord (h : Lexeme.startsWord c) (hne : c ≠ '_') (rest : List Char) :
    Lexeme.read c rest = Lexeme.word (c :: rest) := by
  unfold Lexeme.read
  split
  case h_6 => exact absurd rfl hne
  case h_11 => rw [ofPunctuation?_of_startsWord h, if_pos h]
  all_goals exact absurd h (by decide)

theorem isGap_of_startsWord (h : Lexeme.startsWord c) : isGap c = false := by
  cases hc : isGap c with
  | false => rfl
  | true =>
    rw [isGap, Bool.or_eq_true, Bool.or_eq_true, beq_iff_eq, beq_iff_eq, beq_iff_eq] at hc
    rcases hc with (rfl | rfl) | rfl <;> exact absurd h (by decide)

theorem opensComment_of_ne (h : c ≠ '/') : opensComment (c :: cs) = false := by
  cases cs <;> simp [opensComment, h]

theorem ne_slash_of_startsWord (h : Lexeme.startsWord c) : c ≠ '/' := by
  rintro rfl
  exact absurd h (by decide)

theorem front_of_read {n : Nat} {k : TokenKind} {cs' : List Char} (hgap : isGap c = false)
    (hslash : c ≠ '/') (hread : Lexeme.read c cs = .sound k w n) (hdrop : (c :: cs).drop n = cs') :
    Front (c :: cs) k w cs' := by
  rw [Front, List.dropWhile_cons_of_neg (by simp [hgap])]
  exact ⟨opensComment_of_ne hslash, n, hread, hdrop⟩

/-- A lexeme is the front of any text that it was read from as a whole. -/
theorem front_of_append {v : List Char} {k : TokenKind} (hgap : isGap c = false) (hslash : c ≠ '/')
    (hread : Lexeme.read c (w ++ rest) = .sound k v (c :: w).length) :
    Front (c :: w ++ rest) k v rest := by
  have hdrop : (c :: w ++ rest).drop (c :: w).length = rest := List.drop_left
  exact front_of_read hgap hslash hread hdrop

theorem continuesWord_of_isWord (h : isWord w) : ∀ c ∈ w, Lexeme.continuesWord c := by
  cases w with
  | nil => exact nofun
  | cons c w =>
    rw [isWord, Bool.and_eq_true, List.all_eq_true] at h
    intro x hx
    rcases List.mem_cons.1 hx with rfl | hx
    · rw [Lexeme.continuesWord, h.1, Bool.true_or]
    · exact h.2 x hx

/-- In front of a word that is more than an underscore a word is read. -/
theorem read_of_isWord (h : isWord (c :: w)) (hne : c :: w ≠ ['_']) (rest : List Char) :
    Lexeme.read c (w ++ rest) = Lexeme.word (c :: w ++ rest) := by
  have hcontinues := continuesWord_of_isWord h
  rw [isWord, Bool.and_eq_true] at h
  by_cases hc : c = '_'
  · subst hc
    cases w with
    | nil => exact absurd rfl hne
    | cons c' w =>
      change (if Lexeme.continuesWord c' then Lexeme.word _ else _) = _
      rw [if_pos (hcontinues c' (by simp))]
      rfl
  · rw [read_of_startsWord h.1 hc]
    rfl

/-- **A word in front of a character that no word goes on with.** -/
theorem front_word (h : isWord w) (hne : w ≠ ['_']) (hd : Lexeme.continuesWord d = false)
    (rest : List Char) :
    Front (w ++ d :: rest) (.ofWord (String.ofList w)) w (d :: rest) := by
  have hw : (w ++ d :: rest).takeWhile Lexeme.continuesWord = w := by
    rw [takeWhile_append_cons hd, List.takeWhile_eq_self_iff.2 (continuesWord_of_isWord h)]
  cases w with
  | nil => exact absurd h Bool.false_ne_true
  | cons c w =>
    have hstarts : Lexeme.startsWord c := by
      rw [isWord, Bool.and_eq_true] at h
      exact h.1
    refine front_of_append (isGap_of_startsWord hstarts) (ne_slash_of_startsWord hstarts) ?_
    rw [read_of_isWord h hne, Lexeme.word, hw]

theorem front_name (h : isName w) (hd : Lexeme.continuesWord d = false) (rest : List Char) :
    Front (w ++ d :: rest) .identifier w (d :: rest) := by
  simp only [isName, Bool.and_eq_true, bne_iff_ne, beq_iff_eq] at h
  rw [← h.2]
  exact front_word h.1.1 h.1.2 hd rest

theorem front_underscore (hd : Lexeme.continuesWord d = false) (rest : List Char) :
    Front ('_' :: d :: rest) .underscore ['_'] (d :: rest) := by
  refine front_of_read rfl (by decide) (n := 1) ?_ rfl
  change (if Lexeme.continuesWord d then _ else _) = _
  rw [if_neg (by simp [hd])]

/-! ## Directives and calls -/

theorem front_at (hd : Lexeme.continuesWord d = false) {k : TokenKind} {v : List Char}
    (hk : Lexeme.directive w = .sound k v (w.length + 1)) (rest : List Char) :
    Front ('@' :: w ++ d :: rest) k v (d :: rest) := by
  refine front_of_append rfl (by decide) ?_
  change Lexeme.directive (w ++ d :: rest) = _
  rw [Lexeme.directive_append hd, hk]
  rfl

/-- No directive starts with an upper-case character. -/
theorem ofDirective?_of_isUppercase (h : w.head?.any Unicode.isUppercase) :
    TokenKind.ofDirective? (String.ofList w) = none := by
  -- every directive is written in lower case
  have hne : ∀ v : String, v.toList.head?.any Unicode.isUppercase = false →
      String.ofList w ≠ v := by
    rintro v hv rfl
    rw [String.toList_ofList, h] at hv
    exact absurd hv.symm Bool.false_ne_true
  unfold TokenKind.ofDirective?
  split
  case h_6 => rfl
  all_goals next heq => exact absurd heq (hne _ (by decide))

theorem directive_of_isCallName (h : isCallName w) :
    Lexeme.directive w = .sound .atCall w (w.length + 1) := by
  rw [isCallName, Bool.and_eq_true] at h
  have hstarts : w.head?.any Lexeme.startsWord := by
    cases w with
    | nil => exact absurd h.1 Bool.false_ne_true
    | cons c w =>
      rw [isWord, Bool.and_eq_true] at h
      exact h.1.1
  simp only [Lexeme.directive, hstarts, if_true,
    List.takeWhile_eq_self_iff.2 (continuesWord_of_isWord h.1), ofDirective?_of_isUppercase h.2,
    h.2]

theorem front_callName (h : isCallName w) (hd : Lexeme.continuesWord d = false)
    (rest : List Char) : Front ('@' :: w ++ d :: rest) .atCall w (d :: rest) :=
  front_at hd (directive_of_isCallName h) rest

/-! ## Strings and numbers -/

/-- An escape is read back as the character it stands for. -/
theorem stringBody_escape (c : Char) (rest : List Char) :
    Lexeme.stringBody (escape c ++ rest)
      = (Lexeme.stringBody rest).push [c] (escape c).length := by
  unfold escape
  split
  -- any other character stands for itself; the six escapes are read by computation
  case h_7 hquote hslash hline _ _ _ =>
    rw [List.singleton_append, Lexeme.stringBody_cons hslash, if_neg hquote, if_neg hline]
    rfl
  all_goals rfl

theorem stringBody_quoted (cs rest : List Char) :
    Lexeme.stringBody (cs.flatMap escape ++ '"' :: rest)
      = ⟨cs, (cs.flatMap escape).length + 1, true⟩ := by
  induction cs with
  | nil => rfl
  | cons c cs ih =>
    rw [List.flatMap_cons, List.append_assoc, stringBody_escape, ih]
    simp only [Lexeme.StringBody.push, List.singleton_append, List.length_append, Nat.add_assoc]

theorem front_quoted (s : String) (rest : List Char) :
    Front (quoted s ++ rest) .string s.toList rest := by
  have hbody := stringBody_quoted s.toList rest
  refine front_of_read rfl (by decide) (n := (s.toList.flatMap escape).length + 2) ?_ ?_
  · change Lexeme.string (s.toList.flatMap escape ++ ['"'] ++ rest) = _
    rw [List.append_assoc, List.singleton_append]
    simp only [Lexeme.string, hbody, if_true]
  · change (s.toList.flatMap escape ++ ['"'] ++ rest).drop _ = rest
    exact List.drop_left' (by rw [List.length_append]; rfl)

theorem toDigits_isDigit (n : Nat) : ∀ c ∈ Nat.toDigits 10 n, c.isDigit :=
  fun _ => Nat.isDigit_of_mem_toDigits (by decide) (by decide)

theorem digit_cases (h : c.isDigit) :
    c = '0' ∨ c = '1' ∨ c = '2' ∨ c = '3' ∨ c = '4' ∨ c = '5' ∨ c = '6' ∨ c = '7' ∨ c = '8'
      ∨ c = '9' := by
  obtain ⟨hle, hle'⟩ := Char.isDigit_iff_toNat.1 h
  have hchars : ∀ d : Char, c = d ↔ c.toNat = d.toNat := fun d => Char.toNat_inj.symm
  simp only [hchars, Char.reduceToNat] at hle hle' ⊢
  omega

theorem read_of_isDigit (h : c.isDigit) (rest : List Char) :
    Lexeme.read c rest = Lexeme.number (c :: rest) := by
  rcases digit_cases h with rfl | rfl | rfl | rfl | rfl | rfl | rfl | rfl | rfl | rfl <;> rfl

theorem number_of_isDecimal (h : ∀ c ∈ cs, Unicode.isDecimal c) :
    Lexeme.number cs = .sound .int cs cs.length := by
  have hwhole := List.takeWhile_eq_self_iff.2 h
  simp only [Lexeme.number, hwhole, List.drop_length, Lexeme.fractionPart, List.length_nil,
    Nat.add_zero, Lexeme.exponentPart, List.append_nil, List.isEmpty_nil, Bool.and_self, if_true]

/-- A numeral in front of a character that no number goes on with. -/
theorem front_nat (n : Nat) (hd : Lexeme.endsNumber d) (rest : List Char) :
    Front (Nat.toDigits 10 n ++ d :: rest) .int (Nat.toDigits 10 n) (d :: rest) := by
  have hdigits := toDigits_isDigit n
  have hnumber : Lexeme.number (Nat.toDigits 10 n)
      = .sound .int (Nat.toDigits 10 n) (Nat.toDigits 10 n).length :=
    number_of_isDecimal fun c hc => Unicode.isDecimal_of_isDigit (hdigits c hc)
  obtain ⟨c, cs, hcs⟩ := List.exists_cons_of_ne_nil (Nat.toDigits_ne_nil (n := n) (b := 10))
  rw [hcs] at hdigits hnumber ⊢
  have hc := hdigits c List.mem_cons_self
  refine front_of_append ?_ ?_ ?_
  · rcases digit_cases hc with rfl | rfl | rfl | rfl | rfl | rfl | rfl | rfl | rfl | rfl <;> rfl
  · rintro rfl
    exact absurd hc (by decide)
  · rw [read_of_isDigit hc, ← List.cons_append, Lexeme.number_append hd, hnumber]

theorem value_toDigits (n : Nat) : Numeral.value (Nat.toDigits 10 n) = n := by
  -- the two folds agree digit by digit, from any value on
  have hvalue : ∀ (cs : List Char) (m : Nat), (∀ c ∈ cs, c.isDigit) →
      cs.foldl (fun n c => 10 * n + Unicode.decimalValue c) m = Nat.ofDigitChars 10 cs m := by
    intro cs
    induction cs with
    | nil => exact fun _ _ => rfl
    | cons c cs ih =>
      intro m h
      rw [List.foldl_cons, ih _ fun x hx => h x (List.mem_cons_of_mem _ hx)]
      rw [Unicode.decimalValue, if_pos (h c List.mem_cons_self)]
      rfl
  rw [Numeral.value, hvalue _ _ (toDigits_isDigit n), Nat.ofDigitChars_ten_toDigits]

end Gsx.Rendering
