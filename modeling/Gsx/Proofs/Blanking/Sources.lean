import Mathlib.Data.List.TakeWhile
import Mathlib.Data.Nat.Find
import Gsx.Proofs.Lexer.Gaps
import Gsx.Proofs.Lexer.Scanners
import Gsx.Proofs.Lexer.Window
/-!
# Comments made blank

A source in which some comments are made blank, character by character: nothing
moves, and what is no part of these comments stays as it is. So from any place
between them the two sources go on alike up to the next such comment, and there
one has a slash and the other a blank. No lexeme goes on with either.
-/

namespace Gsx

/-- A source with some comments made blank, line ends in them included. -/
def blanked (cs : List Comment) (source : List Char) : List Char :=
  source.mapIdx fun i x => if cs.any (Comment.covers i) then ' ' else x

/-- A comment as a lexer finds it: from a slash up to what is no line end. -/
structure Comment.IsMarked (source : List Char) (c : Comment) : Prop where
  slash : source[c.offset]? = some '/'
  last : source[c.endOffset - 1]? ≠ some '\n'

/-- A lexer at a place of a source. -/
def Lexer.at (source : List Char) (o : Nat) : Lexer :=
  ⟨"", source, (Cursor.start source).advance o, .nowhere, [], 0, []⟩

/-- How far a lexer has read that has looked at the token behind the character
at an offset. -/
def lookahead (source : List Char) (o : Nat) : Nat :=
  (Lexer.at source (o + 1)).next.2.cursor.offset

/-- **The search for a closing brace is not misled** by comments right behind the
opening one, in front of the next token or in it: when they are made blank, the
same brace is found, and none of the comments stands behind it. -/
def FindsClosing (cs : List Comment) (source : List Char) : Prop :=
  ∀ p n rest, source.drop p = '{' :: rest → Braces.closing? rest = some n →
    ∀ c ∈ cs, p < c.offset → c.offset < lookahead source p →
      Braces.closing? ((blanked cs source).drop (p + 1)) = some n ∧ c.offset < p + n + 1

/-- It has to be checked at the braces of the source only. -/
theorem findsClosing_iff {cs : List Comment} {source : List Char} :
    FindsClosing cs source ↔ ∀ p < source.length, source[p]? = some '{' →
      ∀ n ∈ (Braces.closing? (source.drop (p + 1))).toList, ∀ c ∈ cs, p < c.offset →
        c.offset < lookahead source p →
          Braces.closing? ((blanked cs source).drop (p + 1)) = some n ∧ c.offset < p + n + 1 := by
  constructor
  · intro h p hlt hbrace n hn
    refine h p n _ ?_ (Option.mem_toList.1 hn)
    rw [List.drop_eq_getElem_cons hlt]
    exact congrArg (· :: _) (List.getElem_eq_iff hlt |>.2 hbrace)
  · intro h p n rest hopening hclosing
    have hlt : p < source.length := by
      have hlength := congrArg List.length hopening
      rw [List.length_drop, List.length_cons] at hlength
      omega
    have hrest : source.drop (p + 1) = rest := by rw [← List.tail_drop, hopening, List.tail_cons]
    refine h p hlt ?_ n (Option.mem_toList.2 (hrest ▸ hclosing))
    rw [← List.head?_drop, hopening]
    rfl

set_option synthInstance.maxSize 256 in
instance (cs : List Comment) (source : List Char) : Decidable (FindsClosing cs source) :=
  decidable_of_iff _ findsClosing_iff.symm

/-- **A source and comments of it that are to be blank.** -/
structure Blanking where
  source : List Char
  comments : List Comment
  marked : ∀ c ∈ comments, c.IsMarked source
  closings : FindsClosing comments source

namespace Blanking

variable {w : Blanking} {o : Nat}

/-- Whether the character at an offset is made blank. -/
def Hides (w : Blanking) (i : Nat) : Prop :=
  ∃ c ∈ w.comments, c.covers i

/-- The source with its comments made blank. -/
def result (w : Blanking) : List Char :=
  blanked w.comments w.source

/-- No comment is cut in two at an offset. -/
def Whole (w : Blanking) (o : Nat) : Prop :=
  ∀ c ∈ w.comments, c.offset < o → c.endOffset ≤ o

/-! ## Characters -/

theorem length_result : w.result.length = w.source.length :=
  List.length_mapIdx

theorem getElem?_of_hides {i : Nat} (h : w.Hides i) (hlt : i < w.source.length) :
    w.result[i]? = some ' ' := by
  have hany : w.comments.any (Comment.covers i) = true := List.any_eq_true.2 h
  rw [result, blanked, List.getElem?_mapIdx, List.getElem?_eq_getElem hlt, Option.map_some, hany,
    if_pos rfl]

theorem getElem?_of_not_hides {i : Nat} (h : ¬w.Hides i) : w.result[i]? = w.source[i]? := by
  have hany : w.comments.any (Comment.covers i) = false :=
    Bool.eq_false_iff.2 fun hany => h (List.any_eq_true.1 hany)
  rw [result, blanked, List.getElem?_mapIdx, hany]
  cases w.source[i]? <;> rfl

/-- A character is what it was or blank. -/
theorem getElem?_result (w : Blanking) (i : Nat) :
    w.result[i]? = w.source[i]? ∨ w.Hides i ∧ w.result[i]? = some ' ' := by
  by_cases h : w.Hides i
  · by_cases hlt : i < w.source.length
    · exact .inr ⟨h, getElem?_of_hides h hlt⟩
    · have hnone : w.source[i]? = none := List.getElem?_eq_none (Nat.le_of_not_lt hlt)
      refine .inl ?_
      rw [hnone, List.getElem?_eq_none]
      rw [length_result]
      exact Nat.le_of_not_lt hlt
  · exact .inl (getElem?_of_not_hides h)

/-- Without a comment in between the characters are the same. -/
theorem take_drop_result {n : Nat} (h : ∀ i, o ≤ i → i < o + n → ¬w.Hides i) :
    (w.result.drop o).take n = (w.source.drop o).take n := by
  refine List.ext_getElem? fun i => ?_
  rw [List.getElem?_take, List.getElem?_take, List.getElem?_drop, List.getElem?_drop]
  split
  · exact getElem?_of_not_hides (h _ (Nat.le_add_right _ _) (by omega))
  · rfl

theorem slice_result {n : Nat}
    (h : ∀ i, o ≤ i → i < o + ((w.source.drop o).take n).length → ¬w.Hides i) :
    (w.result.drop o).take n = (w.source.drop o).take n := by
  have hlength : ∀ cs : List Char, cs.length = w.source.length →
      (cs.drop o).take n = (cs.drop o).take ((w.source.drop o).take n).length := fun cs hcs => by
    rw [List.take_eq_take_iff, List.length_take, List.length_drop, List.length_drop, hcs]
    omega
  rw [hlength _ length_result, take_drop_result h, ← hlength _ rfl]

theorem offset_le_of_hides {i : Nat} (hwhole : w.Whole o) (hle : o ≤ i) (h : w.Hides i) :
    ∃ c ∈ w.comments, o ≤ c.offset ∧ c.offset ≤ i ∧ i < c.endOffset := by
  obtain ⟨c, hc, hcovers⟩ := h
  obtain ⟨hfrom, hto⟩ := Comment.covers_iff.1 hcovers
  refine ⟨c, hc, Nat.le_of_not_lt fun hlt => ?_, hfrom, hto⟩
  have hend := hwhole c hc hlt
  omega

/-- A place in front of all comments that start behind another. -/
theorem not_hides (hwhole : w.Whole o) {stop : Nat}
    (h : ∀ c ∈ w.comments, o ≤ c.offset → stop ≤ c.offset) :
    ∀ i, o ≤ i → i < stop → ¬w.Hides i := by
  intro i hle hlt hides
  obtain ⟨c, hc, hfrom, hto, -⟩ := offset_le_of_hides hwhole hle hides
  have hstop := h c hc hfrom
  omega

/-- **Up to the next comment the sources are the same**; there one has a slash and
the other a blank. -/
theorem split (hwhole : w.Whole o) :
    w.result.drop o = w.source.drop o
      ∨ ∃ c ∈ w.comments, ∃ xs rest rest', o + xs.length = c.offset
        ∧ w.source.drop o = xs ++ '/' :: rest ∧ w.result.drop o = xs ++ ' ' :: rest' := by
  classical
  by_cases hsome : ∃ i, (o ≤ i ∧ w.Hides i) ∧ i < w.source.length
  · -- the first character that is hidden is that of a comment
    obtain ⟨⟨hle, hides⟩, hlt⟩ := Nat.find_spec hsome
    have hmin := fun m => Nat.find_min hsome (m := m)
    generalize Nat.find hsome = i at hle hides hlt hmin
    obtain ⟨c, hc, hfrom, hto, hend⟩ := offset_le_of_hides hwhole hle hides
    have hfirst : c.offset = i := by
      refine Nat.le_antisymm hto (Nat.le_of_not_lt fun hbefore => hmin _ hbefore
        ⟨⟨hfrom, c, hc, Comment.covers_iff.2 ⟨le_rfl, by omega⟩⟩, by omega⟩)
    subst hfirst
    have hsame : (w.result.drop o).take (c.offset - o) = (w.source.drop o).take (c.offset - o) :=
      take_drop_result fun i hle hbefore hides =>
        hmin i (by omega) ⟨⟨hle, hides⟩, by omega⟩
    have hslash : w.source[c.offset] = '/' := by
      have := (w.marked c hc).slash
      rw [List.getElem?_eq_getElem hlt] at this
      exact Option.some.inj this
    have hlt' : c.offset < w.result.length := length_result ▸ hlt
    have hblank : w.result[c.offset] = ' ' := by
      have := getElem?_of_hides hides hlt
      rw [List.getElem?_eq_getElem hlt'] at this
      exact Option.some.inj this
    refine .inr ⟨c, hc, (w.source.drop o).take (c.offset - o), w.source.drop (c.offset + 1),
      w.result.drop (c.offset + 1), ?_, ?_, ?_⟩
    · rw [List.length_take, List.length_drop]
      omega
    · have hdrop : (w.source.drop o).drop (c.offset - o) = '/' :: w.source.drop (c.offset + 1) := by
        rw [List.drop_drop, Nat.add_sub_cancel' hfrom, List.drop_eq_getElem_cons hlt, hslash]
      rw [← hdrop, List.take_append_drop]
    · have hdrop : (w.result.drop o).drop (c.offset - o) = ' ' :: w.result.drop (c.offset + 1) := by
        rw [List.drop_drop, Nat.add_sub_cancel' hfrom,
          List.drop_eq_getElem_cons (length_result ▸ hlt), hblank]
      rw [← hdrop, ← hsame, List.take_append_drop]
  · refine .inl (List.ext_getElem? fun i => ?_)
    rw [List.getElem?_drop, List.getElem?_drop]
    rcases getElem?_result w (o + i) with heq | ⟨hides, heq⟩
    · exact heq
    · have hlt : ¬o + i < w.source.length := fun hlt =>
        hsome ⟨o + i, ⟨Nat.le_add_right _ _, hides⟩, hlt⟩
      rw [← length_result, Nat.not_lt] at hlt
      rw [List.getElem?_eq_none hlt] at heq
      cases heq

end Blanking

/-! ## Text without blank ends -/

namespace Text

/-- Blank ends do not count. -/
theorem trimList_append_append {before behind : List Char} (hbefore : ∀ x ∈ before, isBlank x)
    (hbehind : ∀ x ∈ behind, isBlank x) (cs : List Char) :
    trimList (before ++ (cs ++ behind)) = trimList cs := by
  rw [trimList, trimList, List.dropWhile_append_of_pos hbefore, List.dropWhile_append]
  split
  · next hempty =>
    rw [List.isEmpty_iff.1 hempty, List.dropWhile_eq_nil_iff.2 hbehind]
  · rw [List.reverse_append,
      List.dropWhile_append_of_pos fun x hx => hbehind x (List.mem_reverse.1 hx)]

/-- What is trimmed away is blank. -/
theorem exists_trimList (cs : List Char) :
    ∃ behind, cs = cs.takeWhile isBlank ++ (trimList cs ++ behind) ∧ ∀ x ∈ behind, isBlank x := by
  have hback := List.takeWhile_append_dropWhile (p := isBlank) (l := (cs.dropWhile isBlank).reverse)
  refine ⟨((cs.dropWhile isBlank).reverse.takeWhile isBlank).reverse, ?_, fun x hx => ?_⟩
  · rw [trimList, ← List.reverse_append, hback, List.reverse_reverse,
      List.takeWhile_append_dropWhile]
  · exact List.mem_takeWhile_imp (List.mem_reverse.1 hx)

theorem trimList_eq_nil_iff {cs : List Char} : trimList cs = [] ↔ ∀ x ∈ cs, isBlank x := by
  refine ⟨fun h x hx => ?_, fun h => ?_⟩
  · obtain ⟨behind, hcs, hbehind⟩ := exists_trimList cs
    rw [hcs, h, List.nil_append] at hx
    exact (List.mem_append.1 hx).elim List.mem_takeWhile_imp (hbehind x)
  · have hall : trimList (cs ++ ([] ++ [])) = trimList [] :=
      trimList_append_append h (fun _ hx => absurd hx List.not_mem_nil) []
    rwa [List.append_nil, List.append_nil] at hall

end Text

namespace Blanking

variable {w : Blanking}

/-- What was blank is blank. -/
theorem isBlank_result {a n : Nat} (h : ∀ x ∈ (w.source.drop a).take n, Text.isBlank x) :
    ∀ x ∈ (w.result.drop a).take n, Text.isBlank x := by
  intro x hx
  obtain ⟨i, hi⟩ := List.mem_iff_getElem?.1 hx
  rw [List.getElem?_take, List.getElem?_drop] at hi
  split at hi
  · next hlt =>
    rcases getElem?_result w (a + i) with heq | ⟨-, heq⟩
    · refine h x (List.mem_iff_getElem?.2 ⟨i, ?_⟩)
      rw [List.getElem?_take, List.getElem?_drop, if_pos hlt, ← heq, hi]
    · rw [heq] at hi
      obtain rfl := Option.some.inj hi
      rfl
  · cases hi

/-- **A stretch of the source is the same without its blank ends**, if no comment
is hidden in what is left of it. -/
theorem trimList_result {a n : Nat}
    (h : ∀ i, a ≤ i → i < a + ((w.source.drop a).takeWhile Text.isBlank).length
      + (Text.trimList ((w.source.drop a).take n)).length → ¬w.Hides i) :
    Text.trimList ((w.result.drop a).take n) = Text.trimList ((w.source.drop a).take n) := by
  obtain ⟨behind, hcs, hbehind⟩ := Text.exists_trimList ((w.source.drop a).take n)
  have hlead_le : (((w.source.drop a).take n).takeWhile Text.isBlank).length
      ≤ ((w.source.drop a).takeWhile Text.isBlank).length := by
    conv_rhs => rw [← List.take_append_drop n (w.source.drop a), List.takeWhile_append]
    split
    · rw [List.length_append]
      omega
    · exact le_rfl
  have hblank : ∀ x ∈ ((w.source.drop a).take n).takeWhile Text.isBlank, Text.isBlank x :=
    fun x hx => List.mem_takeWhile_imp hx
  generalize hlead : ((w.source.drop a).take n).takeWhile Text.isBlank = lead at hcs hlead_le hblank
  generalize hcore : Text.trimList ((w.source.drop a).take n) = core at hcs h ⊢
  have hlength := congrArg List.length hcs
  simp only [List.length_take, List.length_drop, List.length_append] at hlength
  -- the three parts, in both sources
  have hparts : ∀ cs : List Char, (cs.drop a).take n = (cs.drop a).take lead.length
      ++ ((cs.drop (a + lead.length)).take core.length
        ++ (cs.drop (a + lead.length + core.length)).take (n - lead.length - core.length)) := by
    intro cs
    have hsum : n = lead.length + (core.length + (n - lead.length - core.length)) := by omega
    conv_lhs => rw [hsum, List.take_add, List.take_add]
    simp only [List.drop_drop, Nat.add_assoc]
  have hsource := (hparts w.source).symm.trans hcs
  obtain ⟨hfirst, hrest⟩ := List.append_inj hsource (by
    rw [List.length_take, List.length_drop]
    omega)
  obtain ⟨hmiddle, hlast⟩ := List.append_inj hrest (by
    rw [List.length_take, List.length_drop]
    omega)
  have hsame : (w.result.drop (a + lead.length)).take core.length = core := by
    refine (take_drop_result fun i hle hlt => h i (by omega) ?_).trans hmiddle
    omega
  have htrimmed : Text.trimList core = core := by
    rw [← Text.trimList_append_append hblank hbehind core, ← hcs, hcore]
  rw [hparts, hsame, Text.trimList_append_append (isBlank_result fun x hx => hblank x (hfirst ▸ hx))
    (isBlank_result fun x hx => hbehind x (hlast ▸ hx)), htrimmed]

end Blanking

/-! ## Lexemes in front of a comment -/

namespace Lexeme

theorem stringBody_blank {cs rest : List Char}
    (h : (stringBody (cs ++ '/' :: rest)).steps ≤ cs.length) (rest' : List Char) :
    stringBody (cs ++ ' ' :: rest') = stringBody (cs ++ '/' :: rest) := by
  fun_induction stringBody cs with
  | case1 =>
    rw [List.nil_append, stringBody_cons (by decide), if_neg (by decide), if_neg (by decide)] at h
    exact absurd h (by simp [StringBody.push])
  | case2 =>
    rw [List.singleton_append, stringBody] at h
    simp only [StringBody.push, List.length_singleton] at h
    omega
  | case3 c cs ih =>
    simp only [List.cons_append, stringBody, StringBody.push, List.length_cons] at h ⊢
    rw [ih (by omega)]
  | case4 cs => simp only [List.cons_append, stringBody_cons (show '"' ≠ '\\' by decide), if_pos]
  | case5 cs hnil hcons hquote =>
    simp only [List.cons_append, stringBody_cons (show '\n' ≠ '\\' by decide), if_pos, if_neg hquote]
  | case6 c cs hnil hcons hquote hline ih =>
    have hslash : c ≠ '\\' := ne_of_nil_of_cons hnil hcons
    simp only [List.cons_append, stringBody_cons hslash, if_neg hquote, if_neg hline,
      StringBody.push, List.length_cons] at h ⊢
    rw [ih (by omega)]

theorem string_blank {cs rest : List Char} (h : (string (cs ++ '/' :: rest)).steps ≤ cs.length + 1)
    (rest' : List Char) : string (cs ++ ' ' :: rest') = string (cs ++ '/' :: rest) := by
  have hsteps : (stringBody (cs ++ '/' :: rest)).steps ≤ cs.length := by
    cases hclosed : (stringBody (cs ++ '/' :: rest)).closed <;>
      simp only [string, hclosed, if_true, Bool.false_eq_true, if_false] at h <;>
      exact Nat.le_of_succ_le_succ h
  rw [string, string, stringBody_blank hsteps]

theorem runeEnd_blank (value : List Char) {steps : Nat} {cs rest : List Char} (rest' : List Char) :
    runeEnd value steps (cs ++ ' ' :: rest') = runeEnd value steps (cs ++ '/' :: rest) := by
  cases cs <;> rfl

theorem steps_runeEnd_ge (value : List Char) (steps : Nat) (cs : List Char) :
    steps ≤ (runeEnd value steps cs).steps := by
  rw [runeEnd]
  split
  · exact Nat.le_succ _
  · exact Nat.le_refl _

theorem rune_blank {cs rest : List Char} (h : (rune (cs ++ '/' :: rest)).steps ≤ cs.length + 1)
    (rest' : List Char) : rune (cs ++ ' ' :: rest') = rune (cs ++ '/' :: rest) := by
  match cs with
  | [] =>
    rw [List.nil_append, rune_cons (by decide), if_neg (by decide)] at h
    have hge := steps_runeEnd_ge ['/'] 2 rest
    simp only [List.length_nil] at h
    omega
  | [c] =>
    by_cases hc : c = '\\'
    · subst hc
      rw [List.singleton_append, rune] at h
      have hge := steps_runeEnd_ge [(escape? '\'' '/').getD '/'] 3 rest
      simp only [List.length_singleton] at h
      omega
    · rw [List.singleton_append, List.singleton_append, rune_cons hc, rune_cons hc]
      split
      · rfl
      · rfl
  | c :: c' :: cs =>
    by_cases hc : c = '\\'
    · subst hc
      simp only [List.cons_append, rune]
      exact runeEnd_blank _ _
    · simp only [List.cons_append, rune_cons hc]
      split
      · rfl
      · rfl

theorem rawString_blank {cs rest : List Char}
    (h : (rawString (cs ++ '/' :: rest)).steps ≤ cs.length + 1) (rest' : List Char) :
    rawString (cs ++ ' ' :: rest') = rawString (cs ++ '/' :: rest) := by
  have hlt : (cs.takeWhile (· != '\x60')).length < cs.length := by
    refine Nat.lt_of_not_le fun hle => ?_
    have hall : cs.takeWhile (· != '\x60') = cs :=
      (List.takeWhile_prefix _).eq_of_length_le hle
    have htake : (cs ++ '/' :: rest).takeWhile (· != '\x60')
        = cs ++ '/' :: rest.takeWhile (· != '\x60') := by
      rw [List.takeWhile_append, hall, if_pos rfl]
      rfl
    simp only [rawString, htake, List.length_append, List.length_cons] at h
    split at h <;> simp only [sound, faulty] at h <;> omega
  have hlonger : ∀ xs : List Char, (cs.takeWhile (· != '\x60')).length < (cs ++ xs).length := by
    intro xs
    rw [List.length_append]
    omega
  simp only [rawString, takeWhile_append_of_lt hlt, if_pos (hlonger _)]

/-- **A lexeme that ends in front of a comment** reads the same in front of a
blank. -/
theorem read_blank {c : Char} {cs rest : List Char}
    (h : (Lexeme.read c (cs ++ '/' :: rest)).steps ≤ cs.length + 1) (rest' : List Char) :
    Lexeme.read c (cs ++ ' ' :: rest') = Lexeme.read c (cs ++ '/' :: rest) := by
  have hword : continuesWord '/' = false := by decide
  have hword' : continuesWord ' ' = false := by decide
  have hnumber : endsNumber '/' := by decide
  have hnumber' : endsNumber ' ' := by decide
  have hhead : ∀ {p : Char → Bool}, p '/' = false → p ' ' = false →
      (cs ++ ' ' :: rest').head?.any p = (cs ++ '/' :: rest).head?.any p := fun h h' => by
    rw [head?_append_any h, head?_append_any h']
  have hnext : ∀ {x : Char}, x ≠ '/' → x ≠ ' ' →
      ((cs ++ ' ' :: rest').head? = some x) = ((cs ++ '/' :: rest).head? = some x) := fun h h' => by
    rw [head?_append_eq h.symm, head?_append_eq h'.symm]
  unfold Lexeme.read at h ⊢
  split
  case h_1 => rfl
  case h_2 =>
    cases cs with
    | nil => exact absurd h (by simp [sound])
    | cons c cs => rfl
  case h_3 => simp only [hnext (show '>' ≠ '/' by decide) (by decide)]
  case h_4 =>
    rw [hhead (by decide) (by decide), ← List.cons_append, ← List.cons_append,
      number_append hnumber, number_append hnumber']
  case h_5 => simp only [hnext (show '=' ≠ '/' by decide) (by decide)]
  case h_6 =>
    rw [hhead hword hword', ← List.cons_append, ← List.cons_append, word_append hword,
      word_append hword']
  case h_7 => rw [directive_append hword, directive_append hword']
  case h_8 => exact string_blank h rest'
  case h_9 => exact rune_blank h rest'
  case h_10 => exact rawString_blank h rest'
  case h_11 =>
    rw [← List.cons_append, ← List.cons_append, word_append hword, word_append hword',
      number_append hnumber, number_append hnumber']

end Lexeme

/-! ## Braces that close in front of a comment -/

/-- Where a scan stops does not depend on what comes behind. -/
theorem GoText.stop?_append {m : GoText.Mode} {d : GoText.Depths} {xs ys : List Char} {n : Nat}
    (h : GoText.stop? m d (xs ++ ys) = some n) (hn : n < xs.length) (zs : List Char) :
    GoText.stop? m d (xs ++ zs) = some n := by
  induction xs generalizing m d n with
  | nil => exact absurd hn (Nat.not_lt_zero _)
  | cons x xs ih =>
    by_cases hstop : m.readsCode x = true ∧ (d.after x).braces = 0
    · have hscan : ∀ cs, GoText.stop? m d (x :: cs) = some 0 := fun cs => by
        rw [GoText.stop?, GoText.scan, if_pos hstop.1]
        simp only [if_pos hstop.2]
        exact if_pos (Nat.succ_pos _)
      rw [List.cons_append, hscan] at h
      rw [List.cons_append, hscan, h]
    · obtain ⟨m', d', hgrow⟩ : ∃ m' d', ∀ cs,
          GoText.scan m d (x :: cs) = (GoText.scan m' d' cs).grow := by
        by_cases hcode : m.readsCode x = true
        · refine ⟨m.after x, d.after x, fun cs => ?_⟩
          rw [GoText.scan, if_pos hcode]
          exact if_neg fun hzero => hstop ⟨hcode, hzero⟩
        · exact ⟨m.after x, d, fun cs => by rw [GoText.scan, if_neg hcode]⟩
      rw [List.cons_append, GoText.stop?_of_grow (hgrow _)] at h ⊢
      obtain ⟨k, hk, rfl⟩ := Option.map_eq_some_iff.1 h
      rw [ih hk (Nat.lt_of_succ_lt_succ hn)]
      rfl

theorem Braces.closing?_of_append {xs ys : List Char} {n : Nat}
    (h : Braces.closing? (xs ++ ys) = some n) (hn : n < xs.length) (zs : List Char) :
    Braces.closing? (xs ++ zs) = some n := by
  rw [GoText.closing?_eq_stop?] at h ⊢
  exact GoText.stop?_append h hn zs

end Gsx
