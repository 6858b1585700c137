import Gsx.Proofs.Lexer.Calls
import Gsx.Proofs.Lexer.Closing
/-!
# Two scans for one brace

The brace that ends an expression is found in two ways. Read at the cursor, an
expression is a scan that goes from mode to mode with every character; read at
an offset, the text between braces is a sequence of items that are jumped over
whole. `GoText.stop?` is where the first scan stops, and here it is shown to
stop where the second one does: each literal, jumped over, leaves the scan in
code again at the same place. So the two readers give the same text for the
same braces and leave the cursor at the same place, or fail together.
-/

namespace Gsx

namespace GoText

variable {m : Mode} {d : Depths} {c : Char} {cs : List Char}

/-- Where a scan stops, none where it runs into the end. -/
def stop? (m : Mode) (d : Depths) (cs : List Char) : Option Nat :=
  if (scan m d cs).length < cs.length then some (scan m d cs).length else none

theorem stop?_nil (m : Mode) (d : Depths) : stop? m d [] = none :=
  rfl

theorem stop?_of_grow {m' : Mode} {d' : Depths}
    (h : scan m d (c :: cs) = (scan m' d' cs).grow) :
    stop? m d (c :: cs) = (stop? m' d' cs).map (· + 1) := by
  rw [stop?, stop?, h]
  by_cases hlt : (scan m' d' cs).length < cs.length
  · rw [if_pos hlt]
    exact if_pos (Nat.succ_lt_succ hlt)
  · rw [if_neg hlt]
    exact if_neg fun hlt' => hlt (Nat.lt_of_succ_lt_succ hlt')

/-- A character of a literal is passed. -/
theorem stop?_literal (h : m.readsCode c = false) :
    stop? m d (c :: cs) = (stop? (m.after c) d cs).map (· + 1) :=
  stop?_of_grow (by rw [scan, h, if_neg Bool.false_ne_true])

/-- A character of code is passed as long as a brace is open. -/
theorem stop?_code (c : Char) {n : Nat} (h : (d.after c).braces = n + 1) :
    stop? .code d (c :: cs) = (stop? (.ofCode c) (d.after c) cs).map (· + 1) :=
  have hopen : (d.after c).braces ≠ 0 := by omega
  stop?_of_grow (by
    rw [scan]
    exact if_neg hopen)

/-- The scan stops in front of the brace that closes the last open one. -/
theorem stop?_closing (h : d.braces = 1) : stop? .code d ('}' :: cs) = some 0 := by
  have hclosed : (d.after '}').braces = 0 := by
    simp only [Depths.after, h]
  have hscan : scan .code d ('}' :: cs) = ⟨0, d.after '}', 0⟩ := by
    rw [scan]
    exact if_pos hclosed
  rw [stop?, hscan]
  exact if_pos (Nat.succ_pos _)

/-! ## Literals are jumped over -/

/-- A scan that is in code again after some characters. -/
def Skips (m : Mode) (d : Depths) (cs : List Char) (n : Nat) : Prop :=
  stop? m d cs = (stop? .code d (cs.drop n)).map (· + n)

theorem Skips.zero (d : Depths) (cs : List Char) : Skips .code d cs 0 := by
  simp [Skips]

theorem Skips.nil (m : Mode) (d : Depths) (n : Nat) : Skips m d [] n := by
  simp [Skips, stop?_nil]

/-- One character of a literal more. -/
theorem Skips.cons {n : Nat} (h : m.readsCode c = false) (hrest : Skips (m.after c) d cs n) :
    Skips m d (c :: cs) (n + 1) := by
  rw [Skips, stop?_literal h, hrest, List.drop_succ_cons, Option.map_map]
  congr 1

theorem skips_string (d : Depths) (cs : List Char) :
    Skips .string d cs (Braces.stringLength cs) := by
  fun_induction Braces.stringLength cs with
  | case1 => exact .nil _ _ _
  | case2 => exact .cons rfl (.nil _ _ _)
  | case3 c cs ih => exact .cons rfl (.cons rfl ih)
  | case4 cs => exact .cons rfl (.zero d cs)
  | case5 c cs hnil hcons hquote ih =>
    have hslash : c ≠ '\\' := ne_of_nil_of_cons hnil hcons
    refine .cons rfl ?_
    rw [Mode.after, if_neg hquote, if_neg hslash]
    exact ih

theorem skips_rawString (d : Depths) (cs : List Char) :
    Skips .rawString d cs (Braces.rawStringLength cs) := by
  induction cs with
  | nil => exact .nil _ _ _
  | cons c cs ih =>
    rw [Braces.rawStringLength]
    by_cases hquote : c = '\x60'
    · rw [if_pos hquote]
      refine .cons rfl ?_
      rw [Mode.after, if_pos hquote]
      exact .zero d cs
    · rw [if_neg hquote]
      refine .cons rfl ?_
      rw [Mode.after, if_neg hquote]
      exact ih

/-- Where no quote closes a rune, the scan is in code already. -/
theorem stop?_runeEnd (h : cs.head? ≠ some '\'') : stop? .runeEnd d cs = stop? .code d cs := by
  cases cs with
  | nil => rfl
  | cons c cs =>
    have hquote : c ≠ '\'' := fun hc => h (by rw [hc]; rfl)
    have hreads : Mode.readsCode .runeEnd c = true := bne_iff_ne.2 hquote
    have hafter : Mode.after .runeEnd c = Mode.after .code c := if_neg hquote
    have hscan : scan .runeEnd d (c :: cs) = scan .code d (c :: cs) := by
      rw [scan, scan, if_pos hreads, hafter]
      rfl
    rw [stop?, stop?, hscan]

theorem skips_runeEnd (d : Depths) (cs : List Char) :
    Skips .runeEnd d cs (if cs.head? = some '\'' then 1 else 0) := by
  split
  · next h =>
    obtain ⟨rest, rfl⟩ := List.head?_eq_some_iff.1 h
    exact .cons rfl (.zero d rest)
  · next h =>
    rw [Skips, stop?_runeEnd h]
    exact Skips.zero d cs

theorem skips_rune (d : Depths) (cs : List Char) :
    Skips .rune d cs (Braces.runeLength cs) := by
  fun_cases Braces.runeLength cs with
  | case1 c cs => exact .cons rfl (.cons rfl (.cons rfl (.zero d cs)))
  | case2 cs hquote =>
    refine .cons rfl ?_
    cases cs with
    | nil => exact .nil _ _ _
    | cons c cs =>
      have hend : cs.head? ≠ some '\'' := fun hc => by
        obtain ⟨rest, rfl⟩ := List.head?_eq_some_iff.1 hc
        exact hquote c rest rfl
      have h := skips_runeEnd d cs
      rw [if_neg hend] at h
      exact .cons rfl h
  | case3 c cs _ hslash =>
    have hafter : Mode.after .rune c = .runeEnd := if_neg hslash
    exact .cons rfl (hafter ▸ .cons rfl (.zero d cs))
  | case4 c cs _ hslash hquote =>
    have hafter : Mode.after .rune c = .runeEnd := if_neg hslash
    have hend : cs.head? ≠ some '\'' := fun hc => by
      obtain ⟨rest, rfl⟩ := List.head?_eq_some_iff.1 hc
      exact hquote rest rfl
    have h := skips_runeEnd d cs
    rw [if_neg hend] at h
    exact .cons rfl (hafter ▸ h)
  | case5 => exact .nil _ _ _

/-! ## Where the scans stop -/

/-- A character other than a brace leaves the depth of braces as it is. -/
theorem braces_after (hleft : c ≠ '{') (hright : c ≠ '}') : (d.after c).braces = d.braces := by
  unfold Depths.after
  split
  case h_1 => exact absurd rfl hleft
  case h_2 => exact absurd rfl hright
  all_goals rfl

/-- A literal in code is jumped over, its opening quote included. -/
theorem stop?_quote (c : Char) {depth n : Nat} (hafter : d.after c = d)
    (hopen : d.braces = depth + 1) (h : Skips (.ofCode c) d cs n) :
    stop? .code d (c :: cs) = (stop? .code d (cs.drop n)).map (· + (n + 1)) := by
  rw [stop?_code c (by rw [hafter, hopen]), hafter, h, Option.map_map]
  rfl

/-- **The two scans stop at the same brace**, and both of them run into the end
where there is none. -/
theorem closingFrom_eq_stop? {fuel depth : Nat} {d : Depths} {cs : List Char}
    (hd : d.braces = depth + 1) (hfuel : cs.length < fuel) :
    Braces.closingFrom fuel depth cs = stop? .code d cs := by
  induction fuel generalizing depth d cs with
  | zero => exact absurd hfuel (Nat.not_lt_zero _)
  | succ fuel ih =>
    cases cs with
    | nil => rfl
    | cons c cs =>
      have hlt : cs.length < fuel := Nat.lt_of_succ_lt_succ hfuel
      have hdrop : ∀ n, (cs.drop n).length < fuel := fun n => by
        rw [List.length_drop]
        omega
      unfold Braces.closingFrom
      split
      · have hafter : (d.after '{').braces = depth + 1 + 1 := by
          simp only [Depths.after, hd]
        rw [ih hafter hlt]
        exact (stop?_code _ hafter).symm
      · cases depth with
        | zero => exact (stop?_closing hd).symm
        | succ depth =>
          have hafter : (d.after '}').braces = depth + 1 := by
            simp only [Depths.after, hd, Nat.add_sub_cancel]
          simp only
          rw [ih hafter hlt]
          exact (stop?_code _ hafter).symm
      · rw [ih hd (hdrop _)]
        exact (stop?_quote '"' rfl hd (skips_string d cs)).symm
      · rw [ih hd (hdrop _)]
        exact (stop?_quote '\x60' rfl hd (skips_rawString d cs)).symm
      · rw [ih hd (hdrop _)]
        exact (stop?_quote '\'' rfl hd (skips_rune d cs)).symm
      · next hleft hright hstring hraw hrune =>
        have hafter : (d.after c).braces = depth + 1 := by
          rw [braces_after hleft hright, hd]
        have hcode : Mode.ofCode c = .code := by
          rw [Mode.ofCode, if_neg hstring, if_neg hraw, if_neg hrune]
        rw [ih hafter hlt, stop?_code c hafter, hcode]

theorem closing?_eq_stop? (cs : List Char) :
    Braces.closing? cs = stop? .code ⟨1, 0, 0⟩ cs :=
  closingFrom_eq_stop? rfl (Nat.lt_succ_self _)

end GoText

namespace Lexer

/-! ## The readers -/

/-- The expression at the front of a list is the text up to the closing brace. -/
theorem expressionLexeme_of_closing? {cs : List Char} {n : Nat}
    (h : Braces.closing? cs = some n) :
    expressionLexeme cs = .sound .goExpression (cs.take n) (n + 1) ∧ n < cs.length := by
  rw [GoText.closing?_eq_stop?, GoText.stop?] at h
  split at h
  · next hlt =>
    obtain rfl := Option.some.inj h
    exact ⟨if_pos hlt, hlt⟩
  · cases h

/-- Without a closing brace the expression is an error. -/
theorem kind_expressionLexeme {cs : List Char} (h : Braces.closing? cs = none) :
    (expressionLexeme cs).kind = .error := by
  rw [GoText.closing?_eq_stop?, GoText.stop?] at h
  split at h
  · cases h
  · next hlt =>
    have hfaulty : expressionLexeme cs
        = .faulty .unmatchedBrace cs ((GoText.extent cs).length + (GoText.extent cs).beyond) :=
      if_neg hlt
    rw [hfaulty]
    rfl

variable {l : Lexer}

theorem cursor_reportAll (fs : List LexicalFault) :
    (fs.foldl reportHere l).cursor = l.cursor := by
  induction fs generalizing l with
  | nil => rfl
  | cons f fs ih => exact ih

/-- The expression that is read is the one at the cursor. -/
theorem readExpression_spec (l : Lexer) :
    l.readExpression.1.kind = (expressionLexeme l.cursor.rest).kind
      ∧ l.readExpression.1.literal = String.ofList (expressionLexeme l.cursor.rest).literal
      ∧ l.readExpression.2.cursor
        = l.cursor.advance (expressionLexeme l.cursor.rest).steps := by
  have hcursor := cursor_reportAll (l := l.startToken) (bracketFaults l.startToken.cursor.rest)
  change _ = l.cursor at hcursor
  refine ⟨?_, ?_, ?_⟩ <;> simp only [Lexer.readExpression, emit, hcursor]

/-- Reading between braces that are closed. -/
theorem answer_braces_of_closing? {p n : Nat} {cs : List Char}
    (hp : l.source.drop p = '{' :: cs) (h : Braces.closing? cs = some n) :
    (l.answer (.braces p)).1 = .text (String.ofList (cs.take n))
      ∧ (l.answer (.braces p)).2.cursor = (Cursor.start l.source).advance (p + n + 2) := by
  rw [answer, readBraces_of_closing? hp h]
  exact ⟨rfl, rfl⟩

/-- Reading between braces that are not closed. -/
theorem answer_braces_of_not_closed {p : Nat} {cs : List Char}
    (hp : l.source.drop p = '{' :: cs) (h : Braces.closing? cs = none) :
    l.answer (.braces p) = (.failure .neverClosed, l) := by
  rw [answer, readBraces_of_not_closed hp h]

/-- Reading between braces where there is no brace. -/
theorem answer_braces_of_no_brace {start : Int}
    (h : start < 0 ∨ l.source[start.toNat]? ≠ some '{') :
    l.answer (.braces start) = (.failure .noBraceThere, l) := by
  have hread : l.readBraces start = .error .noBraceThere := by
    cases start with
    | negSucc n => rfl
    | ofNat n =>
      have hne : l.source[n]? ≠ some '{' :=
        h.resolve_left (Int.not_lt.2 (Int.natCast_nonneg n))
      refine readBraces_of_no_brace fun rest hdrop => hne ?_
      rw [← List.head?_drop, hdrop]
      rfl
  rw [answer, hread]

/-- **The two readers agree.** Take two lexers on one source, whatever calls
each has had, and a brace in the source. If the second lexer has come to the
place behind the brace, reading an expression there and reading between braces
from the offset of the brace give the same text and leave the cursor at the
same place; or the text is not closed, and then the first lexer fails and stays
as it is while the second reads an error. From an offset at which there is no
brace the first lexer fails, and stays as it is. -/
theorem braces_agree_with_expression (name source : String) (calls calls' : List Call) :
    let text := source.toList
    let l := (run calls (ofSource name source)).2
    let l' := (run calls' (ofSource name source)).2
    (∀ p : Nat, text[p]? = some '{' → l'.cursor.offset = p + 1 →
      let byOffset := l.answer (.braces p)
      let atCursor := l'.readExpression
      (∀ c, byOffset.1 = .text c ↔ atCursor.1.kind = .goExpression ∧ atCursor.1.literal = c)
        ∧ ((∃ c, byOffset.1 = .text c) → byOffset.2.cursor = atCursor.2.cursor)
        ∧ ((¬∃ c, byOffset.1 = .text c) →
          byOffset = (.failure .neverClosed, l) ∧ atCursor.1.kind = .error))
    ∧ ∀ start : Int, start < 0 ∨ text.length ≤ start ∨ text[start.toNat]? ≠ some '{' →
      l.answer (.braces start) = (.failure .noBraceThere, l) := by
  intro text l l'
  have hl : l.Placed text := ((placed_ofSource name source).run calls).2
  have hl' : l'.Placed text := ((placed_ofSource name source).run calls').2
  refine ⟨fun p hbrace hreached => ?_, fun start hstart => ?_⟩
  · have hlt : p < text.length := (List.getElem?_eq_some_iff.1 hbrace).1
    have hp : l.source.drop p = '{' :: text.drop (p + 1) := by
      rw [hl.source_eq, List.drop_eq_getElem_cons hlt, (List.getElem?_eq_some_iff.1 hbrace).2]
    obtain ⟨hkind, hliteral, hafter'⟩ := readExpression_spec l'
    rw [hl'.cursor.rest_eq, hreached] at hkind hliteral hafter'
    cases hclosing : Braces.closing? (text.drop (p + 1)) with
    | none =>
      rw [kind_expressionLexeme hclosing] at hkind
      have hfails := answer_braces_of_not_closed hp hclosing
      have hne : ∀ c, (l.answer (.braces p)).1 ≠ .text c := by
        rw [hfails]
        exact nofun
      refine ⟨fun c => ⟨fun h => absurd h (hne c), fun h => ?_⟩,
        fun h => absurd h.choose_spec (hne _), fun _ => ⟨hfails, hkind⟩⟩
      exact absurd (hkind.symm.trans h.1) nofun
    | some n =>
      obtain ⟨hlexeme, hn⟩ := expressionLexeme_of_closing? hclosing
      rw [hlexeme] at hkind hliteral hafter'
      obtain ⟨htext, hafter⟩ := answer_braces_of_closing? hp hclosing
      rw [List.length_drop] at hn
      have hcursor : (l.answer (.braces p)).2.cursor = l'.readExpression.2.cursor := by
        rw [hafter, hafter', hl.source_eq]
        refine Cursor.advance_eq_advance (.start text) hl'.cursor ?_ ?_ ?_ ?_ <;>
          simp only [Cursor.start, hreached, Lexeme.sound] <;> omega
      refine ⟨fun c => ?_, fun _ => hcursor, fun h => absurd ⟨_, htext⟩ h⟩
      rw [htext, hkind, hliteral]
      exact ⟨fun h => ⟨rfl, Answer.text.inj h⟩, fun h => congrArg Answer.text h.2⟩
  · refine answer_braces_of_no_brace ?_
    rw [hl.source_eq]
    refine hstart.imp_right fun h => h.elim (fun hle => ?_) id
    rw [List.getElem?_eq_none (by omega)]
    exact nofun

/-- A source with a closing brace inside a string between braces. -/
def quotedBrace : String := "x\x7b\"\x7d\"\x7dy"

/-- A brace in a string closes nothing, for either reader. -/
theorem braces_agree_past_string :
    let l := (run [] (ofSource "a.gsx" quotedBrace)).2
    let l' := (run [.next, .next] (ofSource "a.gsx" quotedBrace)).2
    quotedBrace.toList[1]? = some '{' ∧ l'.cursor.offset = 2
      ∧ (l.answer (.braces 1)).1 = .text "\"\x7d\""
      ∧ (l.answer (.braces 1)).2.cursor = l'.readExpression.2.cursor
      ∧ l.answer (.braces 0) = (.failure .noBraceThere, l) := by
  have h := braces_agree_with_expression "a.gsx" quotedBrace [] [.next, .next]
  have hbrace : quotedBrace.toList[1]? = some '{' := by decide
  have hreached : (run [.next, .next] (ofSource "a.gsx" quotedBrace)).2.cursor.offset = 2 := by
    decide
  have hread : (run [.next, .next] (ofSource "a.gsx" quotedBrace)).2.readExpression.1.kind
        = .goExpression
      ∧ (run [.next, .next] (ofSource "a.gsx" quotedBrace)).2.readExpression.1.literal
        = "\"\x7d\"" := by
    decide
  obtain ⟨htext, hcursor, -⟩ := h.1 1 hbrace hreached
  have hclosed := (htext _).2 hread
  exact ⟨hbrace, hreached, hclosed, hcursor ⟨_, hclosed⟩, h.2 0 (.inr (.inr (by decide)))⟩

end Lexer

end Gsx
