import Gsx.Proofs.Rendering.Leaves
import Gsx.Tree.Same
/-!
# Captured Go and free text

Headers, arguments, types, statements and text are taken from the source as they
stand: a scan finds their end, and what lies between is trimmed.
-/

namespace Gsx.Rendering

open Lexer Parse

variable {source cs rest w : List Char} {d : Char}

/-! ## Steps -/

theorem isLocal_argumentStep : IsLocal argumentStep := by
  intro a t t' hk _
  rw [argumentStep, argumentStep, hk]

theorem isLocal_typeStep : IsLocal typeStep := by
  intro a t t' hk _
  rw [typeStep, typeStep, hk]

theorem isLocal_statementStep : IsLocal statementStep := by
  intro a t t' hk _
  rw [statementStep, statementStep, hk]

theorem isLocal_textStep : IsLocal textStep := by
  intro a t t' hk hw
  rw [textStep, textStep, hk, hw]

/-! ## Captures -/

theorem front_rightParen (cs : List Char) : Front (')' :: cs) .rightParen [')'] cs :=
  ⟨rfl, 1, rfl, rfl⟩

theorem front_comma (cs : List Char) : Front (',' :: cs) .comma [','] cs :=
  ⟨rfl, 1, rfl, rfl⟩

theorem Front.quiet {k : TokenKind} {w cs' : List Char} (h : Front cs k w cs') : Quiet 1 cs :=
  ⟨k, w, cs', h, trivial⟩

theorem reads_skipWhile {f : TokenKind → Bool} {xs : List Lexeme} {k : TokenKind}
    {w cs' : List Char} (hspells : Spells cs xs) (hd : isDelimiter d)
    (hall : ∀ x ∈ xs, f x.kind) (hfront : Front (d :: rest) k w cs') (hk : f k = false) :
    Reads source (cs ++ d :: rest) (skipWhile fun t => f t.kind) (fun _ => True) (d :: rest) := by
  have hlocal : IsLocal fun () (t : Token) => if f t.kind then some () else none := by
    intro a t t' hk _
    simp only [hk]
  have hfold : xs.foldlM (fun a x => (fun () (t : Token) => if f t.kind then some () else none)
      a (token x)) () = some () := by
    clear hspells
    induction xs with
    | nil => rfl
    | cons x xs ih =>
      have hx : f (token x).kind := hall x List.mem_cons_self
      simp only [List.foldlM_cons, hx, if_true]
      exact ih fun y hy => hall y (List.mem_cons_of_mem _ hy)
  have hstop : StopsAt (fun () (t : Token) => if f t.kind then some () else none) () (d :: rest) :=
    ⟨k, w, cs', hfront, fun t ht => by simp only [ht, hk]; rfl⟩
  exact (reads_scan hlocal hspells hd hfold hstop).weaken fun _ _ => trivial

theorem exists_spells_header (h : isHeader cs) :
    ∃ xs, Spells cs xs ∧ ∀ x ∈ xs, (x.kind != .leftBrace && x.kind != .newline) = true := by
  rw [isHeader, Bool.and_eq_true, Option.any_eq_true] at h
  obtain ⟨-, xs, hxs, hall⟩ := h
  exact ⟨xs, spells_of_lexemes? hxs, List.all_eq_true.1 hall⟩

theorem front_blankBrace (cs : List Char) : Front (' ' :: '{' :: cs) .leftBrace ['{'] cs :=
  (front_leftBrace cs).gap rfl

theorem quiet_header (h : isHeader cs) : Quiet 1 (cs ++ ' ' :: '{' :: rest) := by
  obtain ⟨xs, hspells, -⟩ := exists_spells_header h
  exact quiet_spells hspells rfl (front_blankBrace rest).quiet

/-- **A header is read up to the brace behind it.** -/
theorem reads_goHeader (h : isHeader cs) :
    Reads source (cs ++ ' ' :: '{' :: rest) goHeader (· = String.ofList cs)
      (' ' :: '{' :: rest) := by
  obtain ⟨xs, hspells, hall⟩ := exists_spells_header h
  obtain ⟨k, w, cs', hf, -⟩ : Quiet 1 (cs ++ ' ' :: '{' :: rest) := quiet_header h
  rw [isHeader, Bool.and_eq_true] at h
  obtain ⟨mid, hmid, hmidtrim⟩ := exists_trimmed h.1 (' ' :: '{' :: rest)
  refine .current hf fun first hfirst =>
    .bind (reads_skipWhile (f := fun k => k != .leftBrace && k != .newline) hspells rfl
      hall (front_blankBrace rest) rfl) fun _ _ =>
    .current (front_blankBrace rest) fun last hlast => reads_trimmedText hfirst hlast hmid hmidtrim

/-- **Arguments are read up to the parenthesis behind them.** -/
theorem reads_goArguments (h : isArguments cs) :
    Reads source (cs ++ ')' :: rest) goArguments (· = String.ofList cs) (')' :: rest) := by
  rw [isArguments, Bool.and_eq_true, beq_iff_eq, scanned, Option.bind_eq_some_iff] at h
  obtain ⟨htrim, xs, hxs, hfold⟩ := h
  have hspells := spells_of_lexemes? hxs
  have hparen := front_rightParen rest
  have hstop : StopsAt argumentStep 1 (')' :: rest) :=
    ⟨_, _, _, hparen, fun t ht => by rw [argumentStep, ht]; rfl⟩
  obtain ⟨k, w, cs', hf, -⟩ := quiet_spells hspells rfl hparen.quiet
  obtain ⟨mid, hmid, hmidtrim⟩ := exists_trimmed htrim (')' :: rest)
  exact .current hf fun first hfirst =>
    .bind (reads_scan isLocal_argumentStep hspells rfl hfold hstop) fun _ _ =>
    .current hparen fun last hlast => reads_trimmedText hfirst hlast hmid hmidtrim

/-- **A type is read up to the comma or parenthesis behind it.** -/
theorem reads_goType (h : isType cs) (hd : d = ',' ∨ d = ')') :
    Reads source (cs ++ d :: rest) goType (· = String.ofList cs) (d :: rest) := by
  rw [isType, Bool.and_eq_true, Bool.and_eq_true, beq_iff_eq, scanned, Option.bind_eq_some_iff] at h
  obtain ⟨⟨htrim, -⟩, xs, hxs, hfold⟩ := h
  have hspells := spells_of_lexemes? hxs
  obtain ⟨k, hk, hend⟩ : ∃ k, Front (d :: rest) k [d] rest ∧ (k = .comma ∨ k = .rightParen) := by
    rcases hd with rfl | rfl
    · exact ⟨_, front_comma rest, .inl rfl⟩
    · exact ⟨_, front_rightParen rest, .inr rfl⟩
  have hdelimiter : isDelimiter d := by rcases hd with rfl | rfl <;> rfl
  have hstop : StopsAt typeStep 0 (d :: rest) :=
    ⟨_, _, _, hk, fun t ht => by rw [typeStep, ht]; rcases hend with rfl | rfl <;> rfl⟩
  obtain ⟨k₁, w, cs', hf, -⟩ := quiet_spells hspells hdelimiter hk.quiet
  obtain ⟨mid, hmid, hmidtrim⟩ := exists_trimmed htrim (d :: rest)
  refine .current hf fun first hfirst =>
    .bind (reads_scan isLocal_typeStep hspells hdelimiter hfold hstop) fun _ _ =>
    .current hk fun last hlast => ?_
  rw [if_neg (by rw [hlast.kind]; rcases hend with rfl | rfl <;> decide)]
  exact reads_trimmedText hfirst hlast hmid hmidtrim

/-- The first lexeme is the front of a text, whatever comes behind a delimiter. -/
theorem Spells.front {x : Lexeme} {xs : List Lexeme} {n : Nat} (h : Spells cs (x :: xs))
    (hd : isDelimiter d) (hq : Quiet n (d :: rest)) :
    ∃ cs', Front (cs ++ d :: rest) x.kind x.literal cs' ∧ Quiet n cs' := by
  -- the induction passes the gaps in front of the first lexeme
  generalize hy : x :: xs = ys at h
  induction h with
  | nil => cases hy
  | gap hc _ ih =>
    obtain ⟨cs', hf, hq'⟩ := ih hy
    exact ⟨cs', hf.gap hc, hq'⟩
  | lexeme hc hcomment hfault hrest _ =>
    cases hy
    exact ⟨_, front_lexeme hc hcomment hfault hd, quiet_spells hrest hd hq⟩

/-- What a statement is made of. -/
theorem exists_spells_statement (h : isStatement cs) :
    ∃ x xs a, x.kind.startsStatement ∧ Spells cs (x :: xs) ∧ a.depth = 0 ∧
      (x :: xs).foldlM (fun a x => statementStep a (token x)) ⟨0, x.kind == .forWord⟩
        = some a := by
  rw [isStatement, Bool.and_eq_true, Option.any_eq_true] at h
  obtain ⟨-, x, hx, h⟩ := h
  obtain ⟨ys, hys, hhead⟩ := Option.bind_eq_some_iff.1 hx
  obtain ⟨xs, rfl⟩ := List.head?_eq_some_iff.1 hhead
  rw [Bool.and_eq_true, Option.any_eq_true, scanned, hys] at h
  obtain ⟨hk, a, hfold, hdepth⟩ := h
  exact ⟨x, xs, a, hk, spells_of_lexemes? hys, beq_iff_eq.1 hdepth, hfold⟩

/-- **A statement is read up to the end of its line.** -/
theorem reads_goStatement (h : isStatement cs) :
    Reads source (cs ++ '\n' :: rest) goStatement
      (fun g => g.code = String.ofList cs ∧ g.leading = none) rest := by
  obtain ⟨x, xs, a, -, hspells, hdepth, hfold⟩ := exists_spells_statement h
  rw [isStatement, Bool.and_eq_true] at h
  have hline := front_newline rest
  obtain ⟨cs', hf, -⟩ := hspells.front (d := '\n') rfl hline.quiet
  have hstop : StopsAt statementStep a ('\n' :: rest) :=
    ⟨_, _, _, hline, fun t ht => by rw [statementStep, ht]; exact if_pos hdepth⟩
  obtain ⟨mid, hmid, hmidtrim⟩ := exists_trimmed h.1 ('\n' :: rest)
  refine .current hf fun first hfirst => ?_
  -- whether the statement is a loop shows in its first token
  rw [hfirst.kind]
  refine .bind (reads_scan isLocal_statementStep hspells rfl hfold hstop) fun _ _ =>
    .current hline fun last hlast => ?_
  rw [if_neg (by rw [hlast.kind]; decide)]
  refine .bind (reads_trimmedText hfirst hlast hmid hmidtrim) fun code hcode => ?_
  exact .advance hline (.pure ⟨hcode, rfl⟩)

/-! ## Free text -/

theorem isWord_kind_of_isTextWord (h : isTextWord w) : (lexemeAt w).kind.isWord := by
  rw [isTextWord, Bool.and_eq_true] at h
  exact h.1

theorem lexemeAt_of_isTextWord (h : isTextWord w) :
    lexemeAt w = .sound (lexemeAt w).kind w w.length := by
  rw [isTextWord, Bool.and_eq_true, beq_iff_eq] at h
  exact h.2

theorem isGap_of_isTextWord {c : Char} (h : isTextWord (c :: cs)) : isGap c = false := by
  have hk := isWord_kind_of_isTextWord h
  cases hc : isGap c with
  | false => rfl
  | true =>
    rw [isGap, Bool.or_eq_true, Bool.or_eq_true, beq_iff_eq, beq_iff_eq, beq_iff_eq] at hc
    rcases hc with (rfl | rfl) | rfl <;> exact absurd hk Bool.false_ne_true

theorem opensComment_of_isTextWord {c : Char} (h : isTextWord (c :: cs)) :
    opensComment (c :: cs) = false := by
  have hk := isWord_kind_of_isTextWord h
  refine opensComment_of_ne ?_
  rintro rfl
  simp only [lexemeAt, Lexeme.read] at hk
  split at hk <;> exact absurd hk Bool.false_ne_true

/-- A word of free text is one lexeme, whatever comes behind a blank. -/
theorem Spells.textWord {xs : List Lexeme} (h : isTextWord w) (hxs : Spells rest xs)
    (hrest : rest.head?.all isDelimiter) : Spells (w ++ rest) (lexemeAt w :: xs) := by
  have hread := lexemeAt_of_isTextWord h
  cases w with
  | nil => exact absurd h Bool.false_ne_true
  | cons c cs =>
    have hgap := isGap_of_isTextWord h
    have hcomment := opensComment_of_isTextWord h
    have hfault : (Lexeme.read c cs).fault = none := congrArg Lexeme.fault hread
    have hsteps : (Lexeme.read c cs).steps = (c :: cs).length := congrArg Lexeme.steps hread
    cases rest with
    | nil =>
      rw [List.append_nil]
      refine .lexeme hgap hcomment hfault ?_
      rwa [hsteps, List.drop_length]
    | cons d rest =>
      have happend := Lexeme.read_append hfault hrest rest
      have hspells : Spells (c :: (cs ++ d :: rest)) (Lexeme.read c (cs ++ d :: rest) :: xs) := by
        refine .lexeme hgap (opensComment_append hrest hcomment rest) (by rw [happend, hfault]) ?_
        rwa [happend, hsteps, ← List.cons_append, List.drop_left]
      rwa [happend] at hspells

/-- What stands before a word of free text that follows a token. -/
def blankAfter (k : TokenKind) : String :=
  if k.isWord || k.wantsSpace then " " else ""

theorem textStep_word (h : isTextWord w) (s : TextState) :
    textStep s (token (lexemeAt w))
      = some ⟨s.text ++ blankAfter s.last ++ String.ofList w, (lexemeAt w).kind⟩ := by
  have hk := isWord_kind_of_isTextWord h
  have hliteral : (lexemeAt w).literal = w := congrArg Lexeme.literal (lexemeAt_of_isTextWord h)
  have htext : (lexemeAt w).kind.isText := by
    unfold TokenKind.isText
    rw [hk, Bool.true_or]
  rw [textStep, token, if_pos htext]
  simp only [hk, hliteral, Bool.true_and, blankAfter]

theorem spells_words (ws : List (List Char)) (h : ∀ w ∈ ws, isTextWord w) :
    Spells ([' '].intercalate ws) (ws.map lexemeAt) := by
  induction ws with
  | nil => exact .nil
  | cons w ws ih =>
    have hw := h w List.mem_cons_self
    have hws := ih fun v hv => h v (List.mem_cons_of_mem _ hv)
    cases ws with
    | nil =>
      rw [List.intercalate_singleton, ← List.append_nil w]
      simpa using Spells.textWord hw .nil rfl
    | cons v ws =>
      rw [List.intercalate_cons_cons, List.append_assoc]
      exact .textWord hw (hws.gap (c := ' ') rfl) rfl

/-- **Words with single blanks between them are put together again** the way they
stand. -/
theorem exists_foldlM_words (w : List Char) (ws : List (List Char))
    (h : ∀ v ∈ w :: ws, isTextWord v) (s : TextState) :
    ∃ k, ((w :: ws).map lexemeAt).foldlM (fun s x => textStep s (token x)) s
      = some ⟨s.text ++ blankAfter s.last ++ String.ofList ([' '].intercalate (w :: ws)), k⟩ := by
  induction ws generalizing w s with
  | nil =>
    refine ⟨(lexemeAt w).kind, ?_⟩
    rw [List.map_singleton, List.foldlM_cons, textStep_word (h w List.mem_cons_self),
      List.intercalate_singleton]
    rfl
  | cons v ws ih =>
    have hw := h w List.mem_cons_self
    obtain ⟨k, hk⟩ := ih v (fun u hu => h u (List.mem_cons_of_mem _ hu))
      ⟨s.text ++ blankAfter s.last ++ String.ofList w, (lexemeAt w).kind⟩
    -- a word has just been read, so the next one comes after a blank
    have hblank : blankAfter (lexemeAt w).kind = " " := by
      rw [blankAfter, isWord_kind_of_isTextWord hw, Bool.true_or, if_pos rfl]
    refine ⟨k, ?_⟩
    rw [List.map_cons, List.foldlM_cons, textStep_word hw, List.intercalate_cons_cons,
      String.ofList_append, String.ofList_append, ← String.append_assoc, ← String.append_assoc]
    rwa [hblank] at hk

/-- What free text is made of. -/
theorem exists_spells_text (h : isText cs) :
    ∃ x xs k, x.kind.isWord ∧ Spells cs (x :: xs) ∧
      (x :: xs).foldlM (fun s x => textStep s (token x)) ⟨"", .newline⟩
        = some ⟨String.ofList cs, k⟩ := by
  have hwords : ∀ w ∈ cs.splitOn ' ', isTextWord w := List.all_eq_true.1 h
  have hspells := spells_words _ hwords
  obtain ⟨w, ws, hsplit⟩ := List.exists_cons_of_ne_nil (List.splitOn_ne_nil ' ' cs)
  have hcs : [' '].intercalate (cs.splitOn ' ') = cs := List.intercalate_splitOn ' '
  rw [hsplit] at hwords hspells hcs
  obtain ⟨k, hk⟩ := exists_foldlM_words w ws hwords ⟨"", .newline⟩
  rw [hcs] at hspells hk
  refine ⟨_, _, k, isWord_kind_of_isTextWord (hwords w List.mem_cons_self), hspells, hk.trans ?_⟩
  simp [blankAfter, TokenKind.isWord, TokenKind.wantsSpace]

/-- **Free text is read up to the end of its line.** -/
theorem reads_text (h : isText cs) :
    Reads source (cs ++ '\n' :: rest) text (·.text = String.ofList cs) ('\n' :: rest) := by
  obtain ⟨x, xs, k, -, hspells, hfold⟩ := exists_spells_text h
  have hstop : StopsAt textStep ⟨String.ofList cs, k⟩ ('\n' :: rest) :=
    ⟨_, _, _, front_newline rest, fun t ht => by rw [textStep, ht]; rfl⟩
  refine .position fun place =>
    .bind (reads_scan isLocal_textStep hspells rfl hfold hstop) fun s hs => .pure ?_
  rw [hs]

/-! ## Expressions -/

theorem trim_of_isTrimmed {v : String} (h : isTrimmed v.toList) : Text.trim v = v := by
  rw [isTrimmed, beq_iff_eq] at h
  rw [Text.trim, h, String.ofList_toList]

theorem reads_goExpr {code : String} (h : isCode code.toList) :
    Reads source (braced code ++ rest) goExpr (fun e => ∃ place, e = some ⟨code, place, none⟩)
      rest := by
  have htrim : isTrimmed code.toList := by
    rw [isCode, Bool.and_eq_true, Bool.and_eq_true, Bool.and_eq_true] at h
    exact h.1.1.1
  refine .position fun place => ?_
  rw [braced, List.append_assoc]
  refine (reads_bracedText h).bind ?_
  rintro _ rfl
  refine .pure ⟨place, ?_⟩
  rw [String.ofList_toList, trim_of_isTrimmed htrim]

/-- **An expression is read with its braces.** -/
theorem reads_expressionNode {e : GoExpr} (h : isExpression e) (hslot : e.code ≠ "children...") :
    Reads source (braced e.code ++ rest) expressionNode (Gives (Node.same (.expression e)))
      rest := by
  rw [isExpression, Bool.and_eq_true, Option.isNone_iff_eq_none] at h
  refine (reads_goExpr h.1).bind ?_
  rintro _ ⟨place, rfl⟩
  simp only [if_neg hslot]
  exact .pure ⟨_, rfl, by simp [Node.same, GoExpr.same, sameOption, h.2]⟩

theorem isCode_slot : isCode "children...".toList := by
  decide

/-- **The children slot is read with its braces.** -/
theorem reads_slot {s : ChildrenSlot} (h : s.leading = none) :
    Reads source (braced "children..." ++ rest) expressionNode (Gives (Node.same (.slot s)))
      rest := by
  refine (reads_goExpr isCode_slot).bind ?_
  rintro _ ⟨place, rfl⟩
  simp only [if_true]
  exact .pure ⟨_, rfl, by simp [Node.same, sameComments, sameOption, h]⟩

end Gsx.Rendering
