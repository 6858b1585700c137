import Gsx.Proofs.Blanking.Heads
import Gsx.Proofs.Grammar.Spelling
import Gsx.Proofs.Lexer.Items
/-!
# Comments between braces

An expression in braces may have comments between its items. The scan for the
closing brace knows nothing of comments: it takes them for more items, so a
brace or a quote in a comment counts as if it were code. A comment is passed
over exactly where the whole text, with the comments in it, is made of items;
then the expression is the whole text, and reading goes on as if each comment
were blank.
-/

namespace Gsx

namespace Braces

/-! ## Items in a row -/

/-- Items behind items are items, unless they take the place of the quote that a
rune at the end of the first ones does without. -/
theorem IsItems.append {a b : List Char} (ha : IsItems a) (hb : IsItems b)
    (h : b.head? ≠ some '\'' ∨ ∀ r, IsRuneText r → ¬ '\'' :: r <:+ a) : IsItems (a ++ b) := by
  induction ha with
  | nil => exact hb
  | @atom i cs hi _ ih =>
    rw [List.append_assoc]
    exact .atom hi (ih (h.imp_right fun hnot r hr hsuffix =>
      hnot r hr (hsuffix.trans (List.suffix_append i cs))))
  | @openRune r cs hr hcs _ ih =>
    rw [List.cons_append, List.append_assoc]
    refine .openRune hr ?_ (ih (h.imp_right fun hnot r' hr' hsuffix =>
      hnot r' hr' (hsuffix.trans (List.suffix_append ('\'' :: r) cs))))
    rcases h with h | h
    · exact head?_append_ne hcs h
    · cases cs with
      | nil => exact absurd ⟨[], by simp⟩ (h r hr)
      | cons c cs => exact hcs
  | @braces inner cs hinner _ _ ih =>
    rw [List.cons_append, List.append_assoc, List.cons_append]
    refine .braces hinner (ih (h.imp_right fun hnot r hr hsuffix => hnot r hr ?_))
    exact hsuffix.trans ((List.suffix_cons _ _).trans (List.suffix_append ('{' :: inner) _))

theorem IsItems.plains {cs rest : List Char} (h : ∀ c ∈ cs, IsPlain c) (hrest : IsItems rest) :
    IsItems (cs ++ rest) := by
  induction cs with
  | nil => exact hrest
  | cons c cs ih =>
    obtain ⟨hc, hcs⟩ := List.forall_mem_cons.1 h
    exact .atom (i := [c]) (.plain hc) (ih hcs)

instance : DecidablePred IsPlain :=
  fun _ => inferInstanceAs (Decidable (_ ∧ _))

/-! ## Comments between items -/

/-- A line comment, up to the line end. -/
def IsLineComment (k : List Char) : Prop :=
  ∃ body, k = '/' :: '/' :: body ∧ '\n' ∉ body

/-- A block comment with its end marker, the first one there is. -/
def IsBlockComment (k : List Char) : Prop :=
  ∃ body, k = '/' :: '*' :: body ∧ Lexer.blockLength? body = some body.length

/-- A comment made blank. Its line ends stay. -/
def blanks (k : List Char) : List Char :=
  k.map fun c => if c = '\n' then c else ' '

/-- **Items with comments between them**, at any depth: the comments, the text
with them and the text with blanks in their places. -/
inductive Commented : List (List Char) → List Char → List Char → Prop
  | nil : Commented [] [] []
  | atom {ks : List (List Char)} {i text blank : List Char} :
      IsAtom i → Commented ks text blank → Commented ks (i ++ text) (i ++ blank)
  | openRune {ks : List (List Char)} {r text blank : List Char} :
      IsRuneText r → blank.head? ≠ some '\'' → Commented ks text blank →
      Commented ks ('\'' :: (r ++ text)) ('\'' :: (r ++ blank))
  | braces {ks ks' : List (List Char)} {inner innerBlank text blank : List Char} :
      Commented ks inner innerBlank → Commented ks' text blank →
      Commented (ks ++ ks') ('{' :: (inner ++ '}' :: text)) ('{' :: (innerBlank ++ '}' :: blank))
  /-- A line comment goes up to the end of its line. -/
  | line {ks : List (List Char)} {k text blank : List Char} :
      IsLineComment k → text.head? = some '\n' → Commented ks text blank →
      Commented (k :: ks) (k ++ text) (blanks k ++ blank)
  | block {ks : List (List Char)} {k text blank : List Char} :
      IsBlockComment k → Commented ks text blank →
      Commented (k :: ks) (k ++ text) (blanks k ++ blank)

theorem isPlain_of_mem_blanks {k : List Char} {c : Char} (h : c ∈ blanks k) : IsPlain c := by
  obtain ⟨d, -, rfl⟩ := List.mem_map.1 h
  unfold IsPlain
  split
  · next hd =>
    rw [hd]
    decide
  · decide

theorem IsAtom.head?_eq {i : List Char} (h : IsAtom i) (cs cs' : List Char) :
    (i ++ cs).head? = (i ++ cs').head? := by
  cases h <;> rfl

/-- A block comment ends with its end marker. -/
theorem exists_of_blockLength? {cs : List Char} {n : Nat} (h : Lexer.blockLength? cs = some n) :
    ∃ front, cs.take n = front ++ ['*', '/'] := by
  fun_induction Lexer.blockLength? cs generalizing n with
  | case1 => cases h
  | case2 rest =>
    cases h
    exact ⟨[], rfl⟩
  | case3 c rest _ ih =>
    obtain ⟨m, hm, rfl⟩ := Option.map_eq_some_iff.1 h
    obtain ⟨front, hfront⟩ := ih hm
    exact ⟨c :: front, congrArg (c :: ·) hfront⟩

/-- The end marker of a comment is no end of a rune. -/
theorem IsBlockComment.not_rune {k r : List Char} (h : IsBlockComment k) (hr : IsRuneText r) :
    ¬ '\'' :: r <:+ k := by
  obtain ⟨body, rfl, hlength⟩ := h
  obtain ⟨front, hfront⟩ := exists_of_blockLength? hlength
  rw [List.take_length] at hfront
  rw [hfront, ← List.reverse_prefix]
  cases hr <;> simp

namespace Commented

variable {ks : List (List Char)} {text blank : List Char}

/-- A comment starts with a character that is no quote. -/
theorem head?_ne (h : Commented ks text blank) (hne : blank.head? ≠ some '\'') :
    text.head? ≠ some '\'' := by
  cases h with
  | nil => exact hne
  | atom hi _ => rwa [hi.head?_eq _ _]
  | openRune => exact absurd rfl hne
  | braces => exact nofun
  | line hk =>
    obtain ⟨body, rfl, -⟩ := hk
    simp
  | block hk =>
    obtain ⟨body, rfl, -⟩ := hk
    simp

/-- With its comments blank the text is one of items. -/
theorem isItems_blank (h : Commented ks text blank) : IsItems blank := by
  induction h with
  | nil => exact .nil
  | atom hi _ ih => exact .atom hi ih
  | openRune hr hne _ ih => exact .openRune hr hne ih
  | braces _ _ ih ih' => exact .braces ih ih'
  | line _ _ _ ih | block _ _ ih => exact .plains (fun _ => isPlain_of_mem_blanks) ih

/-- **Comments that are items themselves** leave the whole a text of items. -/
theorem isItems (h : Commented ks text blank) (hks : ∀ k ∈ ks, IsItems k) : IsItems text := by
  induction h with
  | nil => exact .nil
  | atom hi _ ih => exact .atom hi (ih hks)
  | openRune hr hne hrest ih => exact .openRune hr (hrest.head?_ne hne) (ih hks)
  | braces _ _ ih ih' =>
    obtain ⟨hinner, houter⟩ := List.forall_mem_append.1 hks
    exact .braces (ih hinner) (ih' houter)
  | line _ hline _ ih =>
    obtain ⟨hk, hrest⟩ := List.forall_mem_cons.1 hks
    exact hk.append (ih hrest) (.inl (by rw [hline]; decide))
  | block hblock _ ih =>
    obtain ⟨hk, hrest⟩ := List.forall_mem_cons.1 hks
    exact hk.append (ih hrest) (.inr fun r hr => hblock.not_rune hr)

/-- Line ends are where they were. -/
theorem map_newline (h : Commented ks text blank) :
    blank.map (· == '\n') = text.map (· == '\n') := by
  have hblanks : ∀ k, (blanks k).map (· == '\n') = k.map (· == '\n') := fun k => by
    rw [blanks, List.map_map]
    refine List.map_congr_left fun c _ => ?_
    rw [Function.comp_apply]
    split
    · rfl
    · next hc => simp [hc]
  induction h with
  | nil => rfl
  | atom _ _ ih => rw [List.map_append, List.map_append, ih]
  | openRune _ _ _ ih => rw [List.map_cons, List.map_cons, List.map_append, List.map_append, ih]
  | braces _ _ ih ih' =>
    simp only [List.map_cons, List.map_append, ih, ih']
  | line _ _ _ ih | block _ _ ih => rw [List.map_append, List.map_append, hblanks, ih]

end Commented

end Braces

/-! ## Cursors behind two texts -/

namespace Cursor

/-- Over a text, the cursor moves to what follows it. -/
theorem advance_append (cs rest : List Char) (o : Nat) (p : Position) :
    advance cs.length ⟨cs ++ rest, o, p⟩ = ⟨rest, o + cs.length, cs.foldl after p⟩ := by
  induction cs generalizing o p with
  | nil => rfl
  | cons c cs ih =>
    rw [List.length_cons, advance]
    refine (ih (o + 1) (after p c)).trans ?_
    rw [List.foldl_cons, Nat.add_assoc, Nat.add_comm 1]

/-- Of a text only the line ends count for where the cursor comes to. -/
theorem foldl_after_congr {cs cs' : List Char} (h : cs'.map (· == '\n') = cs.map (· == '\n'))
    (p : Position) : cs'.foldl after p = cs.foldl after p := by
  induction cs generalizing cs' p with
  | nil =>
    rw [List.map_eq_nil_iff.1 h]
  | cons c cs ih =>
    obtain ⟨c', cs', rfl, hc, hcs⟩ := List.map_eq_cons_iff.1 h
    have hafter : after p c' = after p c := by
      have hiff : c' = '\n' ↔ c = '\n' := by simpa using hc
      rw [after, after]
      simp only [hiff]
    rw [List.foldl_cons, List.foldl_cons, hafter, ih hcs]

end Cursor

/-! ## Streams in front of braces -/

/-- A text between braces, in its place. -/
def inBraces (before text rest : List Char) : List Char :=
  before ++ '{' :: (text ++ '}' :: rest)

open Lexer TokenStream Parse

variable {before text rest : List Char} {s : TokenStream} {l : Lexer}

theorem drop_inBraces (before text rest : List Char) :
    (inBraces before text rest).drop before.length = '{' :: (text ++ '}' :: rest) :=
  List.drop_left

theorem cursor_inBraces (before text rest : List Char) :
    (Cursor.start (inBraces before text rest)).advance (before.length + text.length + 2)
      = ⟨rest, before.length + text.length + 2,
        (before ++ '{' :: (text ++ ['}'])).foldl Cursor.after ⟨1, 1⟩⟩ := by
  have hsplit : inBraces before text rest = (before ++ '{' :: (text ++ ['}'])) ++ rest := by
    simp [inBraces]
  have hlength : before.length + text.length + 2 = (before ++ '{' :: (text ++ ['}'])).length := by
    simp only [List.length_append, List.length_cons, List.length_nil]
    omega
  rw [hsplit, hlength, Cursor.start, Cursor.advance_append, Nat.zero_add]

namespace Parse

/-- A brace that has items behind it is read up to the brace that closes it. -/
theorem exists_behindBraces (hs : s.Follows l) (hsource : l.source = inBraces before text rest)
    (hstart : s.current.start = before.length) (htext : Braces.IsItems text) :
    ∃ t m, behindBraces s = .ok (String.ofList text, t) ∧ t.Follows m
      ∧ m.cursor = ⟨rest, before.length + text.length + 2,
        (before ++ '{' :: (text ++ ['}'])).foldl Cursor.after ⟨1, 1⟩⟩ := by
  have hdrop : s.lexer.source.drop s.current.start = '{' :: (text ++ '}' :: rest) := by
    rw [hs.source, hsource, hstart, drop_inBraces]
  have hread := readBraces_of_closing? hdrop (htext.closing? rest)
  obtain ⟨-, hin, -⟩ := readBraces_spec hread
  rw [List.take_left] at hread
  refine ⟨_, _, by rw [behindBraces, hread], .of_next hin rfl rfl rfl, ?_⟩
  change Cursor.advance _ (Cursor.start s.lexer.source) = _
  rw [hs.source, hsource, hstart, cursor_inBraces]

/-- Blank ends have no other characters. -/
theorem count_trimList {c : Char} (hc : Text.isBlank c = false) (cs : List Char) :
    (Text.trimList cs).count c = cs.count c := by
  have hnone : ∀ {ds : List Char}, (∀ d ∈ ds, Text.isBlank d) → ds.count c = 0 := fun hds =>
    List.count_eq_zero.2 fun hmem => absurd (hds c hmem) (by rw [hc]; exact nofun)
  obtain ⟨behind, hcs, hbehind⟩ := Text.exists_trimList cs
  conv_rhs => rw [hcs]
  rw [List.count_append, List.count_append, hnone fun _ => List.mem_takeWhile_imp,
    hnone hbehind, Nat.zero_add, Nat.add_zero]

/-- What is in front of one of two characters has as many of them as what is in
front of the other, if these are the same. -/
theorem eq_of_append_cons {c : Char} {a b as bs : List Char} (hcount : a.count c = b.count c)
    (h : a ++ c :: as = b ++ c :: bs) : a = b := by
  have hle : ∀ {a b as bs : List Char}, a.count c = b.count c → a ++ c :: as = b ++ c :: bs →
      a.length ≤ b.length := by
    intro a b as bs hcount h
    refine Nat.le_of_not_lt fun hlt => ?_
    have hfront : b ++ [c] <+: b ++ c :: bs := ⟨bs, by simp⟩
    have hprefix : b ++ [c] <+: a := by
      refine List.prefix_of_prefix_length_le hfront ⟨c :: as, h⟩ ?_
      rw [List.length_append]
      exact hlt
    have := hprefix.sublist.count_le c
    rw [List.count_append, List.count_singleton_self] at this
    omega
  exact (List.append_inj h (Nat.le_antisymm (hle hcount h) (hle hcount.symm h.symm))).1

/-- The text between braces is made of items, if it is what is read of it. -/
theorem isItems_of_behindBraces {code : String} {t : TokenStream} (hs : s.Follows l)
    (hsource : l.source = inBraces before text rest) (hstart : s.current.start = before.length)
    (hread : behindBraces s = .ok (code, t))
    (hcode : Text.trim code = Text.trim (String.ofList text)) : Braces.IsItems text := by
  obtain ⟨m, hbraces, rfl⟩ := behindBraces_eq hread
  obtain ⟨cs, n, hcs, hclosing, hr, -⟩ := exists_of_readBraces hbraces
  rw [hs.source, hsource, hstart, drop_inBraces] at hcs
  obtain ⟨c, rest', rfl, hc, rfl⟩ := Braces.closing?_eq_some_iff.1 hclosing
  rw [List.take_left] at hr
  have htrim : Text.trimList c = Text.trimList text := by
    have := congrArg String.toList hcode
    simpa [Text.trim, hr] using this
  have hcount : text.count '}' = c.count '}' := by
    rw [← count_trimList (by decide), ← htrim, count_trimList (by decide)]
  exact eq_of_append_cons hcount (List.cons.inj hcs).2 ▸ hc

/-! ## Readers in front of braces -/

theorem kind_inBraces (hs : s.Follows l) (hsource : l.source = inBraces before text rest)
    (hstart : s.current.start = before.length) : s.current.kind = .leftBrace := by
  obtain ⟨hkind, -⟩ := lexemeAt_token hs.isIn 0
  rw [← hs.current, hstart, hsource, drop_inBraces] at hkind
  exact hkind.symm

theorem run_attributeValue_leftBrace (h : s.current.kind = .leftBrace) :
    attributeValue.run s = ((goExpr.run s).1.map fun e => (.expression e, s.current.position),
      (goExpr.run s).2) := by
  rw [attributeValue]
  simp only [current, bind_assoc, pure_bind, StateT.run_bind, StateT.run_get, h]
  generalize goExpr.run s = r
  obtain ⟨_ | e, t⟩ := r <;> rfl

theorem run_expressionNode (s : TokenStream) :
    expressionNode.run s = ((goExpr.run s).1.map fun e =>
      if e.code = "children..." then .slot ⟨e.position, none⟩ else .expression e,
        (goExpr.run s).2) := by
  rw [expressionNode, StateT.run_bind]
  generalize goExpr.run s = r
  obtain ⟨_ | e, t⟩ := r
  · rfl
  · change (ite (e.code = "children...") _ _ : Parse _).run t = _
    rw [Option.map_some]
    split <;> rfl

theorem run_contentNode_leftBrace (h : s.current.kind = .leftBrace) (depth : Nat) :
    (contentNode (depth + 2)).run s = expressionNode.run s := by
  rw [contentNode]
  simp only [kind, bind_assoc, pure_bind, StateT.run_bind, StateT.run_get, h, markup]

theorem run_bodyNode_leftBrace (h : s.current.kind = .leftBrace) (depth : Nat) :
    (bodyNode (depth + 2)).run s = expressionNode.run s := by
  rw [bodyNode]
  simp only [kind, bind_assoc, pure_bind, StateT.run_bind, StateT.run_get, h, markup]

/-- **An expression is the whole text between its braces** exactly where that
text is made of items. -/
theorem goExpr_eq_some_iff (hs : s.Follows l) (hsource : l.source = inBraces before text rest)
    (hstart : s.current.start = before.length) :
    (goExpr.run s).1 = some ⟨Text.trim (String.ofList text), s.current.position, none⟩
      ↔ Braces.IsItems text := by
  refine ⟨fun h => ?_, fun htext => ?_⟩
  · cases hread : behindBraces s with
    | error f =>
      rw [Parallel.run_goExpr_error hread] at h
      cases h
    | ok r =>
      obtain ⟨code, t⟩ := r
      rw [Parallel.run_goExpr_ok hread] at h
      exact isItems_of_behindBraces hs hsource hstart hread (congrArg GoExpr.code (Option.some.inj h))
  · obtain ⟨t, m, hread, -⟩ := exists_behindBraces hs hsource hstart htext
    rw [Parallel.run_goExpr_ok hread]

/-- Two streams have the same tokens before them. -/
def SameTokens (t t' : TokenStream) : Prop :=
  ∀ n, (t'.advancedBy n).current = (t.advancedBy n).current

theorem sameTokens_of_follows {t t' : TokenStream} {m m' : Lexer} (h : t.Follows m)
    (h' : t'.Follows m') (hcursor : m'.cursor = m.cursor) : SameTokens t t' := fun n => by
  rw [(h.advancedBy n).current, (h'.advancedBy n).current, token_after, token_after,
    token_congr hcursor]

/-- Behind two texts that differ in no line end, reading goes on alike. -/
theorem sameTokens_goExpr {blank : List Char} {s' : TokenStream} {l' : Lexer}
    (hs : s.Follows l) (hs' : s'.Follows l')
    (hsource : l.source = inBraces before text rest)
    (hsource' : l'.source = inBraces before blank rest)
    (hstart : s.current.start = before.length) (hstart' : s'.current.start = before.length)
    (htext : Braces.IsItems text) (hblank : Braces.IsItems blank)
    (hlines : blank.map (· == '\n') = text.map (· == '\n')) :
    SameTokens (goExpr.run s).2 (goExpr.run s').2 := by
  obtain ⟨t, m, hread, ht, hm⟩ := exists_behindBraces hs hsource hstart htext
  obtain ⟨t', m', hread', ht', hm'⟩ := exists_behindBraces hs' hsource' hstart' hblank
  have hlength : blank.length = text.length := by
    simpa only [List.length_map] using congrArg List.length hlines
  have hfront : (before ++ '{' :: (blank ++ ['}'])).map (· == '\n')
      = (before ++ '{' :: (text ++ ['}'])).map (· == '\n') := by
    simp only [List.map_append, List.map_cons, hlines]
  have hfold := Cursor.foldl_after_congr hfront ⟨1, 1⟩
  rw [Parallel.run_goExpr_ok hread, Parallel.run_goExpr_ok hread']
  exact sameTokens_of_follows ht ht' (by rw [hm, hm', hlength, hfold])

end Parse

/-! ## Comments between braces -/

theorem Braces.Commented.slash_mem {ks : List (List Char)} {text blank : List Char}
    (h : Commented ks text blank) (hks : ks ≠ []) : '/' ∈ text := by
  induction h with
  | nil => exact absurd rfl hks
  | atom _ _ ih => exact List.mem_append_right _ (ih hks)
  | openRune _ _ _ ih => exact .tail _ (List.mem_append_right _ (ih hks))
  | @braces ks ks' _ _ _ _ _ _ ih ih' =>
    by_cases hinner : ks = []
    · subst hinner
      exact .tail _ (List.mem_append_right _ (.tail _ (ih' hks)))
    · exact .tail _ (List.mem_append_left _ (ih hinner))
  | line hk =>
    obtain ⟨body, rfl, -⟩ := hk
    exact List.mem_append_left _ List.mem_cons_self
  | block hk =>
    obtain ⟨body, rfl, -⟩ := hk
    exact List.mem_append_left _ List.mem_cons_self

namespace Parse

/-- **Comments between braces are read as items.** Take a text of items with
comments between them, in braces, and two streams in front of the opening brace,
one in a source with the comments and one in a source where they are blank. As an
attribute value, in the content of an element and in a body, the reader gives the
whole text as one expression exactly where the text is made of items with the
comments counted in, and then the tokens behind the braces are those that follow
the blank ones. For this it is enough that each comment is made of items. -/
theorem comments_read_as_items {ks : List (List Char)} {blank : List Char} {s' : TokenStream}
    {l' : Lexer} (hcommented : Braces.Commented ks text blank) (hks : ks ≠ [])
    (hs : s.Follows l) (hs' : s'.Follows l') (hsource : l.source = inBraces before text rest)
    (hsource' : l'.source = inBraces before blank rest)
    (hstart : s.current.start = before.length) (hstart' : s'.current.start = before.length)
    (depth : Nat) :
    let e : GoExpr := ⟨Text.trim (String.ofList text), s.current.position, none⟩
    ((∀ k ∈ ks, Braces.IsItems k) → Braces.IsItems text)
      ∧ ((attributeValue.run s).1 = some (.expression e, s.current.position)
        ↔ Braces.IsItems text)
      ∧ (((contentNode (depth + 2)).run s).1 = some (.expression e) ↔ Braces.IsItems text)
      ∧ (((bodyNode (depth + 2)).run s).1 = some (.expression e) ↔ Braces.IsItems text)
      ∧ (Braces.IsItems text →
        SameTokens (attributeValue.run s).2 (attributeValue.run s').2
          ∧ SameTokens ((contentNode (depth + 2)).run s).2 ((contentNode (depth + 2)).run s').2
          ∧ SameTokens ((bodyNode (depth + 2)).run s).2 ((bodyNode (depth + 2)).run s').2) := by
  intro e
  have hkind := kind_inBraces hs hsource hstart
  have hkind' := kind_inBraces hs' hsource' hstart'
  have hexpr : (goExpr.run s).1 = some e ↔ Braces.IsItems text :=
    goExpr_eq_some_iff hs hsource hstart
  -- a comment is in the text, so that it is not the children slot
  have hslot : e.code ≠ "children..." := fun hslot => by
    have hcode : e.code.toList = Text.trimList text := by
      rw [show e.code = Text.trim (String.ofList text) from rfl, Text.trim, String.toList_ofList,
        String.toList_ofList]
    have hcount : text.count '/' = 0 := by
      rw [← count_trimList (by decide), ← hcode, hslot]
      decide
    exact List.count_eq_zero.1 hcount (hcommented.slash_mem hks)
  have hnode : (expressionNode.run s).1 = some (.expression e) ↔ (goExpr.run s).1 = some e := by
    rw [run_expressionNode]
    refine ⟨fun h => ?_, fun h => by rw [h, Option.map_some, if_neg hslot]⟩
    obtain ⟨e', he', hnode⟩ := Option.map_eq_some_iff.1 h
    split at hnode
    · cases hnode
    · rw [he', Node.expression.inj hnode]
  refine ⟨hcommented.isItems, ?_, ?_, ?_, fun htext => ?_⟩
  · rw [run_attributeValue_leftBrace hkind, ← hexpr]
    simp
  · rw [run_contentNode_leftBrace hkind, hnode, hexpr]
  · rw [run_bodyNode_leftBrace hkind, hnode, hexpr]
  · rw [run_attributeValue_leftBrace hkind, run_attributeValue_leftBrace hkind',
      run_contentNode_leftBrace hkind, run_contentNode_leftBrace hkind',
      run_bodyNode_leftBrace hkind, run_bodyNode_leftBrace hkind', run_expressionNode,
      run_expressionNode]
    have hsame := sameTokens_goExpr hs hs' hsource hsource' hstart hstart' htext
      hcommented.isItems_blank hcommented.map_newline
    exact ⟨hsame, hsame, hsame⟩

/-- An expression with a comment that has a brace in it. -/
def braceInComment : List Char :=
  [' ', 'x', ' ', '/', '*', ' ', '}', ' ', '*', '/', ' ']

/-- Its comment made blank. -/
def braceBlank : List Char :=
  [' ', 'x', ' ', ' ', ' ', ' ', ' ', ' ', ' ', ' ', ' ']

/-- The expression ends with the brace in its comment. -/
theorem comments_read_as_items_brace :
    let s := TokenStream.ofSource "a.gsx" (String.ofList (inBraces [] braceInComment []))
    Braces.Commented [['/', '*', ' ', '}', ' ', '*', '/']] braceInComment braceBlank
      ∧ (attributeValue.run s).1 = some (.expression ⟨"x /*", ⟨1, 1⟩, none⟩, ⟨1, 1⟩)
      ∧ (attributeValue.run s).1
        ≠ some (.expression ⟨Text.trim (String.ofList braceInComment), s.current.position, none⟩,
          s.current.position) := by
  have hplain : ∀ {c ks text blank}, Braces.IsPlain c → Braces.Commented ks text blank →
      Braces.Commented ks (c :: text) (c :: blank) := fun hc h => .atom (i := [_]) (.plain hc) h
  have hcommented : Braces.Commented [['/', '*', ' ', '}', ' ', '*', '/']] braceInComment
      braceBlank := by
    refine hplain (by decide) (hplain (by decide) (hplain (by decide) ?_))
    exact .block (k := ['/', '*', ' ', '}', ' ', '*', '/']) ⟨[' ', '}', ' ', '*', '/'], rfl, rfl⟩
      (hplain (by decide) .nil)
  have hitems : ¬ Braces.IsItems braceInComment := fun h =>
    absurd (h.closing? []) (by decide)
  have hsource : ∀ text, (Lexer.ofSource "a.gsx" (String.ofList (inBraces [] text []))).source
      = inBraces [] text [] := fun text => String.toList_ofList
  have hall := comments_read_as_items hcommented (List.cons_ne_nil _ _) (.ofSource _ _)
    (.ofSource _ _) (hsource _) (hsource _) rfl rfl 0
  exact ⟨hcommented, by decide +kernel, fun h => hitems (hall.2.1.1 h)⟩

end Parse

end Gsx
