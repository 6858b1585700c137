import Gsx.Proofs.Rendering.Captures
/-!
# Opening tags and the heads of directives

What stands in front of the bodies of a node: attributes and opening tags, and
the heads of bindings, loops and calls.
-/

namespace Gsx.Rendering

open Lexer Parse

variable {source cs rest w : List Char} {c d : Char} {k : TokenKind}

/-! ## Signs -/

theorem front_leftAngle (h : cs.head? ≠ some '/') : Front ('<' :: cs) .leftAngle ['<'] cs := by
  refine front_of_read rfl (by decide) (n := 1) ?_ rfl
  rw [Lexeme.read, if_neg h]

theorem front_angleSlash (cs : List Char) : Front ('<' :: '/' :: cs) .angleSlash ['<', '/'] cs :=
  ⟨rfl, 2, rfl, rfl⟩

theorem front_rightAngle (cs : List Char) : Front ('>' :: cs) .rightAngle ['>'] cs :=
  ⟨rfl, 1, rfl, rfl⟩

theorem front_slashAngle (cs : List Char) : Front ('/' :: '>' :: cs) .slashAngle ['/', '>'] cs :=
  ⟨rfl, 2, rfl, rfl⟩

theorem front_equals (cs : List Char) : Front ('=' :: cs) .equals ['='] cs :=
  ⟨rfl, 1, rfl, rfl⟩

theorem front_hash (cs : List Char) : Front ('#' :: cs) .hash ['#'] cs :=
  ⟨rfl, 1, rfl, rfl⟩

theorem front_leftParen (cs : List Char) : Front ('(' :: cs) .leftParen ['('] cs :=
  ⟨rfl, 1, rfl, rfl⟩

theorem front_colonEquals (cs : List Char) : Front (':' :: '=' :: cs) .colonEquals [':', '='] cs :=
  ⟨rfl, 2, rfl, rfl⟩

/-! ## Attribute values -/

/-- Whether a character ends an attribute or a name in an opening tag. -/
def endsItem (d : Char) : Bool :=
  d == ' ' || d == '>'

theorem continuesWord_of_endsItem (h : endsItem d) : Lexeme.continuesWord d = false := by
  rw [endsItem, Bool.or_eq_true, beq_iff_eq, beq_iff_eq] at h
  rcases h with rfl | rfl <;> decide

theorem endsNumber_of_endsItem (h : endsItem d) : Lexeme.endsNumber d := by
  rw [endsItem, Bool.or_eq_true, beq_iff_eq, beq_iff_eq] at h
  rcases h with rfl | rfl <;> decide

theorem reads_intValue {n : Nat} (h : (Nat.toDigits 10 n).length ≤ Numeral.maxDigits) :
    Reads source cs (intValue (String.ofList (Nat.toDigits 10 n))) (· = n) cs := by
  have hread : Numeral.read (Nat.toDigits 10 n) = .ok n := by
    rw [Numeral.read, if_neg (Nat.not_lt.2 h), value_toDigits]
  rw [intValue, String.toList_ofList, hread]
  exact .pure rfl

/-- **A value is read up to what ends its attribute.** -/
theorem reads_attributeValue {v : AttributeValue} (h : isValue v) (hd : endsItem d) :
    Reads source (value v ++ d :: rest) attributeValue (Gives fun x => v.same x.1)
      (d :: rest) := by
  cases v with
  | string s place =>
    refine .current (front_quoted s (d :: rest)) fun t ht => ?_
    rw [ht.kind]
    refine .advance (front_quoted s (d :: rest)) (.pure ⟨_, rfl, ?_⟩)
    simp [AttributeValue.same, ht.literal]
  | int n place =>
    have hfront := front_nat n (endsNumber_of_endsItem hd) rest
    refine .current hfront fun t ht => ?_
    rw [ht.kind]
    simp only [ht.literal]
    refine (reads_intValue (of_decide_eq_true h)).bind ?_
    rintro _ rfl
    exact .advance hfront (.pure ⟨_, rfl, by simp [AttributeValue.same]⟩)
  | float x place => exact absurd h Bool.false_ne_true
  | bool b place =>
    -- the lexer knows no words for truth values; the parser sorts them out by their text
    have hb : isName (value (.bool b .nowhere)) := by cases b <;> decide
    have hfront := front_name hb (continuesWord_of_endsItem hd) rest
    refine .current hfront fun t ht => ?_
    rw [ht.kind]
    refine .advance hfront ?_
    rw [ht.literal]
    cases b <;> exact .pure ⟨_, rfl, rfl⟩
  | expression e =>
    rw [isValue, isExpression, Bool.and_eq_true, Option.isNone_iff_eq_none] at h
    refine .current (front_leftBrace _) fun t ht => ?_
    rw [ht.kind]
    refine (reads_goExpr h.1).bind ?_
    rintro _ ⟨place, rfl⟩
    exact .pure ⟨_, rfl, by simp [AttributeValue.same, GoExpr.same, sameOption, h.2]⟩

/-! ## Attributes -/

theorem front_attr {a : Attribute} (h : isName a.name.toList) (rest : List Char) :
    Front (attr a ++ rest) .identifier a.name.toList ('=' :: value a.value ++ rest) := by
  have hname := front_name h (d := '=') (by decide) (value a.value ++ rest)
  rw [attr, List.append_assoc]
  exact hname.gap rfl

theorem reads_attr {a : Attribute} (h : isAttribute a) (hd : endsItem d) :
    Reads source (attr a ++ d :: rest) Parse.attr (Gives (Attribute.same a)) (d :: rest) := by
  rw [isAttribute, Bool.and_eq_true] at h
  have hfront := front_attr h.1 (d :: rest)
  refine .current hfront fun t ht => .advance hfront <| .kind (front_equals _) ?_
  rw [if_pos rfl]
  refine .advance (front_equals _) ((reads_attributeValue h.2 hd).bind ?_)
  rintro _ ⟨x, rfl, hx⟩
  exact .pure ⟨_, rfl, by simpa [Attribute.same, ht.literal] using hx⟩

theorem exists_attrs_eq_cons (as : List Attribute) (hd : endsItem d) (rest : List Char) :
    ∃ d' rest', as.flatMap attr ++ d :: rest = d' :: rest' ∧ endsItem d' := by
  cases as with
  | nil => exact ⟨d, rest, rfl, hd⟩
  | cons a as => exact ⟨_, _, rfl, rfl⟩

/-- What ends an opening tag. -/
structure EndsTag (d : Char) (rest : List Char) (k : TokenKind) : Prop where
  endsItem : endsItem d
  front : ∃ w cs', Front (d :: rest) k w cs'
  kind : k = .rightAngle ∨ k = .slashAngle

theorem reads_attributeRound_last (h : EndsTag d rest k) :
    Reads source (d :: rest) attributeRound (· = .last []) (d :: rest) := by
  obtain ⟨-, ⟨w, cs', hf⟩, hk⟩ := h
  refine (reads_skipNewlines ⟨k, w, cs', hf, ?_⟩).bind fun _ _ => .kind hf ?_
  · rcases hk with rfl | rfl <;> decide
  · rw [if_neg (by rcases hk with rfl | rfl <;> decide)]
    exact .pure rfl

theorem reads_attributeRound_more {a : Attribute} (h : isAttribute a) (hd : endsItem d) :
    Reads source (attr a ++ d :: rest) attributeRound
      (fun r => ∃ b, a.same b ∧ r = .more [b]) (d :: rest) := by
  have hname := h
  rw [isAttribute, Bool.and_eq_true] at hname
  have hfront := front_attr hname.1 (d :: rest)
  refine (reads_skipNewlines ⟨_, _, _, hfront, by decide⟩).bind fun _ _ => .kind hfront ?_
  rw [if_pos rfl]
  refine (reads_attr h hd).bind ?_
  rintro _ ⟨b, rfl, hb⟩
  exact .pure ⟨b, hb, rfl⟩

theorem length_attrs_le (as : List Attribute) : as.length ≤ (as.flatMap attr).length := by
  induction as with
  | nil => exact Nat.le_refl _
  | cons a as ih =>
    rw [List.flatMap_cons, List.length_append, attr, List.length_append, List.length_cons,
      List.length_cons]
    omega

/-- **The attributes of an element are read up to the sign that ends its tag.** -/
theorem reads_attributes {as : List Attribute} (h : ∀ a ∈ as, isAttribute a)
    (hend : EndsTag d rest k) :
    Reads source (as.flatMap attr ++ d :: rest) Parse.attributes
      (fun bs => sameItems Attribute.same as bs) (d :: rest) := by
  refine .rounds (repeatUpTo attributeRound) as.length ?_ fun fuel => ?_
  · have := length_attrs_le as
    rw [List.length_append]
    omega
  induction as with
  | nil =>
    refine reads_repeatUpTo_last ((reads_attributeRound_last hend).weaken ?_) _
    exact fun _ hr => ⟨[], rfl, hr⟩
  | cons a as ih =>
    obtain ⟨d', rest', hcons, hd'⟩ := exists_attrs_eq_cons as hend.endsItem rest
    have hrest := ih fun b hb => h b (List.mem_cons_of_mem _ hb)
    rw [hcons] at hrest
    rw [List.flatMap_cons, List.append_assoc, hcons]
    refine (reads_repeatUpTo_more (reads_attributeRound_more (h a List.mem_cons_self) hd')
      hrest).weaken ?_
    rintro _ ⟨b, bs, hb, hbs, rfl⟩
    rw [sameItems, hb, hbs]
    rfl

/-! ## Opening tags -/

theorem splitKey_cons_of_same {a b : Attribute} {bs : List Attribute} (h : isKey a = false)
    (hsame : a.same b) : splitKey (b :: bs) = ((splitKey bs).1, b :: (splitKey bs).2) := by
  rw [Attribute.same, Bool.and_eq_true, beq_iff_eq] at hsame
  rw [splitKey]
  split
  -- taken out is an expression named `key`, and such an attribute is excluded
  · next e hname hvalue =>
    rw [hvalue] at hsame
    rw [isKey, hsame.1, hname] at h
    cases ha : a.value with
    | expression e' =>
      rw [ha] at h
      simp at h
    | _ =>
      rw [ha] at hsame
      exact absurd hsame.2 Bool.false_ne_true
  · rfl

/-- Where no attribute is a key, none is taken out. -/
theorem splitKey_of_same {as bs : List Attribute} (h : ∀ a ∈ as, isKey a = false)
    (hsame : sameItems Attribute.same as bs) : splitKey bs = (none, bs) := by
  induction as generalizing bs with
  | nil =>
    cases bs with
    | nil => rfl
    | cons b bs => exact absurd hsame Bool.false_ne_true
  | cons a as ih =>
    cases bs with
    | nil => exact absurd hsame Bool.false_ne_true
    | cons b bs =>
      rw [sameItems, Bool.and_eq_true] at hsame
      rw [splitKey_cons_of_same (h a List.mem_cons_self) hsame.1,
        ih (fun x hx => h x (List.mem_cons_of_mem _ hx)) hsame.2]

/-- **The key is found again** among the attributes. -/
theorem splitKey_attributes {h : ElementHead} {bs : List Attribute}
    (hkey : ∀ a ∈ h.attributes, isKey a = false)
    (hsame : sameItems Attribute.same (attributes h) bs) :
    sameOption GoExpr.same h.key (splitKey bs).1
      ∧ sameItems Attribute.same h.attributes (splitKey bs).2 := by
  rw [attributes] at hsame
  cases hk : h.key with
  | none =>
    rw [hk] at hsame
    rw [splitKey_of_same hkey hsame]
    exact ⟨rfl, hsame⟩
  | some e =>
    rw [hk] at hsame
    cases bs with
    | nil => exact absurd hsame Bool.false_ne_true
    | cons b bs =>
      change (Attribute.same _ b && sameItems Attribute.same h.attributes bs) = true at hsame
      rw [Bool.and_eq_true, Attribute.same, Bool.and_eq_true, beq_iff_eq] at hsame
      obtain ⟨⟨hname, hvalue⟩, hsame⟩ := hsame
      obtain ⟨name, v, place, place'⟩ := b
      cases hname
      cases v with
      | expression e' => exact ⟨hvalue, hsame⟩
      | _ => exact absurd hvalue Bool.false_ne_true

/-- Without a sign for one no reference is read. -/
theorem reads_refName_none {v cs' : List Char} (hf : Front cs k v cs') (hk : k ≠ .hash) :
    Reads source cs refName (· = some none) cs := by
  refine .kind hf ?_
  rw [if_neg hk]
  exact .pure rfl

theorem reads_refName_some {name : String} (h : isName name.toList) (hd : endsItem d) :
    Reads source (' ' :: '#' :: name.toList ++ d :: rest) refName (· = some (some name))
      (d :: rest) := by
  have hhash : Front (' ' :: '#' :: name.toList ++ d :: rest) .hash ['#']
      (name.toList ++ d :: rest) := (front_hash _).gap rfl
  have hname := front_name h (continuesWord_of_endsItem hd) rest
  refine .kind hhash ?_
  rw [if_pos rfl]
  refine .advance hhash (.current hname fun t ht => ?_)
  rw [if_pos ht.kind]
  refine .advance hname (.pure ?_)
  rw [ht.literal, String.ofList_toList]

/-- At the attributes of an element no reference starts. -/
theorem reads_refName_attrs {as : List Attribute} (h : ∀ a ∈ as, isAttribute a)
    (hend : EndsTag d rest k) :
    Reads source (as.flatMap attr ++ d :: rest) refName (· = some none)
      (as.flatMap attr ++ d :: rest) := by
  cases as with
  | nil =>
    obtain ⟨-, ⟨w, cs', hf⟩, hk⟩ := hend
    exact reads_refName_none hf (by rcases hk with rfl | rfl <;> decide)
  | cons a as =>
    have ha := h a List.mem_cons_self
    rw [isAttribute, Bool.and_eq_true] at ha
    rw [List.flatMap_cons, List.append_assoc]
    exact reads_refName_none (front_attr ha.1 _) (by decide)

theorem reads_refName {ref : Option String} (href : ref.all (isName ·.toList))
    {as : List Attribute} (h : ∀ a ∈ as, isAttribute a) (hend : EndsTag d rest k) :
    Reads source (reference ref ++ (as.flatMap attr ++ d :: rest)) refName (· = some ref)
      (as.flatMap attr ++ d :: rest) := by
  cases ref with
  | none => exact reads_refName_attrs h hend
  | some r =>
    obtain ⟨d', rest', hcons, hd'⟩ := exists_attrs_eq_cons as hend.endsItem rest
    rw [hcons]
    exact reads_refName_some href hd'

theorem exists_tag_eq_cons (h : ElementHead) (hd : endsItem d) (rest : List Char) :
    ∃ d' rest', tag h ++ d :: rest = h.tag.toList ++ d' :: rest' ∧ endsItem d'
      ∧ reference h.ref ++ ((attributes h).flatMap attr ++ d :: rest) = d' :: rest' := by
  rw [tag, List.append_assoc, List.append_assoc]
  cases h.ref with
  | none =>
    obtain ⟨d', rest', hcons, hd'⟩ := exists_attrs_eq_cons (attributes h) hd rest
    exact ⟨d', rest', congrArg (h.tag.toList ++ ·) hcons, hd', hcons⟩
  | some r => exact ⟨_, _, rfl, rfl, rfl⟩

theorem head?_ne_slash_of_isName (h : isName w) (rest : List Char) :
    (w ++ rest).head? ≠ some '/' := by
  cases w with
  | nil => exact absurd h Bool.false_ne_true
  | cons c w =>
    rw [isName, isWord, Bool.and_eq_true, Bool.and_eq_true, Bool.and_eq_true] at h
    intro hc
    cases hc
    exact absurd h.1.1.1 (by decide)

theorem isAttribute_of_mem_attributes {h : ElementHead} (hhead : isElementHead h) :
    ∀ a ∈ attributes h, isAttribute a := by
  simp only [isElementHead, Bool.and_eq_true, List.all_eq_true] at hhead
  obtain ⟨⟨⟨⟨⟨-, hkey⟩, hattrs⟩, -⟩, -⟩, -⟩ := hhead
  intro a ha
  rcases List.mem_append.1 ha with ha | ha
  · rw [Option.mem_toList, Option.map_eq_some_iff] at ha
    obtain ⟨e, he, rfl⟩ := ha
    rw [he, Option.all_some] at hkey
    have hname : isName "key".toList := by decide
    rw [isAttribute, isValue, hname, hkey]
    rfl
  · exact (hattrs a ha).1

theorem front_elementHead {h : ElementHead} (hhead : isElementHead h) (rest : List Char) :
    Front ('<' :: tag h ++ rest) .leftAngle ['<'] (tag h ++ rest) := by
  simp only [isElementHead, Bool.and_eq_true] at hhead
  obtain ⟨⟨⟨⟨⟨⟨htag, -⟩, -⟩, -⟩, -⟩, -⟩, -⟩ := hhead
  have hslash : (tag h ++ rest).head? ≠ some '/' := by
    rw [tag, List.append_assoc, List.append_assoc]
    exact head?_ne_slash_of_isName htag _
  exact front_leftAngle hslash

/-- **An opening tag is read up to the sign that ends it.** -/
theorem reads_elementHead {h : ElementHead} (hhead : isElementHead h) (hend : EndsTag d rest k) :
    Reads source ('<' :: tag h ++ d :: rest) elementHead
      (fun o => ∃ as key place, o = some ⟨h.tag, as, false, h.ref, key, place, none, none, []⟩
        ∧ sameItems Attribute.same h.attributes as ∧ sameOption GoExpr.same h.key key)
      (d :: rest) := by
  have hattrs := isAttribute_of_mem_attributes hhead
  have hangle := front_elementHead hhead (d :: rest)
  simp only [isElementHead, Bool.and_eq_true, List.all_eq_true, Bool.not_eq_true'] at hhead
  obtain ⟨⟨⟨⟨⟨⟨htag, href⟩, -⟩, hkey⟩, -⟩, -⟩, -⟩ := hhead
  obtain ⟨d', rest', htext, hd', hcons⟩ := exists_tag_eq_cons h hend.endsItem rest
  have hname := front_name htag (continuesWord_of_endsItem hd') rest'
  have hrefname : Reads source _ refName (· = some h.ref) _ := reads_refName href hattrs hend
  rw [hcons] at hrefname
  refine .position fun place => .advance hangle ?_
  rw [htext]
  refine .current hname fun t ht => ?_
  rw [if_pos ht.kind]
  refine .advance hname (hrefname.bind ?_)
  rintro _ rfl
  refine (reads_attributes hattrs hend).bind fun bs hbs => .pure ?_
  obtain ⟨hsame, hsame'⟩ := splitKey_attributes (fun a ha => (hkey a ha).2) hbs
  refine ⟨_, _, place, ?_, hsame', hsame⟩
  rw [ht.literal, String.ofList_toList]

/-! ## Closing tags -/

theorem reads_closingName {tag : String} (h : isName tag.toList) (hd : endsItem d) :
    Reads source (tag.toList ++ d :: rest) (closingName tag) (fun _ => True) (d :: rest) := by
  have hname := front_name h (continuesWord_of_endsItem hd) rest
  refine .current hname fun t ht => ?_
  rw [if_pos (by simp [ht.kind, ht.literal])]
  exact .advance hname (.pure trivial)

/-- **A closing tag is read with the end of its line.** -/
theorem reads_closingTag {tag : String} (h : isName tag.toList) (hrest : StartsLine rest) :
    Reads source ('<' :: '/' :: tag.toList ++ '>' :: '\n' :: rest) (closingTag tag) (· = none)
      rest := by
  -- no comment stands behind the tag, so its line need not be known
  have hquiet : Quiet 2 ('\n' :: rest) := by
    obtain ⟨k, w, cs', hf, -⟩ := hrest
    exact ⟨_, _, _, front_newline rest, hf.quiet⟩
  refine .kind (front_angleSlash _) ?_
  rw [if_pos rfl]
  refine .advance (front_angleSlash _) ((reads_closingName h rfl).bind fun _ _ => ?_)
  refine .position fun place => .expect (front_rightAngle _) ?_
  rw [if_pos rfl]
  refine (reads_trailingComment hquiet _).bind ?_
  rintro _ rfl
  exact (reads_skipNewlines_newline hrest).bind fun _ _ => .pure rfl

/-! ## Directives -/

theorem front_atLet (cs : List Char) :
    Front (['@', 'l', 'e', 't', ' '] ++ cs) .atLet ['@', 'l', 'e', 't'] (' ' :: cs) :=
  front_at (w := ['l', 'e', 't']) (d := ' ') (by decide) (by decide +kernel) cs

theorem front_atFor (cs : List Char) :
    Front (['@', 'f', 'o', 'r', ' '] ++ cs) .atFor ['@', 'f', 'o', 'r'] (' ' :: cs) :=
  front_at (w := ['f', 'o', 'r']) (d := ' ') (by decide) (by decide +kernel) cs

theorem front_atIf (cs : List Char) :
    Front (['@', 'i', 'f', ' '] ++ cs) .atIf ['@', 'i', 'f'] (' ' :: cs) :=
  front_at (w := ['i', 'f']) (d := ' ') (by decide) (by decide +kernel) cs

theorem front_atElse (cs : List Char) :
    Front (['@', 'e', 'l', 's', 'e', ' '] ++ cs) .atElse ['@', 'e', 'l', 's', 'e'] (' ' :: cs) :=
  front_at (w := ['e', 'l', 's', 'e']) (d := ' ') (by decide) (by decide +kernel) cs

/-- **The head of a binding is read up to its element.** -/
theorem reads_letHead {h : LetHead} (hname : isName h.name.toList) (hleading : h.leading = none)
    (hcs : StartsLine cs) :
    Reads source (letHead h ++ cs) Parse.letHead (Gives (LetHead.same h)) cs := by
  have hident : Front (' ' :: h.name.toList ++ ' ' :: '=' :: ' ' :: cs) .identifier h.name.toList
      (' ' :: '=' :: ' ' :: cs) := (front_name hname (by decide) _).gap rfl
  have hequals : Front (' ' :: '=' :: ' ' :: cs) .equals ['='] (' ' :: cs) :=
    (front_equals _).gap rfl
  simp only [letHead, List.append_assoc]
  refine .position fun place => .advance (front_atLet _) (.current hident fun t ht => ?_)
  rw [if_pos ht.kind]
  refine .advance hident (.expectLine hequals ((reads_skipNewlines hcs).gap rfl) ?_)
  rw [if_pos rfl]
  exact .pure ⟨_, rfl, by simp [LetHead.same, ht.literal, sameComments, sameOption, hleading]⟩

/-- In front of the brace of a block no line end is passed. -/
theorem reads_skipNewlines_brace (cs : List Char) :
    Reads source (' ' :: '{' :: cs) skipNewlines (fun _ => True) ('{' :: cs) :=
  .skipGap (c := ' ') rfl (reads_skipNewlines ⟨_, _, _, front_blankBrace cs, by decide⟩)

theorem front_loopName (h : isLoopName w) (hd : Lexeme.continuesWord d = false)
    (rest : List Char) : ∃ k : TokenKind, (k = .underscore ∨ k = .identifier) ∧
      Front (w ++ d :: rest) k w (d :: rest) := by
  rw [isLoopName, Bool.or_eq_true, beq_iff_eq] at h
  rcases h with h | rfl
  · exact ⟨_, .inr rfl, front_name h hd rest⟩
  · exact ⟨_, .inl rfl, front_underscore hd rest⟩

theorem reads_loopVariable {v : String} (h : isLoopName v.toList)
    (hd : Lexeme.continuesWord d = false) (f : GrammarFault) :
    Reads source (v.toList ++ d :: rest) (loopVariable f) (· = some v) (d :: rest) := by
  obtain ⟨k, hk, hfront⟩ := front_loopName h hd rest
  refine .current hfront fun t ht => ?_
  rw [if_pos (by simpa [ht.kind] using hk)]
  refine .advance hfront (.pure ?_)
  rw [ht.literal, String.ofList_toList]

theorem reads_loopVariables {index value : String} (hindex : isLoopName index.toList)
    (hvalue : isLoopName value.toList) (hd : Lexeme.continuesWord d = false) :
    Reads source (index.toList ++ ',' :: ' ' :: value.toList ++ d :: rest) loopVariables
      (· = some (index, value)) (d :: rest) := by
  rw [List.append_assoc]
  refine (reads_loopVariable hindex (by decide) _).bind ?_
  rintro _ rfl
  refine .kind (front_comma _) ?_
  rw [if_pos rfl]
  refine .advance (front_comma _) (.gap rfl ((reads_loopVariable hvalue hd _).bind ?_))
  rintro _ rfl
  exact .pure rfl

/-- **The head of a loop is read up to its block.** -/
theorem reads_forHead {h : ForHead} (hindex : isLoopName h.index.toList)
    (hvalue : isLoopName h.value.toList) (hiterable : isHeader h.iterable.toList) :
    Reads source (forHead h ++ '{' :: cs) Parse.forHead
      (fun o => ∃ place, o = some ⟨h.index, h.value, h.iterable, place, none, none, []⟩)
      ('{' :: cs) := by
  have hsign : Front (' ' :: ':' :: '=' :: ' ' :: 'r' :: 'a' :: 'n' :: 'g' :: 'e' :: ' '
      :: (h.iterable.toList ++ ' ' :: '{' :: cs)) .colonEquals [':', '='] _ :=
    (front_colonEquals _).gap rfl
  have hrange : Front (' ' :: 'r' :: 'a' :: 'n' :: 'g' :: 'e' :: ' '
      :: (h.iterable.toList ++ ' ' :: '{' :: cs)) .rangeWord _ _ :=
    (front_word (w := ['r', 'a', 'n', 'g', 'e']) (d := ' ') (by decide) (by decide)
      (by decide) _).gap rfl
  simp only [forHead, List.append_assoc]
  refine .position fun place => .advance (front_atFor _) (.gap rfl ?_)
  have hvariables : Reads source (h.index.toList ++ ',' :: ' ' :: h.value.toList
      ++ ' ' :: ':' :: '=' :: ' ' :: 'r' :: 'a' :: 'n' :: 'g' :: 'e' :: ' '
        :: (h.iterable.toList ++ ' ' :: '{' :: cs)) loopVariables
      (· = some (h.index, h.value)) _ :=
    reads_loopVariables hindex hvalue (by decide)
  rw [List.append_assoc] at hvariables
  refine hvariables.bind ?_
  rintro _ rfl
  refine .expect hsign ?_
  rw [if_pos rfl]
  refine .kind hrange ?_
  rw [if_pos rfl]
  refine .advance hrange (.gap rfl ((reads_goHeader hiterable).bind ?_))
  rintro _ rfl
  refine (reads_skipNewlines_brace cs).bind fun _ _ => ?_
  refine .pure ⟨place, ?_⟩
  rw [String.ofList_toList]

/-- **The head of a call is read up to its block.** -/
theorem reads_callHead {h : CallHead} (hname : isCallName h.name.toList)
    (hargs : isArguments h.args.toList) :
    Reads source (callHead h ++ '{' :: cs) Parse.callHead
      (fun o => ∃ place, o = some ⟨h.name, h.args, place, none, []⟩) ('{' :: cs) := by
  have hcall : Front (callHead h ++ '{' :: cs) .atCall h.name.toList
      ('(' :: (h.args.toList ++ ')' :: ' ' :: '{' :: cs)) := by
    simp only [callHead, List.append_assoc]
    exact front_callName hname (by decide) _
  refine .current hcall fun t ht => .advance hcall (.expect (front_leftParen _) ?_)
  rw [if_pos rfl]
  refine (reads_goArguments hargs).bind ?_
  rintro _ rfl
  refine .expect (front_rightParen _) ?_
  rw [if_pos rfl]
  refine (reads_skipNewlines_brace cs).bind fun _ _ => ?_
  refine .pure ⟨t.position, ?_⟩
  rw [ht.literal, String.ofList_toList, String.ofList_toList]

end Gsx.Rendering
