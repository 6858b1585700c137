import Gsx.Proofs.Rendering.Bodies
/-!
# Nodes

Each kind of node is read back from its text, given that the bodies in it are.
By induction over the tree so are all nodes and bodies.
-/

namespace Gsx.Rendering

open Lexer Parse

variable {source cs rest text text' : List Char} {depth : Nat} {n : Node} {ns ns' : List Node}

/-! ## Elements -/

theorem same_elementHead {h : ElementHead} (hhead : isElementHead h) {as : List Attribute}
    {key : Option GoExpr} (has : sameItems Attribute.same h.attributes as)
    (hkey : sameOption GoExpr.same h.key key) (place : Position) :
    h.same ⟨h.tag, as, h.selfClosing, h.ref, key, place, none, none, []⟩ := by
  simp only [isElementHead, Bool.and_eq_true, Option.isNone_iff_eq_none, List.isEmpty_iff] at hhead
  obtain ⟨⟨⟨-, hleading⟩, htrailing⟩, horphans⟩ := hhead
  simp only [ElementHead.same, has, hkey, hleading, htrailing, horphans, BEq.rfl, Bool.true_and]
  rfl

/-- An element without content is read with the end of its line. -/
theorem reads_element_selfClosing {h : ElementHead} (hhead : isElementHead h)
    (hclosing : h.selfClosing) (hrest : IsLine rest) (text : List Char) (m : Nat) :
    Reads source (element h text m ++ rest) (Parse.element (depth + 1))
      (Gives fun x => h.same x.1 && Node.sameAll [] x.2) rest := by
  have hslash : Front (' ' :: '/' :: '>' :: '\n' :: rest) .slashAngle ['/', '>'] ('\n' :: rest) :=
    (front_slashAngle _).gap rfl
  rw [element, if_pos hclosing, List.append_assoc]
  refine (reads_elementHead hhead ⟨rfl, ⟨_, _, hslash⟩, .inr rfl⟩).bind ?_
  rintro _ ⟨as, key, place, rfl, has, hkey⟩
  refine .current hslash fun t ht => ?_
  rw [if_pos ht.kind]
  refine .advanceLine hslash (reads_skipNewlines_newline hrest.startsLine) ?_
  refine (reads_trailingComment hrest.quiet _).bind ?_
  rintro _ rfl
  refine .pure ⟨_, rfl, ?_⟩
  have hsame := same_elementHead hhead has hkey place
  rw [hclosing] at hsame
  exact Bool.and_eq_true_iff.2 ⟨hsame, rfl⟩

theorem closes_closingTag {tag : String} (h : isName tag.toList) (rest : List Char) (m : Nat) :
    Closes true (margin m ++ '<' :: '/' :: tag.toList ++ '>' :: rest) := by
  rw [List.append_assoc]
  exact ⟨_, _, (front_angleSlash _).margin m, (front_name h (by decide) rest).quiet⟩

/-- An element with content is read up to the end of its closing tag. -/
theorem reads_element_content {h : ElementHead} (hhead : isElementHead h)
    (hclosing : h.selfClosing = false) (hs : IsBodyText true text ns) (hrest : IsLine rest)
    (hdepth : 4 * text.length + 4 ≤ depth) (m : Nat) :
    Reads source (element h text m ++ rest) (Parse.element (depth + 1))
      (Gives fun x => h.same x.1 && Node.sameAll ns x.2) rest := by
  have htag : isName h.tag.toList := by
    simp only [isElementHead, Bool.and_eq_true] at hhead
    exact hhead.1.1.1.1.1.1
  -- the content ends at the closing tag, whose name is that of the element
  have hcloses := closes_closingTag htag ('\n' :: rest) m
  have hcontent : Reads source _ (readBody true depth) (IsBody ns) _ :=
    hs.reads_body (.inr rfl) hcloses hdepth
  rw [element, if_neg (by rw [hclosing]; decide)]
  simp only [List.append_assoc] at hcontent ⊢
  refine (reads_elementHead hhead ⟨rfl, ⟨_, _, front_rightAngle _⟩, .inl rfl⟩).bind ?_
  rintro _ ⟨as, key, place, rfl, has, hkey⟩
  refine .current (front_rightAngle _) fun t ht => ?_
  rw [if_neg (by rw [ht.kind]; decide)]
  refine .expect (front_rightAngle _) ?_
  rw [if_pos rfl]
  refine hcontent.bind ?_
  rintro b ⟨hnodes, horphans⟩
  refine ((reads_closingTag htag hrest.startsLine).margin m).bind ?_
  rintro _ rfl
  refine .pure ⟨_, rfl, ?_⟩
  have hsame := same_elementHead hhead has hkey place
  rw [hclosing] at hsame
  rw [horphans]
  exact Bool.and_eq_true_iff.2 ⟨hsame, hnodes⟩

/-- **An element is read back**, given that its content is. -/
theorem reads_element {h : ElementHead} (hhead : isElementHead h)
    (hclosing : h.selfClosing → ns = []) (hs : IsBodyText true text ns) (hrest : IsLine rest)
    (m : Nat) (hdepth : 4 * (element h text m).length + 5 ≤ depth) :
    Reads source (element h text m ++ rest) (Parse.element depth)
      (Gives fun x => h.same x.1 && Node.sameAll ns x.2) rest := by
  obtain ⟨depth, rfl⟩ := Nat.exists_eq_add_one.2 (by omega : 0 < depth)
  cases hc : h.selfClosing with
  | true =>
    obtain rfl := hclosing hc
    exact reads_element_selfClosing hhead hc hrest text m
  | false =>
    refine reads_element_content hhead hc hs hrest ?_ m
    have hlength : text.length ≤ (element h text m).length := by
      rw [element, if_neg (by rw [hc]; decide)]
      simp only [List.length_append]
      omega
    omega

theorem exists_element_eq (h : ElementHead) (text rest : List Char) (m : Nat) :
    ∃ d rest', element h text m ++ rest = '<' :: tag h ++ d :: rest' ∧ endsItem d := by
  rw [element, List.append_assoc]
  cases h.selfClosing with
  | true => exact ⟨_, _, rfl, rfl⟩
  | false => exact ⟨_, _, rfl, rfl⟩

theorem exists_front_element {h : ElementHead} (hhead : isElementHead h) (text rest : List Char)
    (m : Nat) : ∃ cs, Front (element h text m ++ rest) .leftAngle ['<'] cs ∧ Quiet 1 cs := by
  obtain ⟨d, rest', htext, hd⟩ := exists_element_eq h text rest m
  obtain ⟨d', rest'', htag, hd', -⟩ := exists_tag_eq_cons h hd rest'
  refine ⟨tag h ++ d :: rest', htext ▸ front_elementHead hhead (d :: rest'), ?_⟩
  simp only [isElementHead, Bool.and_eq_true] at hhead
  rw [htag]
  exact (front_name hhead.1.1.1.1.1.1 (continuesWord_of_endsItem hd') rest'').quiet

/-- An element on its own line. -/
theorem isNodeText_element {h : ElementHead} (hhead : isElementHead h)
    (hclosing : h.selfClosing → ns = []) (hs : IsBodyText true text ns) (inContent : Bool)
    (m m' : Nat) : IsNodeText inContent (margin (m + 1) ++ element h text m') (.element h ns) := by
  have hfront := exists_front_element hhead text (m := m')
  refine .markup (fun rest _ => ?_) (fun source rest depth hrest hdepth => ?_) m
  · obtain ⟨cs, hf, hq⟩ := hfront rest
    exact ⟨_, _, cs, hf, rfl, hq⟩
  · obtain ⟨depth, rfl⟩ := Nat.exists_eq_add_one.2 (by omega : 0 < depth)
    obtain ⟨cs, hf, -⟩ := hfront rest
    refine ⟨rest, .inl rfl, .kind hf ?_⟩
    refine (reads_element hhead hclosing hs hrest m' (by omega)).bind ?_
    rintro _ ⟨x, rfl, hx⟩
    exact .pure ⟨_, rfl, hx⟩

/-- A binding on its own line. -/
theorem isNodeText_letBinding {h : LetHead} {e : ElementHead} (hname : isName h.name.toList)
    (hleading : h.leading = none) (hhead : isElementHead e) (hclosing : e.selfClosing → ns = [])
    (hs : IsBodyText true text ns) (inContent : Bool) (m m' : Nat) :
    IsNodeText inContent (margin (m + 1) ++ (letHead h ++ element e text m'))
      (.letBinding h e ns) := by
  have hfront := exists_front_element hhead text (m := m')
  have hlet : ∀ rest, Front (letHead h ++ element e text m' ++ rest) .atLet ['@', 'l', 'e', 't']
      (' ' :: h.name.toList ++ ' ' :: '=' :: ' ' :: (element e text m' ++ rest)) := by
    intro rest
    simp only [letHead, List.append_assoc]
    exact front_atLet _
  refine .markup (fun rest _ => ⟨_, _, _, hlet rest, rfl, ?_⟩)
    (fun source rest depth hrest hdepth => ⟨rest, .inl rfl, ?_⟩) m
  · exact ((front_name hname (d := ' ') (by decide) _).gap (c := ' ') rfl).quiet
  · obtain ⟨depth, rfl⟩ := Nat.exists_eq_add_one.2 (by omega : 0 < depth)
    obtain ⟨cs, hf, -⟩ := hfront rest
    rw [List.length_append] at hdepth
    refine .kind (hlet rest) ?_
    rw [List.append_assoc]
    refine (reads_letHead hname hleading ⟨_, _, _, hf, by decide⟩).bind ?_
    rintro _ ⟨g, rfl, hg⟩
    refine .kind hf ?_
    rw [if_pos rfl]
    refine (reads_element hhead hclosing hs hrest m' (by omega)).bind ?_
    rintro _ ⟨x, rfl, hx⟩
    rw [Bool.and_eq_true] at hx
    exact .pure ⟨_, rfl, by rw [Node.same, hg, hx.1, hx.2]; rfl⟩

/-! ## Blocks -/

theorem closes_rightBrace (hq : Quiet 1 rest) (m : Nat) :
    Closes false (margin m ++ '}' :: rest) :=
  ⟨_, _, (front_rightBrace rest).margin m, hq⟩

theorem block_append (text tail : List Char) (m : Nat) :
    block text m ++ tail = '{' :: '\n' :: (text ++ (margin m ++ '}' :: tail)) := by
  simp only [block, List.cons_append, List.append_assoc, List.nil_append]

/-- The body of a block is read with its brace and what is skipped behind it. -/
theorem reads_blockBody {tail start : List Char} {α : Type} {f : Body → Bool → Parse α}
    {p : α → Prop} {cs' : List Char} (hs : IsBodyText false text ns) (m : Nat)
    (hstart : LineEnd start (text ++ (margin m ++ '}' :: tail)))
    (htail : Reads source tail skipNewlines (fun _ => True) rest) (hq : Quiet 1 tail)
    (hdepth : 4 * text.length + 4 ≤ depth)
    (hf : ∀ b, IsBody ns b → Reads source rest (f b true) p cs') :
    Reads source start (do
      let b ← Parse.body depth
      let closed ← expectLine .rightBrace
      f b closed) p cs' := by
  refine (hs.reads_body hstart (closes_rightBrace hq m) hdepth).bind fun b hb => ?_
  exact .expectLine ((front_rightBrace tail).margin m) htail (hf b hb)

/-- **A block is read back**, given that its body is. -/
theorem reads_block {tail : List Char} (hs : IsBodyText false text ns)
    (htail : Reads source tail skipNewlines (fun _ => True) rest) (hq : Quiet 1 tail)
    (m : Nat) (hdepth : 4 * text.length + 5 ≤ depth) :
    Reads source (block text m ++ tail) (Parse.block depth)
      (fun o => ∃ b, o = some ⟨none, b⟩ ∧ IsBody ns b) rest := by
  obtain ⟨depth, rfl⟩ := Nat.exists_eq_add_one.2 (by omega : 0 < depth)
  have hline := hs.isLine _ (closes_rightBrace hq m)
  rw [block_append]
  refine .position fun place => .expect (front_leftBrace _) ?_
  rw [if_pos rfl]
  refine (reads_trailingComment hline.quiet_newline _).bind ?_
  rintro _ rfl
  refine (reads_skipNewlines_newline hline.startsLine).bind fun _ _ => ?_
  refine reads_blockBody hs m (.inl rfl) htail hq (by omega) fun b hb => ?_
  rw [if_pos rfl]
  exact .pure ⟨b, rfl, hb⟩

/-! ## Loops -/

theorem exists_front_forHead {h : ForHead} (hindex : isLoopName h.index.toList)
    (rest : List Char) :
    ∃ cs, Front (forHead h ++ rest) .atFor ['@', 'f', 'o', 'r'] cs ∧ Quiet 1 cs := by
  simp only [forHead, List.append_assoc]
  refine ⟨_, front_atFor _, ?_⟩
  obtain ⟨k, -, hf⟩ := front_loopName hindex (d := ',') (by decide) _
  exact (hf.gap (c := ' ') rfl).quiet

theorem reads_forLoop {h : ForHead} (hindex : isLoopName h.index.toList)
    (hvalue : isLoopName h.value.toList) (hiterable : isHeader h.iterable.toList)
    (hcomments : h.leading = none ∧ h.trailing = none ∧ h.orphans = [])
    (hs : IsBodyText false text ns) (hrest : IsLine rest) (m : Nat)
    (hdepth : 4 * text.length + 6 ≤ depth) :
    Reads source (forHead h ++ block text m ++ '\n' :: rest) (forLoop depth)
      (Gives (Node.same (.forLoop h ns))) rest := by
  obtain ⟨depth, rfl⟩ := Nat.exists_eq_add_one.2 (by omega : 0 < depth)
  rw [List.append_assoc]
  refine (reads_forHead hindex hvalue hiterable).bind ?_
  rintro _ ⟨place, rfl⟩
  refine (reads_block hs (reads_skipNewlines_newline hrest.startsLine)
    hrest.quiet_newline.of_succ m (by omega)).bind ?_
  rintro _ ⟨b, rfl, hnodes, horphans⟩
  refine .pure ⟨_, rfl, ?_⟩
  obtain ⟨hleading, htrailing, horphans'⟩ := hcomments
  simp only [Node.same, ForHead.same, hleading, htrailing, horphans, horphans', hnodes, BEq.rfl,
    Bool.true_and]
  rfl

theorem length_le_block (text : List Char) (m : Nat) : text.length + 3 ≤ (block text m).length := by
  simp only [block, margin, List.cons_append, List.length_cons, List.length_append,
    List.length_replicate, List.length_nil]
  omega

/-- A loop on its own lines. -/
theorem isNodeText_forLoop {h : ForHead} (hindex : isLoopName h.index.toList)
    (hvalue : isLoopName h.value.toList) (hiterable : isHeader h.iterable.toList)
    (hcomments : h.leading = none ∧ h.trailing = none ∧ h.orphans = [])
    (hs : IsBodyText false text ns) (inContent : Bool) (m m' : Nat) :
    IsNodeText inContent (margin (m + 1) ++ (forHead h ++ block text m' ++ ['\n']))
      (.forLoop h ns) := by
  refine .markup (fun rest _ => ?_) (fun source rest depth hrest hdepth => ?_) m
  · obtain ⟨cs, hf, hq⟩ := exists_front_forHead hindex (block text m' ++ '\n' :: rest)
    simp only [List.append_assoc]
    exact ⟨_, _, cs, hf, rfl, hq⟩
  · obtain ⟨depth, rfl⟩ := Nat.exists_eq_add_one.2 (by omega : 0 < depth)
    have := length_le_block text m'
    simp only [List.length_append] at hdepth
    obtain ⟨cs, hf, -⟩ := exists_front_forHead hindex (block text m' ++ '\n' :: rest)
    have hreads : Reads source _ (forLoop depth) (Gives (Node.same (.forLoop h ns))) rest :=
      reads_forLoop hindex hvalue hiterable hcomments hs hrest m' (by omega)
    simp only [List.append_assoc] at hreads ⊢
    exact ⟨rest, .inl rfl, .kind hf hreads⟩

/-! ## Calls -/

theorem exists_front_callHead {h : CallHead} (hname : isCallName h.name.toList)
    (rest : List Char) :
    ∃ cs, Front (callHead h ++ rest) .atCall h.name.toList cs ∧ Quiet 1 cs := by
  simp only [callHead, List.append_assoc]
  exact ⟨_, front_callName hname (by decide) _, (front_leftParen _).quiet⟩

theorem reads_call {h : CallHead} (hname : isCallName h.name.toList)
    (hargs : isArguments h.args.toList) (hcomments : h.leading = none ∧ h.orphans = [])
    (hs : IsBodyText false text ns) (hrest : IsLine rest) (m : Nat)
    (hdepth : 4 * text.length + 5 ≤ depth) :
    Reads source (callHead h ++ block text m ++ '\n' :: rest) (call depth)
      (Gives (Node.same (.call h ns))) rest := by
  obtain ⟨depth, rfl⟩ := Nat.exists_eq_add_one.2 (by omega : 0 < depth)
  have hq := hrest.quiet_newline.of_succ
  have hline := hs.isLine _ (closes_rightBrace hq m)
  rw [List.append_assoc, block_append]
  refine (reads_callHead hname hargs).bind ?_
  rintro _ ⟨place, rfl⟩
  refine .kind (front_leftBrace _) ?_
  rw [if_pos rfl]
  refine .advanceLine (front_leftBrace _) (reads_skipNewlines_newline hline.startsLine) ?_
  refine reads_blockBody hs m (.inl rfl) (reads_skipNewlines_newline hrest.startsLine) hq
    (by omega) fun b hb => ?_
  rw [if_pos rfl]
  refine .pure ⟨_, rfl, ?_⟩
  simp only [Node.same, CallHead.same, hcomments.1, hcomments.2, hb.1, hb.2, BEq.rfl,
    Bool.true_and]
  rfl

/-- A call on its own lines. -/
theorem isNodeText_call {h : CallHead} (hname : isCallName h.name.toList)
    (hargs : isArguments h.args.toList) (hcomments : h.leading = none ∧ h.orphans = [])
    (hs : IsBodyText false text ns) (inContent : Bool) (m m' : Nat) :
    IsNodeText inContent (margin (m + 1) ++ (callHead h ++ block text m' ++ ['\n']))
      (.call h ns) := by
  refine .markup (fun rest _ => ?_) (fun source rest depth hrest hdepth => ?_) m
  · obtain ⟨cs, hf, hq⟩ := exists_front_callHead hname (block text m' ++ '\n' :: rest)
    simp only [List.append_assoc]
    exact ⟨_, _, cs, hf, rfl, hq⟩
  · obtain ⟨depth, rfl⟩ := Nat.exists_eq_add_one.2 (by omega : 0 < depth)
    have := length_le_block text m'
    simp only [List.length_append] at hdepth
    obtain ⟨cs, hf, -⟩ := exists_front_callHead hname (block text m' ++ '\n' :: rest)
    have hreads : Reads source _ (call depth) (Gives (Node.same (.call h ns))) rest :=
      reads_call hname hargs hcomments hs hrest m' (by omega)
    simp only [List.append_assoc] at hreads ⊢
    exact ⟨rest, .inl rfl, .kind hf hreads⟩

/-! ## Conditionals -/

theorem exists_front_ifHead {h : IfHead} (hcondition : isHeader h.condition.toList)
    (cs : List Char) :
    ∃ cs', Front (ifHead h ++ '{' :: cs) .atIf ['@', 'i', 'f'] cs' ∧ Quiet 1 cs' := by
  simp only [ifHead, List.append_assoc]
  exact ⟨_, front_atIf _, (quiet_header hcondition).gap (c := ' ') rfl⟩

/-- Where no else branch starts, none is read. -/
theorem reads_elseBranch_nil (hrest : IsLine rest) :
    Reads source rest (elseBranch (depth + 1)) (IsBody []) rest := by
  obtain ⟨k, w, cs', hf, -, helse, -⟩ := hrest
  refine .kind hf ?_
  rw [if_neg helse]
  exact .pure ⟨rfl, rfl⟩

theorem reads_elseBranch_block (hs : IsBodyText false text ns) (hrest : IsLine rest) (m : Nat)
    (hdepth : 4 * text.length + 4 ≤ depth) :
    Reads source (['@', 'e', 'l', 's', 'e', ' '] ++ (block text m ++ '\n' :: rest))
      (elseBranch (depth + 1)) (IsBody ns) rest := by
  have hq := hrest.quiet_newline.of_succ
  have hline := hs.isLine _ (closes_rightBrace hq m)
  rw [block_append]
  refine .kind (front_atElse _) ?_
  rw [if_pos rfl]
  refine .advanceLine (front_atElse _) (reads_skipNewlines_brace _) (.kind (front_leftBrace _) ?_)
  rw [if_neg (by decide)]
  refine .expect (front_leftBrace _) ?_
  rw [if_pos rfl]
  refine (reads_skipNewlines_newline hline.startsLine).bind fun _ _ => ?_
  exact reads_blockBody hs m (.inl rfl) (reads_skipNewlines_newline hrest.startsLine) hq hdepth
    fun b hb => .pure hb

/-- **The else branch is read back**, whether there is one or not. -/
theorem exists_reads_otherwise (source : List Char) (hs : IsBodyText false text ns)
    (hrest : IsLine rest) (m : Nat) (hdepth : 4 * (otherwise ns text m).length + 5 ≤ depth) :
    Quiet 1 (otherwise ns text m ++ '\n' :: rest) ∧
      ∃ cs, Reads source (otherwise ns text m ++ '\n' :: rest) skipNewlines (fun _ => True) cs
        ∧ Reads source cs (elseBranch depth) (IsBody ns) rest := by
  obtain ⟨depth, rfl⟩ := Nat.exists_eq_add_one.2 (by omega : 0 < depth)
  cases ns with
  | nil =>
    exact ⟨hrest.quiet_newline.of_succ, rest, reads_skipNewlines_newline hrest.startsLine,
      reads_elseBranch_nil hrest⟩
  | cons n ns =>
    have hlength := length_le_block text m
    have htext : otherwise (n :: ns) text m
        = [' ', '@', 'e', 'l', 's', 'e', ' '] ++ block text m := rfl
    rw [htext, List.length_append] at hdepth
    have hbranch : Reads source _ (elseBranch (depth + 1)) (IsBody (n :: ns)) rest :=
      reads_elseBranch_block hs hrest m (by omega)
    have helse := (front_atElse (block text m ++ '\n' :: rest)).gap (c := ' ') rfl
    rw [htext, List.append_assoc]
    exact ⟨helse.quiet, _, reads_skipNewlines ⟨_, _, _, helse, by decide⟩, hbranch.gap rfl⟩

theorem reads_conditional {h : IfHead} (hcondition : isHeader h.condition.toList)
    (hcomments : h.leading = none ∧ h.trailing = none ∧ h.orphans = [])
    (hs : IsBodyText false text ns) (hs' : IsBodyText false text' ns') (hrest : IsLine rest)
    (m m' : Nat) (hdepth : 4 * text.length + 6 ≤ depth)
    (hdepth' : 4 * (otherwise ns' text' m').length + 6 ≤ depth) :
    Reads source (ifHead h ++ (block text m ++ (otherwise ns' text' m' ++ '\n' :: rest)))
      (conditional depth) (Gives (Node.same (.conditional h ns ns'))) rest := by
  obtain ⟨depth, rfl⟩ := Nat.exists_eq_add_one.2 (by omega : 0 < depth)
  have hdepth₁ : 4 * (otherwise ns' text' m').length + 5 ≤ depth := by omega
  obtain ⟨hq, cs, htail, helse⟩ := exists_reads_otherwise source hs' hrest m' hdepth₁
  -- the first block ends where the line does, or where the else branch starts
  have hblock : Reads source _ (Parse.block depth) _ cs := reads_block hs htail hq m (by omega)
  rw [block_append] at hblock ⊢
  simp only [ifHead, List.append_assoc]
  refine .position fun place => .advance (front_atIf _) (.gap rfl ?_)
  refine (reads_goHeader hcondition).bind ?_
  rintro _ rfl
  refine (reads_skipNewlines_brace _).bind fun _ _ => hblock.bind ?_
  rintro _ ⟨b, rfl, hnodes, horphans⟩
  refine helse.bind ?_
  rintro b' ⟨hnodes', horphans'⟩
  refine .pure ⟨_, rfl, ?_⟩
  obtain ⟨hleading, htrailing, hnone⟩ := hcomments
  simp only [Node.same, IfHead.same, hleading, htrailing, hnone, horphans, horphans', hnodes,
    hnodes', String.ofList_toList, BEq.rfl, Bool.true_and, Bool.and_true]
  rfl

/-- A conditional on its own lines. -/
theorem isNodeText_conditional {h : IfHead} (hcondition : isHeader h.condition.toList)
    (hcomments : h.leading = none ∧ h.trailing = none ∧ h.orphans = [])
    (hs : IsBodyText false text ns) (hs' : IsBodyText false text' ns') (inContent : Bool)
    (m m₁ m₂ : Nat) :
    IsNodeText inContent
      (margin (m + 1) ++ (ifHead h ++ block text m₁ ++ otherwise ns' text' m₂ ++ ['\n']))
      (.conditional h ns ns') := by
  have hfront : ∀ rest, ∃ cs, Front (ifHead h ++ (block text m₁ ++ rest)) .atIf ['@', 'i', 'f'] cs
      ∧ Quiet 1 cs := by
    intro rest
    rw [block_append]
    exact exists_front_ifHead hcondition _
  refine .markup (fun rest _ => ?_) (fun source rest depth hrest hdepth => ?_) m
  · obtain ⟨cs, hf, hq⟩ := hfront (otherwise ns' text' m₂ ++ '\n' :: rest)
    simp only [List.append_assoc]
    exact ⟨_, _, cs, hf, rfl, hq⟩
  · obtain ⟨depth, rfl⟩ := Nat.exists_eq_add_one.2 (by omega : 0 < depth)
    have := length_le_block text m₁
    simp only [List.length_append] at hdepth
    obtain ⟨cs, hf, -⟩ := hfront (otherwise ns' text' m₂ ++ '\n' :: rest)
    have hreads : Reads source _ (conditional depth) (Gives (Node.same (.conditional h ns ns')))
        rest := reads_conditional hcondition hcomments hs hs' hrest m₁ m₂ (by omega) (by omega)
    simp only [List.append_assoc] at hreads ⊢
    exact ⟨rest, .inl rfl, .kind hf hreads⟩

/-! ## Leaves -/

/-- A node between braces on its own line. -/
theorem isNodeText_braced {code : String} (hcode : isCode code.toList)
    (hreads : ∀ source rest, Reads source (braced code ++ rest) expressionNode (Gives n.same) rest)
    (inContent : Bool) (m : Nat) :
    IsNodeText inContent (margin (m + 1) ++ (braced code ++ ['\n'])) n := by
  refine .markup (fun rest _ => ?_) (fun source rest depth _ hdepth => ?_) m
  · simp only [braced, List.cons_append, List.append_assoc]
    exact ⟨_, _, _, front_leftBrace _, rfl, quiet_code hcode⟩
  · obtain ⟨depth, rfl⟩ := Nat.exists_eq_add_one.2 (by omega : 0 < depth)
    rw [List.append_assoc]
    exact ⟨'\n' :: rest, .inr rfl, .kind (front_leftBrace _) (hreads source _)⟩

/-- Free text on its own line. -/
theorem isNodeText_text {t : TextContent} (h : isText t.text.toList) (m : Nat) :
    IsNodeText true (margin (m + 1) ++ (t.text.toList ++ ['\n'])) (.text t) where
  ne_nil := nofun
  starts rest hrest := by
    obtain ⟨x, xs, k, hk, hspells, -⟩ := exists_spells_text h
    obtain ⟨cs, hf, hq⟩ := hspells.front (d := '\n') rfl hrest.quiet_newline.of_succ
    simp only [List.append_assoc]
    refine ⟨rfl, _, _, cs, hf.margin (m + 1), ?_, hq⟩
    rw [opensNode, if_pos rfl, hk, Bool.or_true]
  reads source rest depth hrest hdepth := by
    obtain ⟨depth, rfl⟩ := Nat.exists_eq_add_one.2 (by omega : 0 < depth)
    obtain ⟨x, xs, k, hk, hspells, -⟩ := exists_spells_text h
    obtain ⟨cs, hf, -⟩ := hspells.front (d := '\n') rfl hrest.quiet_newline.of_succ
    have hreads : Reads source (t.text.toList ++ '\n' :: rest)
        (do return some (.text (← text))) (Gives (Node.same (.text t))) ('\n' :: rest) := by
      refine (reads_text h).bind fun c hc => .pure ⟨_, rfl, ?_⟩
      simp [Node.same, hc]
    refine ⟨'\n' :: rest, .inr rfl, ?_⟩
    simp only [List.append_assoc]
    refine Reads.margin (.kind hf ?_) (m + 1)
    -- no kind of a word opens another node
    generalize x.kind = k at hk
    cases k <;> first | exact hreads | cases hk

/-- A Go statement on its own lines. -/
theorem isNodeText_goCode {c : GoCode} (h : isStatement c.code.toList) (hleading : c.leading = none)
    (m : Nat) : IsNodeText false (margin (m + 1) ++ (c.code.toList ++ ['\n'])) (.goCode c) where
  ne_nil := nofun
  starts rest hrest := by
    obtain ⟨x, xs, a, hk, hspells, -⟩ := exists_spells_statement h
    obtain ⟨cs, hf, hq⟩ := hspells.front (d := '\n') rfl hrest.quiet_newline.of_succ
    simp only [List.append_assoc]
    refine ⟨rfl, _, _, cs, hf.margin (m + 1), ?_, hq⟩
    rw [opensNode, if_neg (by decide), hk, Bool.or_true]
  reads source rest depth hrest hdepth := by
    obtain ⟨depth, rfl⟩ := Nat.exists_eq_add_one.2 (by omega : 0 < depth)
    obtain ⟨x, xs, a, hk, hspells, -⟩ := exists_spells_statement h
    obtain ⟨cs, hf, -⟩ := hspells.front (d := '\n') rfl hrest.quiet_newline.of_succ
    have hreads : Reads source (c.code.toList ++ '\n' :: rest)
        (do return some (.goCode (← goStatement))) (Gives (Node.same (.goCode c))) rest := by
      refine (reads_goStatement h).bind fun g hg => .pure ⟨_, rfl, ?_⟩
      simp [Node.same, hg.1, hg.2, hleading, sameComments, sameOption]
    refine ⟨rest, .inl rfl, ?_⟩
    simp only [List.append_assoc]
    refine Reads.margin (.kind hf ?_) (m + 1)
    -- no kind that starts a statement opens another node
    generalize x.kind = k at hk
    cases k <;> first | exact hreads | cases hk

/-! ## Trees -/

mutual

/-- **The text of a node is read as the node.** -/
theorem isNodeText_node (layout : Layout) (path : List Nat) (m : Nat) (inContent : Bool) (n : Node)
    (h : isNode inContent n) :
    IsNodeText inContent (margin (m + 1) ++ node layout path n) n := by
  cases n with
  | element g cs =>
    simp only [isNode, Bool.and_eq_true, Bool.or_eq_true, Bool.not_eq_true'] at h
    obtain ⟨⟨hhead, hclosing⟩, hcs⟩ := h
    refine isNodeText_element hhead (fun hc => ?_)
      (isBodyText_nodes layout (1 :: path) true cs hcs) inContent m _
    simpa [hc] using hclosing
  | letBinding g e cs =>
    simp only [isNode, Bool.and_eq_true, Bool.or_eq_true, Bool.not_eq_true',
      Option.isNone_iff_eq_none] at h
    obtain ⟨⟨⟨⟨hname, hleading⟩, hhead⟩, hclosing⟩, hcs⟩ := h
    refine isNodeText_letBinding hname hleading hhead (fun hc => ?_)
      (isBodyText_nodes layout (1 :: path) true cs hcs) inContent m _
    simpa [hc] using hclosing
  | forLoop g b =>
    simp only [isNode, Bool.and_eq_true, Option.isNone_iff_eq_none, List.isEmpty_iff] at h
    obtain ⟨⟨⟨⟨⟨⟨hindex, hvalue⟩, hiterable⟩, hleading⟩, htrailing⟩, horphans⟩, hb⟩ := h
    exact isNodeText_forLoop hindex hvalue hiterable ⟨hleading, htrailing, horphans⟩
      (isBodyText_nodes layout (1 :: path) false b hb) inContent m _
  | conditional g t e =>
    simp only [isNode, Bool.and_eq_true, Option.isNone_iff_eq_none, List.isEmpty_iff] at h
    obtain ⟨⟨⟨⟨⟨hcondition, hleading⟩, htrailing⟩, horphans⟩, ht⟩, he⟩ := h
    exact isNodeText_conditional hcondition ⟨hleading, htrailing, horphans⟩
      (isBodyText_nodes layout (1 :: path) false t ht)
      (isBodyText_nodes layout (3 :: path) false e he) inContent m _ _
  | call g cs =>
    simp only [isNode, Bool.and_eq_true, Option.isNone_iff_eq_none, List.isEmpty_iff] at h
    obtain ⟨⟨⟨⟨hname, hargs⟩, hleading⟩, horphans⟩, hcs⟩ := h
    exact isNodeText_call hname hargs ⟨hleading, horphans⟩
      (isBodyText_nodes layout (1 :: path) false cs hcs) inContent m _
  | slot s =>
    rw [isNode, Option.isNone_iff_eq_none] at h
    exact isNodeText_braced isCode_slot (fun _ _ => reads_slot h) inContent m
  | expression e =>
    simp only [isNode, Bool.and_eq_true, bne_iff_ne] at h
    have hcode := h.1
    rw [isExpression, Bool.and_eq_true] at hcode
    exact isNodeText_braced hcode.1 (fun _ _ => reads_expressionNode h.1 h.2) inContent m
  | letReference r => cases h
  | text t =>
    simp only [isNode, Bool.and_eq_true] at h
    obtain ⟨rfl, htext⟩ := h
    exact isNodeText_text htext m
  | goCode c =>
    simp only [isNode, Bool.and_eq_true, Bool.not_eq_true', Option.isNone_iff_eq_none] at h
    obtain ⟨⟨rfl, hstatement⟩, hleading⟩ := h
    exact isNodeText_goCode hstatement hleading m

/-- **The text of a body is read as the body.** -/
theorem isBodyText_nodes (layout : Layout) (path : List Nat) (inContent : Bool) (ns : List Node)
    (h : areNodes inContent ns) : IsBodyText inContent (nodes layout path ns) ns := by
  cases ns with
  | nil => exact .nil
  | cons n ns =>
    rw [areNodes, Bool.and_eq_true] at h
    exact .cons (isNodeText_node layout (0 :: path) _ inContent n h.1)
      (isBodyText_nodes layout (1 :: path) inContent ns h.2)

end

end Gsx.Rendering
