import Gsx.Proofs.Grammar.Accounting
/-!
# What bodies account for

The recursive part of the grammar: what the readers of nodes go over accounts for
the outlines of the nodes. A node that gets lost on the way has left a fault; so
has an element whose closing tag is missing or another.
-/

namespace Gsx.Parse

open Lexer

variable {α : Type} {l m : Lexer} {is js : List Item}

/-! ## Heads -/

/-- What a reader accounts for that may give nothing: an outline, or a fault. -/
def AccountsSome (outline : α → List Event) (js : List Item) : Option α → Prop
  | some a => Accounts js (outline a)
  | none => .fault ∈ js

/-- Nothing in the tree. -/
abbrev nowhere (_ : α) : List Event := []

theorem tours_expect_quiet {want : TokenKind} (h : want.startsTag = false) :
    Tours (expect want) fun js found => if found then Accounts js [] else .fault ∈ js := fun l =>
  (tours_expect want l).mono fun js found hjs => by
    cases found with
    | false => exact hjs ▸ List.mem_singleton_self _
    | true =>
      obtain ⟨t, next, hkind, rfl⟩ := hjs
      exact .token (hkind ▸ h)

theorem tours_expectLine_quiet {want : TokenKind} (h : want.startsTag = false) :
    Tours (expectLine want) fun js found => if found then Accounts js [] else .fault ∈ js := fun l =>
  (tours_expectLine want l).mono fun js found hjs => by
    cases found with
    | false => exact hjs
    | true =>
      refine Accounts.tokens fun i hi => ?_
      obtain ⟨t, next, hi, ht⟩ := hjs i hi
      exact ⟨t, next, hi, ht.elim (fun hkind => hkind ▸ h) fun hkind => hkind ▸ rfl⟩

/-- A report, and nothing behind it. -/
theorem ToursFrom.reportLast {f : GrammarFault} {a : α} {q : List Item → α → Prop}
    (h : ∀ js, .fault ∈ js → q js a) : ToursFrom l is m (do report f; return a) q :=
  .bind (tours_report f m) fun _ _ _ _ hjs => .pure (h _ (by
    rw [hjs]
    exact List.mem_append_right _ (List.mem_singleton_self _)))

theorem toursAt_expressionNode : ToursAt l expressionNode (AccountsSome Node.outline) := by
  refine .bind toursAt_goExpr fun _ js e _ he => ?_
  cases e with
  | none => exact .pure he
  | some e =>
    obtain ⟨text, rfl, hposition, hcode⟩ := he
    refine .ite (fun hslot => .pure ?_) fun _ => .pure ?_
    · exact Accounts.embedded ⟨hposition, .inr rfl, hslot ▸ hcode⟩
    · exact Accounts.embedded ⟨hposition, .inl rfl, hcode⟩

theorem tours_loopVariable (f : GrammarFault) :
    Tours (loopVariable f) (AccountsSome nowhere) := fun _ =>
  .ofCurrent <| .ite (fun hkind => .advance (.pure (.token (by
    rw [Bool.or_eq_true, decide_eq_true_eq, decide_eq_true_eq] at hkind
    obtain hkind | hkind := hkind <;> rw [hkind] <;> rfl))))
    fun _ => .reportLast fun _ h => h

theorem tours_loopVariables : Tours loopVariables (AccountsSome nowhere) := fun l => by
  refine .bind (tours_loopVariable _ l) fun e js first _ hfirst => ?_
  cases first with
  | none => exact .pure hfirst
  | some first =>
    refine .ofKind <| .ite (fun hcomma => .advance ?_) fun _ => .pure hfirst
    refine .bind (tours_loopVariable _ _) fun _ ks second _ hsecond => ?_
    cases second with
    | none => exact .pure (List.mem_append_right _ hsecond)
    | some second =>
      exact .pure ((Accounts.skip hfirst (.token (hcomma ▸ rfl))).skip hsecond)

/-- The outline of the head of a loop. -/
def forOutline (h : ForHead) : List Event :=
  [.node ⟨.loop, h.position, h.value⟩, .header h.iterable]

theorem toursAt_forHead (hkind : (l.token 0).kind = .atFor) :
    ToursAt l forHead (AccountsSome forOutline) := by
  have hnode : ∀ next value, Accounts [.token (l.token 0) next]
      [.node ⟨.loop, (l.token 0).position, value⟩] := fun _ _ =>
    .node nofun (hkind ▸ rfl) ⟨rfl, hkind⟩
  refine .ofPosition <| .advance <| .bind (tours_loopVariables _) fun e js v _ hv => ?_
  cases v with
  | none => exact .pure (List.mem_append_right _ hv)
  | some v =>
    obtain ⟨index, value⟩ := v
    refine .bind (tours_expect_quiet rfl e) fun e ks found _ hfound => .ite (fun hyes => ?_)
      fun hno => .pure (List.mem_append_right _ (by rwa [if_neg hno] at hfound))
    rw [if_pos hyes] at hfound
    refine .ofKind <| .ite (fun hrange => .advance ?_) fun _ => .reportLast fun _ h => h
    refine .bind (tours_goHeader _) fun e hs code _ hcode =>
      .bind (tours_skipNewlines e) fun _ ns _ _ hns => .pure ?_
    exact ((((hnode _ value).skip hv).skip hfound).skip (.token (hrange ▸ rfl))).append
      hcode.accounts |>.skip (.lines hns)

/-- The outline of the head of a call. -/
def callOutline (h : CallHead) : List Event :=
  [.node ⟨.call, h.position, h.name⟩, .header h.args]

theorem toursAt_callHead (hkind : (l.token 0).kind = .atCall) :
    ToursAt l callHead (AccountsSome callOutline) := by
  have hnode : ∀ next, Accounts [.token (l.token 0) next]
      [.node ⟨.call, (l.token 0).position, (l.token 0).literal⟩] := fun _ =>
    .node nofun (hkind ▸ rfl) ⟨rfl, hkind, rfl⟩
  refine .ofCurrent <| .advance <| .bind (tours_expect_quiet rfl _) fun e js found _ hfound =>
    .ite (fun hyes => ?_) fun hno => .pure (List.mem_append_right _ (by rwa [if_neg hno] at hfound))
  rw [if_pos hyes] at hfound
  refine .bind (tours_goArguments _) fun e ks code _ hcode =>
    .bind (tours_expect_quiet rfl e) fun e hs found' _ hfound' => .ite (fun hyes' => ?_)
      fun hno => .pure (List.mem_append_right _ (by rwa [if_neg hno] at hfound'))
  rw [if_pos hyes'] at hfound'
  exact .bind (tours_skipNewlines e) fun _ ns _ _ hns => .pure
    (((((hnode _).skip hfound).append hcode.accounts).skip hfound').skip (.lines hns))

/-- The outline of the head of a binding. -/
def letOutline (h : LetHead) : List Event :=
  [.node ⟨.binding, h.position, h.name⟩]

theorem toursAt_letHead (hkind : (l.token 0).kind = .atLet) :
    ToursAt l letHead (AccountsSome letOutline) := by
  have hnode : ∀ next name, Accounts [.token (l.token 0) next]
      [.node ⟨.binding, (l.token 0).position, name⟩] := fun _ _ =>
    .node nofun (hkind ▸ rfl) ⟨rfl, hkind⟩
  refine .ofPosition <| .advance <| .ofCurrent <| .ite (fun hname => .advance ?_)
    fun _ => .reportLast fun _ h => h
  refine .bind (tours_expectLine_quiet rfl _) fun e js found _ hfound => .ite (fun hyes => ?_)
    fun hno => .pure (List.mem_append_right _ (by rwa [if_neg hno] at hfound))
  rw [if_pos hyes] at hfound
  exact .pure (((hnode _ _).skip (.token (hname ▸ rfl))).skip hfound)

theorem tours_refName : Tours refName (AccountsSome nowhere) := fun _ =>
  .ofKind <| .ite (fun hhash => .advance <| .ofCurrent <| .ite
    (fun hname => .advance (.pure
      ((Accounts.token (hhash ▸ rfl)).append (.token (hname ▸ rfl)))))
    fun _ => .reportLast fun _ h => h) fun _ => .pure .nil

/-- **An opening tag** up to the sign that ends it. -/
theorem toursAt_elementHead (hkind : (l.token 0).kind = .leftAngle) :
    ToursAt l elementHead fun js r =>
      AccountsSome ElementHead.opening js r ∧ ∀ h ∈ r, h.selfClosing = false := by
  refine .ofPosition <| .advance <| .ofCurrent <| .ite (fun hname => .advance ?_)
    fun _ => .reportLast fun _ h => ⟨h, nofun⟩
  refine .bind (tours_refName _) fun e js ref _ href => ?_
  cases ref with
  | none => exact .pure ⟨List.mem_append_right _ href, nofun⟩
  | some ref =>
    refine .bind (tours_attributes e) fun _ ks as _ has => .pure ⟨?_, ?_⟩
    · have hopening : Accounts [.token (l.token 0) (l.token 1)]
          [.node ⟨.element, (l.token 0).position, ((after 1 l).token 0).literal⟩] :=
        .opening hkind rfl (by rw [token_after])
      exact ((hopening.skip (.token (hname ▸ rfl))).skip href).append
        (has.perm_values (perm_splitKey as))
    · rintro h ⟨⟩
      rfl

/-! ## Closing tags -/

theorem toursAt_closingName (tag : String) : ToursAt l (closingName tag) fun js _ =>
    (l.token 0).literal = tag ∧ Accounts js [] ∨ .fault ∈ js := by
  refine .ofCurrent <| .ite (fun h => ?_) fun _ => .bind (tours_report _ l) fun _ js _ _ hjs => ?_
  · rw [Bool.and_eq_true, decide_eq_true_eq, decide_eq_true_eq] at h
    exact .lastAdvance (.inl ⟨h.2, .token (h.1 ▸ rfl)⟩)
  · have hfault : .fault ∈ js := hjs ▸ List.mem_singleton_self _
    exact .ite (fun _ => .lastAdvance (.inr (List.mem_append_left _ hfault)))
      fun _ => .pure (.inr hfault)

/-- **A closing tag accounts for the end of its element**, and one that is
missing or another is a fault. -/
theorem tours_closingTag (tag : String) :
    Tours (closingTag tag) fun js _ => Accounts js [.close tag] := fun l => by
  refine .ofKind <| .ite (fun hkind => .advance ?_) fun _ => .reportLast fun _ h =>
    .of_fault h rfl rfl
  refine .bind (toursAt_closingName tag) fun e js _ _ hname => .ofPosition <|
    .bind (tours_expect_quiet rfl e) fun e ks found _ hfound => .ite (fun hyes => ?_) fun hno =>
      .pure (.of_fault (List.mem_append_right _ (by rwa [if_neg hno] at hfound)) rfl rfl)
  rw [if_pos hyes] at hfound
  refine .bind (tours_trailingComment _ e) fun e hs _ _ hhs =>
    .bind (tours_skipNewlines e) fun _ ns _ _ hns => .pure ?_
  rw [hhs, List.append_nil]
  obtain ⟨hliteral, hjs⟩ | hfault := hname
  · rw [token_after] at hliteral
    exact (((Accounts.closing hkind hliteral).skip hjs).skip hfound).skip (.lines hns)
  · exact .of_fault (by simp only [List.mem_append, hfault, true_or, or_true]) rfl rfl

/-! ## Bodies -/

/-- The outline of a part of a body. -/
def partOutline (p : Body.Part) : List Event :=
  Node.outlineOf p.node.toList

theorem outlineOf_push (p : Body.Part) (b : Body) :
    Node.outlineOf (Body.push p b).nodes = partOutline p ++ Node.outlineOf b.nodes := by
  obtain ⟨leading, node⟩ := p
  cases node <;> cases leading <;>
    simp [Body.push, partOutline, Node.outlineOf]

theorem outlineOf_ofParts (ps : List Body.Part) (orphans : List CommentGroup) :
    Node.outlineOf (Body.ofParts ps orphans).nodes = ps.flatMap partOutline := by
  induction ps with
  | nil => rfl
  | cons p ps ih =>
    rw [List.flatMap_cons, ← ih]
    exact outlineOf_push p _

/-- What a body accounts for. -/
def AccountsBody (js : List Item) (b : Body) : Prop :=
  Accounts js (Node.outlineOf b.nodes)

/-- What a place in a body accounts for, where a node may stand. -/
def AccountsPlace (js : List Item) (n : Option Node) : Prop :=
  Accounts js (Node.outlineOf n.toList)

theorem AccountsSome.place {n : Option Node} (h : AccountsSome Node.outline js n) :
    AccountsPlace js n := by
  cases n with
  | none => exact .fault h
  | some n =>
    rw [AccountsPlace, Option.toList_some, Node.outlineOf_singleton]
    exact h

/-- **A body accounts for its nodes**, if the reader of its nodes does so wherever
the body does not end. -/
theorem tours_nodes {ends : Token → Bool} {node : Parse (Option Node)}
    (h : ∀ l : Lexer, ends (l.token 0) = false → ToursAt l node AccountsPlace) :
    Tours (nodes ends node) AccountsBody := fun l => by
  have hround : Tours (bodyRound ends node) fun js r =>
      Accounts js (r.items.flatMap partOutline) := fun l =>
    .bind (tours_skipNewlines l) fun e js _ _ hjs => .ofCurrent <| .ite
      (fun _ => .pure (.lines hjs)) fun hgo =>
        .bind (tours_leadingComments e) fun e' ks leading hroute hks => by
          subst hks
          cases hroute
          refine .bind (h e (Bool.eq_false_iff.2 hgo)) fun _ ns n _ hn => .pure ?_
          rw [List.append_nil]
          change Accounts _ ([⟨leading, n⟩].flatMap partOutline)
          rw [List.flatMap_singleton]
          exact (Accounts.lines hjs).append hn
  have hparts : Tours (repeated (bodyRound ends node)) fun js parts =>
      Accounts js (parts.flatMap partOutline) :=
    .repeated (.fault (List.mem_singleton_self _)) (fun is js as bs has hbs => by
      rw [List.flatMap_append]
      exact has.append hbs) hround
  refine .bind (hparts l) fun e js parts _ hjs =>
    .bind (tours_orphanComments e) fun _ ks orphans _ hks => .pure ?_
  rw [AccountsBody, outlineOf_ofParts, hks, List.append_nil]
  exact hjs

theorem tours_tooDeep {a : α} {q : List Item → α → Prop} (h : ∀ js, .fault ∈ js → q js a) :
    Tours (tooDeep a) q := fun l =>
  .bind (tours_exhaust l) fun _ _ _ _ hjs => .pure (h _ (hjs ▸ List.mem_singleton_self _))

/-! ## Nested readers -/

/-- The outline of an element with its children. -/
def elementOutline (e : ElementHead × List Node) : List Event :=
  e.1.opening ++ Node.outlineOf e.2 ++ e.1.closing

/-- The outline of a block. -/
def blockOutline (b : Block) : List Event :=
  Node.outlineOf b.body.nodes

/-- **The nested readers at a depth**, and what they account for. Some are asked
only in front of the token that calls for them. -/
structure AccountsNest (d : Nat) : Prop where
  body : Tours (body d) AccountsBody
  bodyNode : Tours (bodyNode d) AccountsPlace
  markup : Tours (markup d) AccountsPlace
  content : Tours (content d) AccountsBody
  contentNode : ∀ l : Lexer, (l.token 0).endsContent = false → ToursAt l (contentNode d) AccountsPlace
  element : ∀ l : Lexer, (l.token 0).kind = .leftAngle →
    ToursAt l (element d) (AccountsSome elementOutline)
  block : Tours (block d) (AccountsSome blockOutline)
  forLoop : ∀ l : Lexer, (l.token 0).kind = .atFor →
    ToursAt l (forLoop d) (AccountsSome Node.outline)
  conditional : ∀ l : Lexer, (l.token 0).kind = .atIf →
    ToursAt l (conditional d) (AccountsSome Node.outline)
  elseBranch : Tours (elseBranch d) AccountsBody
  call : ∀ l : Lexer, (l.token 0).kind = .atCall →
    ToursAt l (call d) (AccountsSome Node.outline)

namespace AccountsNest

theorem zero : AccountsNest 0 where
  body := tours_tooDeep fun _ => .fault
  bodyNode := tours_tooDeep fun _ => .fault
  markup := tours_tooDeep fun _ => .fault
  content := tours_tooDeep fun _ => .fault
  contentNode l _ := tours_tooDeep (fun _ => .fault) l
  element l _ := tours_tooDeep (fun _ h => h) l
  block := tours_tooDeep fun _ h => h
  forLoop l _ := tours_tooDeep (fun _ h => h) l
  conditional l _ := tours_tooDeep (fun _ h => h) l
  elseBranch := tours_tooDeep fun _ => .fault
  call l _ := tours_tooDeep (fun _ h => h) l

variable {d : Nat} (ih : AccountsNest d)

include ih

theorem succ_bodyNode : Tours (Parse.bodyNode (d + 1)) AccountsPlace := fun l => by
  rw [Parse.bodyNode]
  refine .ofKind ?_
  split
  case h_7 =>
    refine .ite (fun hstart => ?_) fun _ => ?_
    · exact .bind (toursAt_goStatement hstart) fun _ js c _ hc => .pure hc
    · exact .bind (tours_report _ l) fun _ js _ _ hjs => .advance (.pure
        (.fault (List.mem_append_left _ (hjs ▸ List.mem_singleton_self _))))
  all_goals exact ih.markup l

/-- What is dropped in the content of an element is no tag. -/
theorem succ_contentNode (hgo : (l.token 0).endsContent = false) :
    ToursAt l (Parse.contentNode (d + 1)) AccountsPlace := by
  have hslash : (l.token 0).kind ≠ .angleSlash := by
    rw [Token.endsContent, Bool.or_eq_false_iff, beq_eq_false_iff_ne] at hgo
    exact hgo.1
  rw [Parse.contentNode]
  refine .ofKind ?_
  split
  case h_7 hangle _ _ _ _ _ =>
    refine .ite (fun htext => ?_) fun _ => .advance (.pure (.token ?_))
    · exact .bind (toursAt_text htext) fun _ js t _ ht => .pure ht
    · rw [TokenKind.startsTag, Bool.or_eq_false_iff, beq_eq_false_iff_ne, beq_eq_false_iff_ne]
      exact ⟨hangle, hslash⟩
  all_goals exact ih.markup l

theorem succ_markup : Tours (Parse.markup (d + 1)) AccountsPlace := fun l => by
  rw [Parse.markup]
  refine .ofKind ?_
  split
  · next hkind =>
    refine .bind (ih.element l hkind) fun _ js e _ he => ?_
    cases e with
    | none => exact .pure (.fault he)
    | some e => exact .pure (AccountsSome.place (n := some (.element e.1 e.2)) he)
  · next hkind =>
    refine .bind (toursAt_letHead hkind) fun e js h _ hh => ?_
    cases h with
    | none => exact .pure (.fault hh)
    | some h =>
      refine .ofKind <| .ite (fun hangle => ?_) fun _ => .reportLast fun _ hfault => .fault hfault
      refine .bind (ih.element e hangle) fun _ ks x _ hx => ?_
      cases x with
      | none => exact .pure (.fault (List.mem_append_right _ hx))
      | some x =>
        exact .pure (AccountsSome.place (n := some (.letBinding h x.1 x.2)) (hh.append hx))
  · next hkind => exact (ih.forLoop l hkind).mono fun _ _ h => h.place
  · next hkind => exact (ih.conditional l hkind).mono fun _ _ h => h.place
  · next hkind => exact (ih.call l hkind).mono fun _ _ h => h.place
  · exact toursAt_expressionNode.mono fun _ _ h => h.place

/-- **An element accounts for its tags and what is between them.** -/
theorem succ_element (hkind : (l.token 0).kind = .leftAngle) :
    ToursAt l (Parse.element (d + 1)) (AccountsSome elementOutline) := by
  rw [Parse.element]
  refine .bind (toursAt_elementHead hkind) fun e js h _ hh => ?_
  cases h with
  | none => exact .pure hh.1
  | some h =>
    obtain ⟨hopening, hclosed⟩ := hh
    have hopen : h.selfClosing = false := hclosed h rfl
    refine .ofCurrent <| .ite (fun hslash => .advanceLine fun e ks hks => ?_) fun _ =>
      .bind (tours_expect_quiet rfl e) fun e ks found _ hfound => .ite (fun hyes => ?_)
        fun hno => .pure (List.mem_append_right _ (by rwa [if_neg hno] at hfound))
    · refine .bind (tours_trailingComment _ e) fun _ hs trailing _ hhs => .pure ?_
      have hself : elementOutline ({ h with selfClosing := true, trailing := trailing }, [])
          = h.opening := by
        simp [elementOutline, ElementHead.opening, ElementHead.closing, Node.outlineOf,
          ElementHead.expressions]
      rw [AccountsSome, hself, hhs, List.append_nil]
      exact (hopening.skip (.token (hslash ▸ rfl))).skip (.lines hks)
    · rw [if_pos hyes] at hfound
      refine .bind (ih.content e) fun e hs inner _ hinner =>
        .bind (tours_closingTag _ e) fun _ ns trailing _ hns => .pure ?_
      have hwhole : elementOutline
          ({ h with trailing := trailing, orphans := inner.orphans }, inner.nodes)
          = h.opening ++ Node.outlineOf inner.nodes ++ [.close h.tag] := by
        simp [elementOutline, ElementHead.opening, ElementHead.closing,
          ElementHead.expressions, hopen]
      rw [AccountsSome, hwhole]
      exact ((hopening.skip hfound).append hinner).append hns

theorem succ_block : Tours (Parse.block (d + 1)) (AccountsSome blockOutline) := fun l => by
  rw [Parse.block]
  refine .ofPosition <| .bind (tours_expect_quiet rfl l) fun e js found _ hfound =>
    .ite (fun hyes => ?_) fun hno => .pure (List.mem_append_right _ (by rwa [if_neg hno] at hfound))
  rw [if_pos hyes] at hfound
  refine .bind (tours_trailingComment _ e) fun e ks trailing _ hks =>
    .bind (tours_skipNewlines e) fun e ns _ _ hns => .bind (ih.body e) fun e hs inner _ hinner =>
      .bind (tours_expectLine_quiet rfl e) fun _ rs found' _ hfound' => .ite (fun hyes' => ?_)
        fun hno => .pure (List.mem_append_right _ (by rwa [if_neg hno] at hfound'))
  rw [if_pos hyes'] at hfound'
  refine .pure ?_
  rw [hks, List.append_nil]
  exact ((hfound.skip (.lines hns)).append hinner).skip hfound'

theorem succ_forLoop (hkind : (l.token 0).kind = .atFor) :
    ToursAt l (Parse.forLoop (d + 1)) (AccountsSome Node.outline) := by
  rw [Parse.forLoop]
  refine .bind (toursAt_forHead hkind) fun e js h _ hh => ?_
  cases h with
  | none => exact .pure hh
  | some h =>
    refine .bind (ih.block e) fun _ ks b _ hb => ?_
    cases b with
    | none => exact .pure (List.mem_append_right _ hb)
    | some b => exact .pure (hh.append hb)

theorem succ_conditional (hkind : (l.token 0).kind = .atIf) :
    ToursAt l (Parse.conditional (d + 1)) (AccountsSome Node.outline) := by
  have hnode : ∀ next code, Accounts [.token (l.token 0) next]
      [.node ⟨.conditional, (l.token 0).position, code⟩] := fun _ _ =>
    .node nofun (hkind ▸ rfl) ⟨rfl, hkind⟩
  rw [Parse.conditional]
  refine .ofPosition <| .advance <| .bind (tours_goHeader _) fun e js code _ hcode =>
    .bind (tours_skipNewlines e) fun e ns _ _ hns => .bind (ih.block e) fun e ks b _ hb => ?_
  cases b with
  | none => exact .pure (List.mem_append_right _ hb)
  | some b =>
    refine .bind (ih.elseBranch e) fun _ rs otherwise _ hotherwise => .pure ?_
    exact ((((hnode _ code).append hcode.accounts).skip (.lines hns)).append hb).append hotherwise

theorem succ_elseBranch : Tours (Parse.elseBranch (d + 1)) AccountsBody := fun l => by
  rw [Parse.elseBranch]
  refine .ofKind <| .ite (fun helse => .advanceLine fun e js hjs => .ofKind ?_)
    fun _ => .pure .nil
  have hfront : ∀ next, Accounts ([.token (l.token 0) next] ++ js) [] := fun _ =>
    (Accounts.token (helse ▸ rfl)).skip (.lines hjs)
  refine .ite (fun hif => ?_) fun _ => ?_
  · refine .bind (ih.conditional e hif) fun _ ks n _ hn => .pure ?_
    exact (hfront _).append hn.place
  · refine .bind (tours_expect_quiet rfl e) fun e ks found _ hfound => .ite (fun hyes => ?_)
      fun hno => .pure (.fault (List.mem_append_right _ (by rwa [if_neg hno] at hfound)))
    rw [if_pos hyes] at hfound
    refine .bind (tours_skipNewlines e) fun e ns _ _ hns => .bind (ih.body e) fun e hs inner _ hinner =>
      .bind (tours_expectLine_quiet rfl e) fun _ rs found' _ hfound' => .pure ?_
    have hbody := (((hfront (l.token 1)).skip hfound).skip (.lines hns)).append hinner
    cases found' with
    | true => exact hbody.skip hfound'
    | false => exact hbody.skip (.fault hfound')

theorem succ_call (hkind : (l.token 0).kind = .atCall) :
    ToursAt l (Parse.call (d + 1)) (AccountsSome Node.outline) := by
  rw [Parse.call]
  refine .bind (toursAt_callHead hkind) fun e js h _ hh => ?_
  cases h with
  | none => exact .pure hh
  | some h =>
    refine .ofKind <| .ite (fun hbrace => .advanceLine fun e ks hks => ?_) fun _ => .pure ?_
    · refine .bind (ih.body e) fun e hs inner _ hinner =>
        .bind (tours_expectLine_quiet rfl e) fun _ rs found _ hfound => .ite (fun hyes => ?_)
          fun hno => .pure (List.mem_append_right _ (by rwa [if_neg hno] at hfound))
      rw [if_pos hyes] at hfound
      exact .pure ((((Accounts.skip hh (.token (hbrace ▸ rfl))).skip (.lines hks)).append
        hinner).skip hfound)
    · exact hh

end AccountsNest

/-- **The nested readers account for what they give**, one depth after the
other. -/
theorem accountsNest (d : Nat) : AccountsNest d := by
  induction d with
  | zero => exact .zero
  | succ d ih =>
    exact
      { body := by
          rw [body]
          exact tours_nodes fun l _ => ih.bodyNode l
        bodyNode := ih.succ_bodyNode
        markup := ih.succ_markup
        content := by
          rw [content]
          exact tours_nodes fun l => ih.contentNode l
        contentNode := fun _ => ih.succ_contentNode
        element := fun _ => ih.succ_element
        block := ih.succ_block
        forLoop := fun _ => ih.succ_forLoop
        conditional := fun _ => ih.succ_conditional
        elseBranch := ih.succ_elseBranch
        call := fun _ => ih.succ_call }

end Gsx.Parse
