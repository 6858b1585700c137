import Gsx.Proofs.Grammar.CapturesAlike
/-!
# Nested readers go alike

The readers of bodies, nodes and directives call each other, each with one level
of depth less. In the source they may have more of it than in the text alone;
what a reader gives does not depend on the depth unless it runs out.
-/

namespace Gsx.Parse

open TokenStream

variable {o : Window}

namespace Alike

/-- What shows of an element. -/
abbrev showElement (o : Window) (e : ElementHead × List Node) : ElementHead × List Node :=
  (e.1.plain o.tidy, Node.plainAll o.tidy e.2)

/-- What shows of a node that may be missing. -/
abbrev showNode (o : Window) : Option Node → Option Node :=
  Option.map (Node.plain o.tidy)

theorem bodyRound {ends : Token → Bool} (hends : ∀ t, ends (o.token t) = ends t)
    {node node' : Parse (Option Node)} (hnode : Alike o (showNode o) node node') :
    Alike o (showRound (Body.Part.plain o.tidy)) (Parse.bodyRound ends node)
      (Parse.bodyRound ends node') := by
  refine skipNewlines.next fun _ => current fun t => ?_
  rw [hends]
  refine ite (fun _ => .pure rfl) fun _ => leadingComments.bind fun g g' hg =>
    hnode.bind fun n n' hn => .pure ?_
  exact congrArg₂ (fun g n => ([Body.Part.mk g n], true)) hg hn

theorem nodes {ends : Token → Bool} (hends : ∀ t, ends (o.token t) = ends t)
    {node node' : Parse (Option Node)} (hnode : Alike o (showNode o) node node') :
    Alike o (Body.plain o.tidy) (Parse.nodes ends node) (Parse.nodes ends node') := by
  refine (repeated (bodyRound hends hnode)).bind fun parts parts' hparts =>
    orphanComments.bind fun gs gs' hgs => .pure ?_
  rw [Body.plain_ofParts, Body.plain_ofParts]
  exact congrArg₂ Body.ofParts hparts hgs

theorem expressionNode : Alike o (showNode o) Parse.expressionNode Parse.expressionNode := by
  refine goExpr.option (.pure rfl) fun e e' he => ?_
  have hcode := congrArg GoExpr.code he
  change e.code = e'.code at hcode
  simp only [hcode]
  exact ite (fun _ => .pure rfl) fun _ => .pure (congrArg (fun e => some (Node.expression e)) he)

end Alike

/-- **The nested readers of two depths go alike.** -/
structure AlikeAt (o : Window) (d d' : Nat) : Prop where
  body : Alike o (Body.plain o.tidy) (body d) (body d')
  bodyNode : Alike o (Alike.showNode o) (bodyNode d) (bodyNode d')
  markup : Alike o (Alike.showNode o) (markup d) (markup d')
  content : Alike o (Body.plain o.tidy) (content d) (content d')
  contentNode : Alike o (Alike.showNode o) (contentNode d) (contentNode d')
  element : Alike o (Option.map (Alike.showElement o)) (element d) (element d')
  block : Alike o (Option.map (Block.plain o.tidy)) (block d) (block d')
  forLoop : Alike o (Alike.showNode o) (forLoop d) (forLoop d')
  conditional : Alike o (Alike.showNode o) (conditional d) (conditional d')
  elseBranch : Alike o (Body.plain o.tidy) (elseBranch d) (elseBranch d')
  call : Alike o (Alike.showNode o) (call d) (call d')

namespace AlikeAt

variable {d d' : Nat}

/-! ## One level -/

section Level

variable (ih : AlikeAt o d d')

include ih

theorem succ_bodyNode : Alike o (Alike.showNode o) (Parse.bodyNode (d + 1))
    (Parse.bodyNode (d' + 1)) := by
  rw [Parse.bodyNode, Parse.bodyNode]
  refine .kind fun k => ?_
  split
  case h_7 =>
    refine .ite (fun _ => Alike.goStatement.bind fun c c' hc => ?_) fun _ => ?_
    · exact .pure (congrArg (fun c => some (Node.goCode c)) hc)
    · exact (Alike.report _).next fun _ => Alike.advance.next fun _ => .pure rfl
  all_goals exact ih.markup

theorem succ_contentNode : Alike o (Alike.showNode o) (Parse.contentNode (d + 1))
    (Parse.contentNode (d' + 1)) := by
  rw [Parse.contentNode, Parse.contentNode]
  refine .kind fun k => ?_
  split
  case h_7 =>
    refine .ite (fun _ => Alike.text.bind fun t t' ht => ?_) fun _ => ?_
    · exact .pure (congrArg (fun t => some (Node.text ⟨t, .nowhere⟩)) ht)
    · exact Alike.advance.next fun _ => .pure rfl
  all_goals exact ih.markup

theorem succ_markup : Alike o (Alike.showNode o) (Parse.markup (d + 1))
    (Parse.markup (d' + 1)) := by
  rw [Parse.markup, Parse.markup]
  refine .kind fun k => ?_
  split
  · exact ih.element.option (.pure rfl) fun e e' he =>
      .pure (congrArg (fun e : ElementHead × List Node => some (Node.element e.1 e.2)) he)
  · refine Alike.letHead.option (.pure rfl) fun h h' hh => .kind fun _ => .ite (fun _ => ?_)
      fun _ => (Alike.report _).next fun _ => .pure rfl
    exact ih.element.option (.pure rfl) fun e e' he =>
      .pure (congrArg₂ (fun h (e : ElementHead × List Node) => some (Node.letBinding h e.1 e.2))
        hh he)
  · exact ih.forLoop
  · exact ih.conditional
  · exact ih.call
  · exact Alike.expressionNode

theorem succ_element : Alike o (Option.map (Alike.showElement o)) (Parse.element (d + 1))
    (Parse.element (d' + 1)) := by
  rw [Parse.element, Parse.element]
  refine Alike.elementHead.option (.pure rfl) fun h h' hh => .current fun t => .ite (fun _ => ?_)
    fun _ => (Alike.expect _).next fun _ => .ite (fun _ => ?_) fun _ => .pure rfl
  · refine Alike.advanceLine.next fun _ =>
      (Alike.trailingComment t.position.line).bind fun g g' hg => .pure ?_
    exact congrArg₂ (fun (h : ElementHead) g =>
      some ({ h with selfClosing := true, trailing := g }, ([] : List Node))) hh hg
  · have htag := congrArg ElementHead.tag hh
    change h.tag = h'.tag at htag
    rw [← htag]
    refine ih.content.bind fun b b' hb => (Alike.closingTag h.tag).bind fun g g' hg => .pure ?_
    simp only [Option.map_some, Alike.showElement, ElementHead.plain]
    have horphans := congrArg Body.orphans hb
    have hnodes := congrArg Body.nodes hb
    simp only [ElementHead.plain, Body.plain, ElementHead.mk.injEq] at hh horphans hnodes
    simp only [hh, hg, horphans, hnodes]

theorem succ_block : Alike o (Option.map (Block.plain o.tidy)) (Parse.block (d + 1))
    (Parse.block (d' + 1)) := by
  rw [Parse.block, Parse.block]
  refine .position fun p => (Alike.expect _).next fun _ => .ite (fun _ => ?_) fun _ => .pure rfl
  refine (Alike.trailingComment p.line).bind fun g g' hg => Alike.skipNewlines.next fun _ =>
    ih.body.bind fun b b' hb => (Alike.expectLine _).next fun _ => .ite (fun _ => .pure ?_)
      fun _ => .pure rfl
  exact congrArg₂ (fun g b => some (Block.mk g b)) hg hb

theorem succ_forLoop : Alike o (Alike.showNode o) (Parse.forLoop (d + 1))
    (Parse.forLoop (d' + 1)) := by
  rw [Parse.forLoop, Parse.forLoop]
  refine Alike.forHead.option (.pure rfl) fun h h' hh => ih.block.option (.pure rfl)
    fun b b' hb => .pure ?_
  exact congrArg₂ (fun (h : ForHead) (b : Block) => some (Node.forLoop
    { h with trailing := b.trailing, orphans := b.body.orphans } b.body.nodes)) hh hb

theorem succ_conditional : Alike o (Alike.showNode o) (Parse.conditional (d + 1))
    (Parse.conditional (d' + 1)) := by
  rw [Parse.conditional, Parse.conditional]
  refine .position fun p => Alike.advance.next fun _ => Alike.goHeader.next fun c =>
    Alike.skipNewlines.next fun _ => ih.block.option (.pure rfl) fun b b' hb =>
      ih.elseBranch.bind fun x x' hx => .pure ?_
  simp only [Alike.showNode, Option.map_some, Node.plain, IfHead.plain, plainGroups_append]
  exact congrArg₂ (fun (b : Block) (x : Body) => some (Node.conditional
    ⟨c, .nowhere, plainGroup o.tidy none, b.trailing, b.body.orphans ++ x.orphans⟩ b.body.nodes
      x.nodes)) hb hx

theorem succ_elseBranch : Alike o (Body.plain o.tidy) (Parse.elseBranch (d + 1))
    (Parse.elseBranch (d' + 1)) := by
  rw [Parse.elseBranch, Parse.elseBranch]
  refine .kind fun _ => .ite (fun _ => Alike.advanceLine.next fun _ => .kind fun _ =>
    .ite (fun _ => ?_) fun _ => (Alike.expect _).next fun _ => .ite (fun _ => ?_)
      fun _ => .pure rfl) fun _ => .pure rfl
  · refine ih.conditional.bind fun n n' hn => .pure ?_
    cases n with
    | none =>
      cases n' with
      | none => rfl
      | some n' => cases hn
    | some n =>
      cases n' with
      | none => cases hn
      | some n' => exact congrArg (fun n => Body.mk [n] (plainGroups o.tidy [])) (Option.some.inj hn)
  · exact Alike.skipNewlines.next fun _ => ih.body.bind fun b b' hb =>
      (Alike.expectLine _).next fun _ => .pure hb

theorem succ_call : Alike o (Alike.showNode o) (Parse.call (d + 1))
    (Parse.call (d' + 1)) := by
  rw [Parse.call, Parse.call]
  refine Alike.callHead.option (.pure rfl) fun h h' hh => .kind fun _ => .ite (fun _ => ?_)
    fun _ => .pure (congrArg (fun h => some (Node.call h [])) hh)
  refine Alike.advanceLine.next fun _ => ih.body.bind fun b b' hb =>
    (Alike.expectLine _).next fun _ => .ite (fun _ => .pure ?_) fun _ => .pure rfl
  exact congrArg₂ (fun (h : CallHead) (b : Body) => some (Node.call
    { h with orphans := b.orphans } b.nodes)) hh hb

end Level

end AlikeAt

/-! ## All levels -/

/-- **The nested readers go alike**, however deep they may go in the source. -/
theorem alikeAt (o : Window) {d d' : Nat} (hle : d ≤ d') : AlikeAt o d d' := by
  induction d generalizing d' with
  -- without depth the text alone is not read
  | zero => constructor <;> exact .exhaust
  | succ d ih =>
    obtain ⟨d', rfl⟩ : ∃ n, d' = n + 1 := ⟨d' - 1, by omega⟩
    have hd := ih (Nat.le_of_succ_le_succ hle)
    exact
      { body := by
          rw [body, body]
          exact .nodes (fun _ => rfl) hd.bodyNode
        bodyNode := hd.succ_bodyNode
        markup := hd.succ_markup
        content := by
          rw [content, content]
          exact .nodes (fun _ => rfl) hd.contentNode
        contentNode := hd.succ_contentNode
        element := hd.succ_element
        block := hd.succ_block
        forLoop := hd.succ_forLoop
        conditional := hd.succ_conditional
        elseBranch := hd.succ_elseBranch
        call := hd.succ_call }

end Gsx.Parse
