import Gsx.Proofs.Grammar.Accounting
import Gsx.Proofs.Groups.Trees
/-!
# The groups of bodies

Whatever reading reports on its way, the groups of a body come from its course: at each
place the comments in front are taken whole, for the node that is read there or for
none, and at the end of the body the rest is split at blank lines.
-/

namespace Gsx.Parse

open TokenStream
open Holding (AllOn before behind)

variable {α β : Type} {s : TokenStream} {D : Deed → Prop}

/-! ## Leaves -/

namespace Acts

theorem goFunc (start : Nat) (p : Position) :
    Acts s (Parse.goFunc start p) fun _ f => f.position = p ∧ f.leading = none :=
  .next (.scan _ _) fun _ _ => .ofCurrent <| .ite
    (fun _ => .next (.reportAt _ _) fun _ _ => .next .lexedOffset fun _ _ =>
      .next (.sourceText _ _) fun _ _ => .pure fun _ => ⟨rfl, rfl⟩)
    fun _ => .next (.sourceText _ _) fun _ _ => .next .advanceLine fun _ _ =>
      .pure fun _ => ⟨rfl, rfl⟩

theorem goDecl : Acts s Parse.goDecl fun _ d =>
    d.position = s.current.position ∧ d.leading = none := by
  refine .ofCurrent <| .next (.scan _ _) fun _ _ => .ofCurrent ?_
  split
  · exact .next .lexedOffset fun _ _ => .next (.sourceText _ _) fun _ _ => .pure fun _ => ⟨rfl, rfl⟩
  · exact .next (.sourceText _ _) fun _ _ => .next .skipNewlines fun _ _ =>
      .pure fun _ => ⟨rfl, rfl⟩
  · exact .next (.sourceText _ _) fun _ _ => .next .advanceLine fun _ _ => .pure fun _ => ⟨rfl, rfl⟩

theorem goStatement : Acts s Parse.goStatement fun _ c =>
    c.position = s.current.position ∧ c.leading = none :=
  .ofCurrent <| .next (.scan _ _) fun _ _ => .ofCurrent <| .ite
    (fun _ => .next .lexedOffset fun _ _ => .next (.trimmedText _ _) fun _ _ =>
      .pure fun _ => ⟨rfl, rfl⟩)
    fun _ => .next (.trimmedText _ _) fun _ _ => .next .advance fun _ _ => .pure fun _ => ⟨rfl, rfl⟩

theorem goExpr : Acts s Parse.goExpr (Perhaps fun _ e =>
    e.position = s.current.position ∧ e.leading = none) := by
  refine .ofPosition <| .next .bracedText fun _ code => ?_
  cases code with
  | none => exact .nothing
  | some code => exact .something fun _ => ⟨rfl, rfl⟩

theorem text : Acts s Parse.text fun _ t => t.position = s.current.position :=
  .ofPosition <| .next (.scan _ _) fun _ _ => .pure fun _ => rfl

/-! ## Attributes -/

/-- Expressions without comments in front of them. -/
def Bare (es : List GoExpr) : Prop :=
  ∀ e ∈ es, e.leading = none

theorem attributeValue : Acts s Parse.attributeValue
    (Perhaps fun _ v => Bare v.1.expression?.toList) := by
  have hplain : ∀ {s : TokenStream} {v : AttributeValue} {p : Position}, v.expression? = none →
      Acts s (Pure.pure (some (v, p))) (Perhaps fun _ v => Bare v.1.expression?.toList) :=
    fun hnone => .something fun _ e he => by
      rw [hnone] at he
      exact absurd he List.not_mem_nil
  refine .ofCurrent ?_
  split
  · exact .next .advance fun _ _ => hplain rfl
  · exact .next (.intValue _) fun _ _ => .next .advance fun _ _ => hplain rfl
  · exact .next (.floatValue _) fun _ _ => .next .advance fun _ _ => hplain rfl
  · exact goExpr.option (fun _ => .nothing) fun _ e => .pure fun _ he =>
      .some fun _ h => List.mem_singleton.1 h ▸ he.2
  · exact .next .advance fun _ _ => .ite (fun _ => hplain rfl) fun _ => .ite (fun _ => hplain rfl)
      fun _ => .something fun _ _ h => List.mem_singleton.1 h ▸ rfl
  · exact .next (.report _) fun _ _ => .nothing

theorem attr : Acts s Parse.attr (Perhaps fun _ a => Bare a.value.expression?.toList) := by
  refine .ofCurrent <| .next .advance fun _ _ => .ofKind <| .ite
    (fun _ => .next .advance fun _ _ => ?_) fun _ => .something fun _ _ h => absurd h List.not_mem_nil
  exact attributeValue.option (fun _ => .nothing) fun _ v => .pure fun _ hv => .some hv

theorem attributes : Acts s Parse.attributes fun _ as => Bare (expressionsOf as) := by
  have hround : ∀ s, Acts s attributeRound fun _ r => ∀ a ∈ r.items,
      Bare a.value.expression?.toList := fun s =>
    .next .skipNewlines fun _ _ => .ofKind <| .ite
      (fun _ => attr.bind fun _ a => .pure fun _ ha b hb => ha b (Option.mem_toList.1 hb))
      fun _ => .pure fun _ _ h => absurd h List.not_mem_nil
  refine (repeated hround).mono fun _ as has e he => ?_
  obtain ⟨a, ha, hvalue⟩ := List.mem_filterMap.1 he
  exact has a ha e (Option.mem_toList.2 hvalue)

end Acts

/-! ## Heads -/

namespace GoesOn

theorem loopVariable (f : GrammarFault) : GoesOn (Parse.loopVariable f) :=
  .next .current fun _ => .ite (.next .advance fun _ => .pure) (.next (.report _) fun _ => .pure)

theorem loopVariables : GoesOn Parse.loopVariables := by
  refine .next (.loopVariable _) fun first => ?_
  cases first with
  | none => exact .pure
  | some first =>
    refine .next .kind fun _ => .ite
      (.next .advance fun _ => .next (.loopVariable _) fun second => ?_) .pure
    cases second <;> exact .pure

theorem refName : GoesOn Parse.refName :=
  .next .kind fun _ => .ite (.next .advance fun _ => .next .current fun _ =>
    .ite (.next .advance fun _ => .pure) (.next (.report _) fun _ => .pure)) .pure

theorem closingName (tag : String) : GoesOn (Parse.closingName tag) :=
  .next .current fun _ => .ite .advance (.next (.report _) fun _ => .ite .advance .pure)

end GoesOn

namespace Acts

theorem forHead : Acts s Parse.forHead (Perhaps fun _ h =>
    h.position = s.current.position ∧ h.leading = none) := by
  refine .ofPosition <| .next .advance fun _ _ => .next .loopVariables fun _ v => ?_
  cases v with
  | none => exact .nothing
  | some v =>
    refine .next (.expect _) fun _ _ => .ite (fun _ => .ofKind <| .ite (fun _ => ?_) fun _ =>
      .next (.report _) fun _ _ => .nothing) fun _ => .nothing
    exact .next .advance fun _ _ => .next .goHeader fun _ _ => .next .skipNewlines fun _ _ =>
      .something fun _ => ⟨rfl, rfl⟩

theorem callHead : Acts s Parse.callHead (Perhaps fun _ h =>
    h.position = s.current.position ∧ h.leading = none ∧ h.orphans = []) :=
  .ofCurrent <| .next .advance fun _ _ => .next (.expect _) fun _ _ => .ite
    (fun _ => .next .goArguments fun _ _ => .next (.expect _) fun _ _ => .ite
      (fun _ => .next .skipNewlines fun _ _ => .something fun _ => ⟨rfl, rfl, rfl⟩)
      fun _ => .nothing)
    fun _ => .nothing

theorem letHead : Acts s Parse.letHead (Perhaps fun _ h =>
    h.position = s.current.position ∧ h.leading = none) :=
  .ofPosition <| .next .advance fun _ _ => .ofCurrent <| .ite
    (fun _ => .next .advance fun _ _ => .next (.expectLine _) fun _ _ => .ite
      (fun _ => .something fun _ => ⟨rfl, rfl⟩) fun _ => .nothing)
    fun _ => .next (.report _) fun _ _ => .nothing

/-- An opening tag holds no comments. -/
theorem elementHead : Acts s Parse.elementHead (Perhaps fun _ h =>
    h.position = s.current.position ∧ Bare h.expressions ∧ h.leading = none
      ∧ h.trailing = none ∧ h.orphans = []) := by
  refine .ofPosition <| .next .advance fun _ _ => .ofCurrent <| .ite (fun _ => .next .advance
    fun _ _ => .next .refName fun _ ref => ?_) fun _ => .next (.report _) fun _ _ => .nothing
  cases ref with
  | none => exact .nothing
  | some ref =>
    refine attributes.bind fun _ as => .pure fun _ has => .some ⟨rfl, fun e he => ?_, rfl, rfl, rfl⟩
    exact has e ((perm_splitKey as).mem_iff.2 he)

/-- **Behind a closing tag** a comment may be taken. -/
theorem closingTag (tag : String) : Acts s (Parse.closingTag tag) fun _ g =>
    ∀ g' ∈ g, ∃ c, g'.comments = [c] := by
  have hnone : ∀ {s : TokenStream}, Acts s (Pure.pure none) fun _ g =>
      ∀ g' ∈ g, ∃ c, CommentGroup.comments g' = [c] :=
    .pure fun _ _ h => absurd h (Option.not_mem_none _)
  refine .ofKind <| .ite (fun _ => .next .advance fun _ _ => .next (.closingName _) fun _ _ =>
    .ofPosition <| .next (.expect _) fun _ _ => .ite (fun _ => ?_) fun _ => hnone)
    fun _ => .next (.report _) fun _ _ => hnone
  exact (trailingComment _).bind fun _ g => .next .skipNewlines fun _ _ => .pure fun _ hg => hg

end Acts

/-! ## Places of a body -/

/-- **What is read at a place**: a node that starts there, and the groups in it. -/
def AtNode (s : TokenStream) (D : Deed → Prop) (n : Node) : Prop :=
  n.position = s.current.position ∧ AllOn D n.holdings

theorem endsBody_eq_false_of_not_ends {t : Token} {ends : Token → Bool}
    (hends : ∀ t, t.endsBody → ends t) (h : ¬ends t) :
    t.endsBody = false ∧ t.kind ≠ .endOfInput := by
  have hbody : t.endsBody = false := Bool.eq_false_iff.2 fun hbody => h (hends t hbody)
  refine ⟨hbody, fun hend => ?_⟩
  rw [endsBody_of_end t hend] at hbody
  cases hbody

/-- **A place of a body**: its comments are taken whole. -/
theorem Acts.bodyRound {ends : Token → Bool} (hends : ∀ t, t.endsBody → ends t)
    {node : Parse (Option Node)} (hnode : ∀ s, Acts s node (Perhaps (AtNode s))) :
    Acts s (Parse.bodyRound ends node) fun D r => ∀ p ∈ r.items, AllOn D p.holdings := by
  refine .next .skipNewlines fun s₁ _ => .ofCurrent <| .ite
    (fun _ => .pure fun _ _ h => absurd h List.not_mem_nil) fun hgoes => ?_
  obtain ⟨hbody, hthere⟩ := endsBody_eq_false_of_not_ends hends hgoes
  refine .leading fun s₂ g hcurrent => (hnode s₂).bind fun _ n => .pure fun D hn htake p hp => ?_
  obtain rfl := List.mem_singleton.1 hp
  match n with
  | some n =>
    -- Taking comments leaves the current token, so it is the one the node starts with.
    obtain ⟨hposition, hall⟩ := hn n rfl
    rw [hcurrent] at hposition
    have hstart : (Holding.start n.position).IsOn D :=
      ⟨s₁.current, _, htake, hthere, hposition.symm⟩
    cases g with
    | none => exact List.forall_mem_cons.2 ⟨hstart, hall⟩
    | some g =>
      refine List.forall_mem_cons.2 ⟨hstart, fun x hx => ?_⟩
      rcases Node.mem_holdings_withLeading hx with rfl | hx
      · exact ⟨s₁.current, htake, hthere, hposition.symm⟩
      · exact hall x hx
  | none =>
    -- No node comes of the token, and what was taken in front of it stays whole.
    cases g with
    | none => exact fun _ h => absurd h List.not_mem_nil
    | some g => exact fun x hx => List.mem_singleton.1 hx ▸ .inr ⟨s₁.current, htake, hbody⟩

/-- **A body**, up to its end. -/
theorem Acts.nodes {ends : Token → Bool} (hends : ∀ t, t.endsBody → ends t)
    {node : Parse (Option Node)} (hnode : ∀ s, Acts s node (Perhaps (AtNode s))) :
    Acts s (Parse.nodes ends node) fun D b => AllOn D b.holdings :=
  (repeated fun _ => bodyRound hends hnode).bind fun _ _ => orphanComments.bind fun _ _ =>
    .pure fun _ horphans hparts => Body.allOn_ofParts hparts horphans

/-! ## Nested readers -/

/-- An element is read, with the groups in it. -/
def AtElement (s : TokenStream) (D : Deed → Prop) (e : ElementHead × List Node) : Prop :=
  e.1.position = s.current.position ∧ AllOn D (e.1.holdings ++ Node.holdingsAll e.2)

/-- A conditional is read, with the groups in it. -/
def AtConditional (s : TokenStream) (D : Deed → Prop) (n : Node) : Prop :=
  AtNode s D n ∧ ∃ h t e, n = .conditional h t e

/-- **The nested readers at a depth**, and the groups of what they give. -/
structure ActsNest (d : Nat) : Prop where
  body : ∀ s, Acts s (body d) fun D b => AllOn D b.holdings
  bodyNode : ∀ s, Acts s (bodyNode d) (Perhaps (AtNode s))
  markup : ∀ s, Acts s (markup d) (Perhaps (AtNode s))
  content : ∀ s, Acts s (content d) fun D b => AllOn D b.holdings
  contentNode : ∀ s, Acts s (contentNode d) (Perhaps (AtNode s))
  element : ∀ s, Acts s (element d) (Perhaps (AtElement s))
  block : ∀ s, Acts s (block d) (Perhaps fun D b => AllOn D b.holdings)
  forLoop : ∀ s, Acts s (forLoop d) (Perhaps (AtNode s))
  conditional : ∀ s, Acts s (conditional d) (Perhaps (AtConditional s))
  elseBranch : ∀ s, Acts s (elseBranch d) fun D b => AllOn D b.elseHoldings
  call : ∀ s, Acts s (call d) (Perhaps (AtNode s))

namespace ActsNest

theorem zero : ActsNest 0 where
  body _ := .tooDeep
  bodyNode _ := .tooDeep
  markup _ := .tooDeep
  content _ := .tooDeep
  contentNode _ := .tooDeep
  element _ := .tooDeep
  block _ := .tooDeep
  forLoop _ := .tooDeep
  conditional _ := .tooDeep
  elseBranch _ := .tooDeep
  call _ := .tooDeep

/-- What has no comments in front of it holds none there. -/
theorem allOn_before {p : Position} {g : Option CommentGroup} (h : g = none) :
    AllOn D (before p g) :=
  h ▸ fun _ h => absurd h List.not_mem_nil

theorem allOn_noOrphans {gs : List CommentGroup} (h : gs = []) : AllOn D (gs.map .orphan) :=
  h ▸ fun _ h => absurd h List.not_mem_nil

theorem expressionNode : Acts s Parse.expressionNode (Perhaps (AtNode s)) :=
  Acts.goExpr.option (fun _ => .nothing) fun _ _ => .ite
    (fun _ => .pure fun _ he => .some ⟨he.1, allOn_before rfl⟩)
    fun _ => .pure fun _ he => .some ⟨he.1, allOn_before he.2⟩

theorem allOn_elementHead {h : ElementHead} (hbare : Acts.Bare h.expressions)
    (hleading : h.leading = none) (htrailing : ∀ g ∈ h.trailing, ∃ c, g.comments = [c])
    (horphans : AllOn D (h.orphans.map .orphan)) : AllOn D h.holdings := by
  simp only [AllOn, ElementHead.holdings, List.forall_mem_append]
  refine ⟨fun x hx => ?_, allOn_before hleading, Holding.allOn_behind htrailing, horphans⟩
  obtain ⟨e, he, hx⟩ := List.mem_flatMap.1 hx
  exact allOn_before (hbare e he) x hx

variable {d : Nat} (ih : ActsNest d)

include ih

theorem succ_bodyNode : Acts s (Parse.bodyNode (d + 1)) (Perhaps (AtNode s)) := by
  rw [Parse.bodyNode]
  refine .ofKind ?_
  split
  case h_7 =>
    exact .ite (fun _ => Acts.goStatement.bind fun _ c => .pure fun _ hc =>
      .some ⟨hc.1, allOn_before hc.2⟩) fun _ => .next (.report _) fun _ _ => .next .advance
        fun _ _ => .nothing
  all_goals exact ih.markup s

theorem succ_contentNode : Acts s (Parse.contentNode (d + 1)) (Perhaps (AtNode s)) := by
  rw [Parse.contentNode]
  refine .ofKind ?_
  split
  case h_7 =>
    exact .ite (fun _ => Acts.text.bind fun _ t => .pure fun _ ht =>
      .some ⟨ht, fun _ h => absurd h List.not_mem_nil⟩) fun _ => .next .advance fun _ _ => .nothing
  all_goals exact ih.markup s

theorem succ_markup : Acts s (Parse.markup (d + 1)) (Perhaps (AtNode s)) := by
  rw [Parse.markup]
  refine .ofKind ?_
  split
  · exact (ih.element s).option (fun _ => .nothing) fun _ _ => .pure fun _ he => .some he
  · refine Acts.letHead.option (fun _ => .nothing) fun s₁ h => .ofKind <| .ite (fun _ => ?_)
      fun _ => .next (.report _) fun _ _ => .pure fun _ _ => .none
    refine (ih.element s₁).option (fun _ => .pure fun _ _ => .none) fun _ e => .pure ?_
    exact fun _ he hh => .some ⟨hh.1, List.forall_mem_append.2 ⟨allOn_before hh.2, he.2⟩⟩
  · exact ih.forLoop s
  · exact (ih.conditional s).mono fun _ _ h n hn => (h n hn).1
  · exact ih.call s
  · exact expressionNode

/-- **An element** has no comments in its tag, and a single one behind it. -/
theorem succ_element : Acts s (Parse.element (d + 1)) (Perhaps (AtElement s)) := by
  rw [Parse.element]
  refine Acts.elementHead.option (fun _ => .nothing) fun s₁ h => .ofCurrent <| .ite (fun _ => ?_)
    fun _ => .next (.expect _) fun s₂ _ => .ite (fun _ => ?_) fun _ => .pure fun _ _ => .none
  -- A tag that closes itself has no body, but it can have a comment behind it on its line.
  · refine .next .advanceLine fun _ _ => (Acts.trailingComment _).bind fun _ g => .pure ?_
    rintro D hg ⟨hposition, hbare, hleading, -, horphans⟩
    refine .some ⟨hposition, List.forall_mem_append.2 ⟨?_, fun _ h => absurd h List.not_mem_nil⟩⟩
    exact allOn_elementHead hbare hleading hg (allOn_noOrphans horphans)
  · refine (ih.content s₂).bind fun _ inner => (Acts.closingTag _).bind fun _ g => .pure ?_
    rintro D hg hinner ⟨hposition, hbare, hleading, -, -⟩
    obtain ⟨hnodes, horphans⟩ := List.forall_mem_append.1 hinner
    exact .some ⟨hposition, List.forall_mem_append.2
      ⟨allOn_elementHead hbare hleading hg horphans, hnodes⟩⟩

theorem succ_block : Acts s (Parse.block (d + 1)) (Perhaps fun D b => AllOn D b.holdings) := by
  rw [Parse.block]
  refine .ofPosition <| .next (.expect _) fun _ _ => .ite (fun _ => ?_) fun _ => .nothing
  refine (Acts.trailingComment _).bind fun _ g => .next .skipNewlines fun s₁ _ =>
    (ih.body s₁).bind fun _ inner => .next (.expectLine _) fun _ _ => .ite
      (fun _ => .pure fun _ hinner hg => .some ?_) fun _ => .pure fun _ _ _ => .none
  exact List.forall_mem_append.2 ⟨Holding.allOn_behind hg, hinner⟩

theorem succ_forLoop : Acts s (Parse.forLoop (d + 1)) (Perhaps (AtNode s)) := by
  rw [Parse.forLoop]
  refine Acts.forHead.option (fun _ => .nothing) fun s₁ h => (ih.block s₁).option
    (fun _ => .pure fun _ _ => .none) fun _ b => .pure ?_
  rintro D hb ⟨hposition, hleading⟩
  simp only [AllOn, Block.holdings, Body.holdings, List.forall_mem_append] at hb
  refine .some ⟨hposition, ?_⟩
  simp only [AllOn, Node.holdings, List.forall_mem_append]
  exact ⟨allOn_before hleading, hb.1, hb.2.2, hb.2.1⟩

/-- **A conditional** has the orphans of both branches. -/
theorem succ_conditional : Acts s (Parse.conditional (d + 1)) (Perhaps (AtConditional s)) := by
  rw [Parse.conditional]
  refine .ofPosition <| .next .advance fun _ _ => .next .goHeader fun _ condition =>
    .next .skipNewlines fun s₁ _ => (ih.block s₁).option (fun _ => .nothing) fun s₂ b =>
      (ih.elseBranch s₂).bind fun _ otherwise => .pure fun D hotherwise hb =>
        .some ⟨⟨rfl, ?_⟩, _, _, _, rfl⟩
  simp only [AllOn, Block.holdings, Body.holdings, Body.elseHoldings, List.forall_mem_append]
    at hb hotherwise
  simp only [AllOn, Node.holdings, List.map_append, List.forall_mem_append]
  exact ⟨allOn_before rfl, hb.1, ⟨hb.2.2, hotherwise.2⟩, hb.2.1, hotherwise.1⟩

/-- **An else branch** that is another conditional takes no comments for it. -/
theorem succ_elseBranch :
    Acts s (Parse.elseBranch (d + 1)) fun D b => AllOn D b.elseHoldings := by
  have hnone : ∀ {s : TokenStream}, Acts s (Pure.pure (Body.onlyComments []))
      fun D b => AllOn D b.elseHoldings := .pure fun _ _ h => absurd h List.not_mem_nil
  rw [Parse.elseBranch]
  refine .ofKind <| .ite (fun _ => .next .advanceLine fun s₁ _ => .ofKind <| .ite (fun _ => ?_)
    fun _ => .next (.expect _) fun _ _ => .ite (fun _ => ?_) fun _ => hnone) fun _ => hnone
  -- No comments are taken in front of the `if` behind an `else`, so it is no start.
  · refine (ih.conditional s₁).bind fun _ n => .pure fun D hn => ?_
    cases n with
    | none => exact fun _ h => absurd h List.not_mem_nil
    | some n =>
      obtain ⟨⟨-, hall⟩, h, t, e, rfl⟩ := hn n rfl
      intro x hx
      simp only [Body.elseHoldings, Option.toList_some, Node.holdingsAll, Node.startless,
        List.drop_succ_cons, List.drop_zero, List.append_nil, List.map_nil] at hx
      exact hall x hx
  · refine .next .skipNewlines fun s₂ _ => (ih.body s₂).bind fun _ _ => .next (.expectLine _)
      fun _ _ => .pure fun D hinner => ?_
    obtain ⟨hnodes, horphans⟩ := List.forall_mem_append.1 hinner
    exact List.forall_mem_append.2 ⟨fun x hx => hnodes x (List.mem_of_mem_drop hx), horphans⟩

theorem succ_call : Acts s (Parse.call (d + 1)) (Perhaps (AtNode s)) := by
  rw [Parse.call]
  refine Acts.callHead.option (fun _ => .nothing) fun s₁ h => .ofKind <| .ite (fun _ => ?_)
    fun _ => .pure ?_
  · refine .next .advanceLine fun s₂ _ => (ih.body s₂).bind fun _ inner => .next (.expectLine _)
      fun _ _ => .ite (fun _ => .pure ?_) fun _ => .pure fun _ _ _ => .none
    rintro D hinner ⟨hposition, hleading, -⟩
    obtain ⟨hnodes, horphans⟩ := List.forall_mem_append.1 hinner
    refine .some ⟨hposition, ?_⟩
    simp only [AllOn, Node.holdings, List.forall_mem_append]
    exact ⟨allOn_before hleading, horphans, hnodes⟩
  · rintro D ⟨hposition, hleading, horphans⟩
    refine .some ⟨hposition, ?_⟩
    simp only [AllOn, Node.holdings, List.forall_mem_append]
    exact ⟨allOn_before hleading, allOn_noOrphans horphans, fun _ h => absurd h List.not_mem_nil⟩

/-- **One level deeper.** -/
theorem succ : ActsNest (d + 1) where
  body s := by
    rw [Parse.body]
    exact .nodes (fun _ h => h) ih.bodyNode
  bodyNode _ := ih.succ_bodyNode
  markup _ := ih.succ_markup
  content s := by
    rw [Parse.content]
    exact .nodes (fun _ h => Bool.or_eq_true_iff.2 (.inr h)) ih.contentNode
  contentNode _ := ih.succ_contentNode
  element _ := ih.succ_element
  block _ := ih.succ_block
  forLoop _ := ih.succ_forLoop
  conditional _ := ih.succ_conditional
  elseBranch _ := ih.succ_elseBranch
  call _ := ih.succ_call

end ActsNest

/-- **The groups of bodies come from a course**, at every depth. -/
theorem actsNest (d : Nat) : ActsNest d := by
  induction d with
  | zero => exact .zero
  | succ d ih => exact ih.succ

end Gsx.Parse
