import Gsx.Proofs.Blanking.Heads
/-!
# Nested readers side by side

The readers of bodies, nodes and directives call each other, each with one level
of depth less. Both readings have the same depth to start with, since what is
made blank keeps its length.
-/

namespace Gsx

namespace Parse

open TokenStream Blanking

variable {w : Blanking} {l : Lexer} {P : List Comment}

/-! ## What shows of nodes -/

namespace Show

variable (w : Blanking)

def node : Show Node :=
  of (Node.plain false) Node.comments (Node.ranges w.source)

def element : Show (ElementHead × List Node) :=
  of (fun e => (e.1.plain false, Node.plainAll false e.2))
    (fun e => e.1.comments ++ Node.commentsAll e.2)
    fun e => e.1.ranges w.source ++ Node.rangesAll w.source e.2

def part : Show Body.Part :=
  of (Body.Part.plain false) Body.Part.comments (Body.Part.ranges w.source)

def body : Show Body :=
  of (Body.plain false) Body.comments fun b => Node.rangesAll w.source b.nodes

def block : Show Block :=
  of (Block.plain false) Block.comments fun b => Node.rangesAll w.source b.body.nodes

end Show

namespace Parallel

variable {ends : Token → Bool} {node node' : Parse (Option Node)}

/-! ## Rounds of a body -/

theorem bodyRound (hends : ∀ (t : Token) p, (t.movedTo p).startsDeclaration = t.startsDeclaration →
      ends (t.movedTo p) = ends t)
    (hnode : ∀ l P, Parallel w l P P (Show.node w).option node node') :
    Parallel w l P P (Show.part w).round (Parse.bodyRound ends node)
      (Parse.bodyRound ends node') := by
  refine skipNewlines.next fun k _ => current fun p hp => ?_
  rw [hends _ p hp]
  refine ite (fun _ => .pure (List.nil_subset _) (.refl _)) fun _ => leadingComments.bind
    fun _ g g' _ => (hnode _ _).bind fun _ n n' hn => .pure ?_ ⟨rfl, fun hclear => ?_⟩
  · change (commentsIn g ++ n.elim [] Node.comments) ++ []
      ⊆ (P ++ commentsIn g) ++ n.elim [] Node.comments
    rw [List.append_nil, List.append_assoc]
    exact List.subset_append_right _ _
  · have hnode : n'.map (Node.plain false) = n.map (Node.plain false) :=
      hn.view_eq (hclear.mono (List.subset_append_left _ _))
    exact congrArg (fun n => [Body.Part.mk none n]) hnode

theorem nodes (hends : ∀ (t : Token) p, (t.movedTo p).startsDeclaration = t.startsDeclaration →
      ends (t.movedTo p) = ends t)
    (hnode : ∀ l P, Parallel w l P P (Show.node w).option node node') :
    Parallel w l P P (Show.body w) (Parse.nodes ends node) (Parse.nodes ends node') := by
  refine (repeated fun _ _ => bodyRound hends hnode).bind fun _ parts parts' hparts =>
    orphanComments.bind fun _ gs gs' _ => .pure ?_ ⟨rfl, fun hclear => ?_⟩
  · refine List.Subset.trans (Body.comments_ofParts parts gs) ?_
    rw [List.append_assoc]
    exact List.subset_append_right _ _
  · change w.Clear (Node.rangesAll w.source (Body.ofParts parts gs).nodes) at hclear
    rw [Body.ranges_ofParts] at hclear
    have hsame : parts'.map (Body.Part.plain false) = parts.map (Body.Part.plain false) :=
      hparts.view_eq hclear
    change (Body.ofParts parts' gs').plain false = (Body.ofParts parts gs).plain false
    rw [Body.plain_ofParts, Body.plain_ofParts]
    exact congrArg (Body.ofParts · []) hsame

theorem endsBody (t : Token) (p : Position)
    (h : (t.movedTo p).startsDeclaration = t.startsDeclaration) :
    (t.movedTo p).endsBody = t.endsBody := by
  rw [Token.endsBody, h]
  rfl

theorem endsContent (t : Token) (p : Position)
    (h : (t.movedTo p).startsDeclaration = t.startsDeclaration) :
    (t.movedTo p).endsContent = t.endsContent := by
  rw [Token.endsContent, endsBody t p h]
  rfl

/-- Whether an expression is the children slot is read off its text; either way
this has the range of the braces. -/
theorem expressionNode :
    Parallel w l P P (Show.node w).option Parse.expressionNode Parse.expressionNode := by
  refine goExpr.option (fun _ => .pure (List.nil_subset _) (.refl _)) fun k e e' he => ?_
  have hnode : ∀ e : GoExpr, (if e.code = "children..." then return some (.slot ⟨e.position, none⟩)
        else return some (.expression e) : Parse (Option Node))
      = Pure.pure (some (if e.code = "children..." then .slot ⟨e.position, none⟩
        else .expression e)) := fun e => by split <;> rfl
  have hranges : ∀ e : GoExpr, (Show.node w).ranges
      (if e.code = "children..." then .slot ⟨e.position, none⟩ else .expression e)
      = (Show.expression w).ranges e := fun e => by split <;> rfl
  dsimp only
  rw [hnode, hnode]
  refine .pure ?_ ⟨rfl, fun hclear => ?_⟩
  · change (Show.node w).comments _ ⊆ _
    split
    · exact List.nil_subset _
    · exact List.subset_append_right _ _
  · have hsame : e'.plain false = e.plain false := he.view_eq (hranges e ▸ hclear)
    have hcode : e'.code = e.code := (congrArg GoExpr.code hsame :)
    change some ((Show.node w).view _) = some ((Show.node w).view _)
    rw [hcode]
    split
    · rfl
    · exact congrArg (fun e => some (Node.expression e)) hsame

end Parallel

/-- **The nested readers of one depth go side by side.** A directive is read where
there is one. -/
structure ParallelAt (w : Blanking) (d : Nat) : Prop where
  body : ∀ l P, Parallel w l P P (.body w) (body d) (body d)
  bodyNode : ∀ l P, Parallel w l P P (Show.node w).option (bodyNode d) (bodyNode d)
  markup : ∀ l P, Parallel w l P P (Show.node w).option (markup d) (markup d)
  content : ∀ l P, Parallel w l P P (.body w) (content d) (content d)
  contentNode : ∀ l P, Parallel w l P P (Show.node w).option (contentNode d) (contentNode d)
  element : ∀ l P, Parallel w l P P (Show.element w).option (element d) (element d)
  block : ∀ l P, Parallel w l P P (Show.block w).option (block d) (block d)
  forLoop : ∀ l P, (l.token 0).kind ≠ .endOfInput →
    Parallel w l P P (Show.node w).option (forLoop d) (forLoop d)
  conditional : ∀ l P, (l.token 0).kind ≠ .endOfInput →
    Parallel w l P P (Show.node w).option (conditional d) (conditional d)
  elseBranch : ∀ l P, Parallel w l P P (.body w) (elseBranch d) (elseBranch d)
  call : ∀ l P, (l.token 0).kind ≠ .endOfInput →
    Parallel w l P P (Show.node w).option (call d) (call d)

namespace ParallelAt

variable {d : Nat}

/-! ## One level -/

section Level

variable (ih : ParallelAt w d)

include ih

theorem succ_bodyNode : Parallel w l P P (Show.node w).option (Parse.bodyNode (d + 1))
    (Parse.bodyNode (d + 1)) := by
  rw [Parse.bodyNode]
  refine .kind ?_
  split
  case h_7 =>
    refine .ite (fun hstarts => ?_) fun _ => ?_
    · refine (Parallel.goStatement (isThere_of_startsStatement' hstarts)).bind fun _ c c' hc =>
        .pure (List.subset_append_right _ _) ⟨rfl, fun hclear => ?_⟩
      exact congrArg (fun c => some (Node.goCode c)) (hc.view_eq hclear)
    · exact (Parallel.report _).next fun _ _ => Parallel.advance.next fun _ _ =>
        .pure (List.nil_subset _) (.refl _)
  all_goals exact ih.markup _ _

theorem succ_contentNode : Parallel w l P P (Show.node w).option (Parse.contentNode (d + 1))
    (Parse.contentNode (d + 1)) := by
  rw [Parse.contentNode]
  refine .kind ?_
  split
  case h_7 =>
    refine .ite (fun _ => Parallel.text.bind fun _ t t' ht => ?_) fun _ => ?_
    · exact .pure (List.nil_subset _) ⟨rfl, fun _ =>
        congrArg (fun text => some (Node.text ⟨text, .nowhere⟩)) (ht.view_eq clear_nil)⟩
    · exact Parallel.advance.next fun _ _ => .pure (List.nil_subset _) (.refl _)
  all_goals exact ih.markup _ _

theorem succ_markup : Parallel w l P P (Show.node w).option (Parse.markup (d + 1))
    (Parse.markup (d + 1)) := by
  rw [Parse.markup]
  refine .kind ?_
  split
  · exact (ih.element _ _).option (fun _ => .pure (List.nil_subset _) (.refl _)) fun _ e e' he =>
      .pure (List.subset_append_right _ _) ⟨rfl, fun hclear =>
        congrArg (fun e : ElementHead × List Node => some (Node.element e.1 e.2))
          (he.view_eq hclear)⟩
  · refine Parallel.letHead.option (fun _ => .pure (List.nil_subset _) (.refl _)) fun _ h h' hh =>
      .kind <| .ite (fun _ => ?_) fun _ => (Parallel.report _).next fun _ _ =>
        .pure (List.nil_subset _) (.refl _)
    refine (ih.element _ _).option (fun _ => .pure (List.nil_subset _) (.refl _)) fun _ e e' he =>
      .pure ?_ ⟨rfl, fun hclear => ?_⟩
    · change commentsIn h.leading ++ (e.1.comments ++ Node.commentsAll e.2)
        ⊆ (P ++ commentsIn h.leading) ++ (e.1.comments ++ Node.commentsAll e.2)
      rw [List.append_assoc]
      exact List.subset_append_right _ _
    · exact congrArg₂ (fun h (e : ElementHead × List Node) => some (Node.letBinding h e.1 e.2))
        (hh.view_eq clear_nil) (he.view_eq hclear)
  · next hkind => exact ih.forLoop _ _ (by simp [hkind])
  · next hkind => exact ih.conditional _ _ (by simp [hkind])
  · next hkind => exact ih.call _ _ (by simp [hkind])
  · exact Parallel.expressionNode

theorem succ_element : Parallel w l P P (Show.element w).option (Parse.element (d + 1))
    (Parse.element (d + 1)) := by
  rw [Parse.element]
  refine Parallel.elementHead.option (fun _ => .pure (List.nil_subset _) (.refl _)) fun _ h h' hh =>
    .current fun p _ => .ite (fun _ => ?_) fun _ => (Parallel.expect _).next fun _ _ =>
      .ite (fun _ => ?_) fun _ => .pure (List.nil_subset _) (.refl _)
  · refine Parallel.advanceLine.next fun _ _ => (Parallel.trailingComment _ _).bind fun _ g g' _ =>
      .pure (fun c hc => ?_) ⟨rfl, fun hclear => ?_⟩
    · change c ∈ (_ ++ (_ ++ (commentsIn g ++ _))) ++ [] at hc
      change c ∈ (P ++ (_ ++ (_ ++ (_ ++ _)))) ++ commentsIn g
      simp only [List.mem_append, List.not_mem_nil] at hc ⊢
      tauto
    · have hhead : h'.plain false = h.plain false :=
        hh.view_eq (hclear.mono (List.subset_append_left _ _))
      exact congrArg (fun h : ElementHead =>
        some ({ h with selfClosing := true, trailing := none }, ([] : List Node))) hhead
  · have htag : h'.tag = h.tag := hh.key_eq
    rw [htag]
    refine (ih.content _ _).bind fun _ b b' hb => (Parallel.closingTag h.tag).bind fun _ g g' _ =>
      .pure (fun c hc => ?_) ⟨rfl, fun hclear => ?_⟩
    · change c ∈ (_ ++ (_ ++ (commentsIn g ++ commentsAmong b.orphans))) ++ Node.commentsAll b.nodes
        at hc
      change c ∈ ((P ++ (_ ++ (_ ++ (_ ++ _)))) ++ (Node.commentsAll b.nodes
        ++ commentsAmong b.orphans)) ++ commentsIn g
      simp only [List.mem_append] at hc ⊢
      tauto
    · obtain ⟨hclear, hclear'⟩ := clear_append.1 hclear
      have hhead : h'.plain false = h.plain false := hh.view_eq hclear
      have hbody : b'.plain false = b.plain false := hb.view_eq hclear'
      exact congrArg₂ (fun (x : ElementHead) (b : Body) =>
        some ({ x with tag := h.tag, trailing := none, orphans := [] }, b.nodes)) hhead hbody

theorem succ_block : Parallel w l P P (Show.block w).option (Parse.block (d + 1))
    (Parse.block (d + 1)) := by
  rw [Parse.block]
  refine .position fun p => (Parallel.expect _).next fun _ _ => .ite (fun _ => ?_)
    fun _ => .pure (List.nil_subset _) (.refl _)
  refine (Parallel.trailingComment _ _).bind fun _ g g' _ => Parallel.skipNewlines.next fun _ _ =>
    (ih.body _ _).bind fun _ b b' hb => (Parallel.expectLine _).next fun _ _ =>
      .ite (fun _ => .pure ?_ ⟨rfl, fun hclear => ?_⟩) fun _ => .pure (List.nil_subset _) (.refl _)
  · change commentsIn g ++ b.comments ⊆ (P ++ commentsIn g) ++ b.comments
    rw [List.append_assoc]
    exact List.subset_append_right _ _
  · exact congrArg (fun b => some (Block.mk none b)) (hb.view_eq hclear)

theorem succ_forLoop (hthere : (l.token 0).kind ≠ .endOfInput) :
    Parallel w l P P (Show.node w).option (Parse.forLoop (d + 1)) (Parse.forLoop (d + 1)) := by
  rw [Parse.forLoop]
  refine (Parallel.forHead hthere).option (fun _ => .pure (List.nil_subset _) (.refl _))
    fun _ h h' hh => (ih.block _ _).option (fun _ => .pure (List.nil_subset _) (.refl _))
      fun _ b b' hb => .pure (fun c hc => ?_) ⟨rfl, fun hclear => ?_⟩
  · change c ∈ _ ++ (commentsIn b.trailing ++ (commentsAmong b.body.orphans
      ++ Node.commentsAll b.body.nodes)) at hc
    change c ∈ (P ++ (_ ++ (_ ++ _))) ++ (commentsIn b.trailing ++ (Node.commentsAll b.body.nodes
      ++ commentsAmong b.body.orphans))
    simp only [List.mem_append] at hc ⊢
    tauto
  · obtain ⟨hclear, hclear'⟩ := clear_cons.1 hclear
    have hhead : h'.plain false = h.plain false := hh.view_eq hclear
    have hblock : b'.plain false = b.plain false := hb.view_eq hclear'
    exact congrArg₂ (fun (h : ForHead) (b : Block) => some (Node.forLoop
      { h with trailing := none, orphans := [] } b.body.nodes)) hhead hblock

theorem succ_conditional (hthere : (l.token 0).kind ≠ .endOfInput) :
    Parallel w l P P (Show.node w).option (Parse.conditional (d + 1))
      (Parse.conditional (d + 1)) := by
  rw [Parse.conditional]
  refine .ofPlace hthere fun _ hbehind => .position fun p => Parallel.advance_bind <|
    Parallel.goHeader_bind fun _ text text' htext => Parallel.skipNewlines.next fun _ _ =>
      (ih.block _ _).option (fun _ => .pure (List.nil_subset _) (.refl _)) fun _ b b' hb =>
        (ih.elseBranch _ _).bind fun _ x x' hx => .pure (fun c hc => ?_) ⟨rfl, fun hclear => ?_⟩
  · change c ∈ [] ++ (commentsIn b.trailing ++ (commentsAmong (b.body.orphans ++ x.orphans)
      ++ (Node.commentsAll b.body.nodes ++ Node.commentsAll x.nodes))) at hc
    change c ∈ (P ++ (commentsIn b.trailing ++ (Node.commentsAll b.body.nodes
      ++ commentsAmong b.body.orphans))) ++ (Node.commentsAll x.nodes ++ commentsAmong x.orphans)
    simp only [commentsAmong_append, List.mem_append, List.not_mem_nil] at hc ⊢
    tauto
  · obtain ⟨hclear, hboth⟩ := clear_cons.1 hclear
    obtain ⟨hclear', hclear''⟩ := clear_append.1 hboth
    have hsame : text' = text := htext (.inr (hbehind 1 ▸ hclear))
    have hblock : b'.plain false = b.plain false := hb.view_eq hclear'
    have helse : x'.plain false = x.plain false := hx.view_eq hclear''
    rw [hsame]
    exact congrArg₂ (fun (b : Block) (x : Body) => some (Node.conditional
      ⟨text, .nowhere, none, none, []⟩ b.body.nodes x.nodes)) hblock helse

theorem succ_elseBranch : Parallel w l P P (.body w) (Parse.elseBranch (d + 1))
    (Parse.elseBranch (d + 1)) := by
  rw [Parse.elseBranch]
  refine .kind <| .ite (fun _ => Parallel.advanceLine.next fun _ _ => .kind <|
    .ite (fun hkind => ?_) fun _ => (Parallel.expect _).next fun _ _ => .ite (fun _ => ?_)
      fun _ => .pure (List.nil_subset _) (.refl _)) fun _ => .pure (List.nil_subset _) (.refl _)
  · refine (ih.conditional _ _ (by simp [hkind])).bind fun _ n n' hn => .pure ?_ ⟨rfl, fun hclear => ?_⟩
    · cases n with
      | none => exact List.nil_subset _
      | some n =>
        change (n.comments ++ []) ++ [] ⊆ P ++ n.comments
        rw [List.append_nil, List.append_nil]
        exact List.subset_append_right _ _
    · have hsame : n'.map (Node.plain false) = n.map (Node.plain false) := hn.view_eq <| by
        cases n with
        | none => exact clear_nil
        | some n => exact hclear.mono (List.subset_append_left _ _)
      cases n <;> cases n' <;> first
        | rfl
        | cases hsame
        | exact congrArg (fun n => Body.mk [n] []) (Option.some.inj hsame)
  · exact Parallel.skipNewlines.next fun _ _ => (ih.body _ _).bind fun _ b b' hb =>
      (Parallel.expectLine _).next fun _ _ => .pure (List.subset_append_right _ _) hb

theorem succ_call (hthere : (l.token 0).kind ≠ .endOfInput) :
    Parallel w l P P (Show.node w).option (Parse.call (d + 1)) (Parse.call (d + 1)) := by
  rw [Parse.call]
  refine (Parallel.callHead hthere).option (fun _ => .pure (List.nil_subset _) (.refl _))
    fun _ h h' hh => .kind <| .ite (fun _ => ?_) fun _ => .pure (fun c hc => ?_)
      ⟨rfl, fun hclear => ?_⟩
  · refine Parallel.advanceLine.next fun _ _ => (ih.body _ _).bind fun _ b b' hb =>
      (Parallel.expectLine _).next fun _ _ => .ite (fun _ => .pure (fun c hc => ?_)
        ⟨rfl, fun hclear => ?_⟩) fun _ => .pure (List.nil_subset _) (.refl _)
    · change c ∈ _ ++ (commentsAmong b.orphans ++ Node.commentsAll b.nodes) at hc
      change c ∈ (P ++ (_ ++ _)) ++ (Node.commentsAll b.nodes ++ commentsAmong b.orphans)
      simp only [List.mem_append] at hc ⊢
      tauto
    · obtain ⟨hclear, hclear'⟩ := clear_cons.1 hclear
      have hhead : h'.plain false = h.plain false := hh.view_eq hclear
      have hbody : b'.plain false = b.plain false := hb.view_eq hclear'
      exact congrArg₂ (fun (h : CallHead) (b : Body) => some (Node.call
        { h with orphans := [] } b.nodes)) hhead hbody
  · change c ∈ _ ++ (_ ++ []) at hc
    change c ∈ P ++ (_ ++ _)
    simp only [List.mem_append, List.not_mem_nil] at hc ⊢
    tauto
  · exact congrArg (fun h => some (Node.call h [])) (hh.view_eq hclear)

end Level

end ParallelAt

/-! ## All levels -/

/-- **The nested readers go side by side** at any depth. -/
theorem parallelAt (w : Blanking) (d : Nat) : ParallelAt w d := by
  induction d with
  | zero =>
    constructor <;> intros
    all_goals exact .exhaust _ _ (.refl _) rfl
  | succ d ih =>
    exact
      { body := fun _ _ => by
          rw [body]
          exact .nodes Parallel.endsBody ih.bodyNode
        bodyNode := fun _ _ => ih.succ_bodyNode
        markup := fun _ _ => ih.succ_markup
        content := fun _ _ => by
          rw [content]
          exact .nodes Parallel.endsContent ih.contentNode
        contentNode := fun _ _ => ih.succ_contentNode
        element := fun _ _ => ih.succ_element
        block := fun _ _ => ih.succ_block
        forLoop := fun _ _ => ih.succ_forLoop
        conditional := fun _ _ => ih.succ_conditional
        elseBranch := fun _ _ => ih.succ_elseBranch
        call := fun _ _ => ih.succ_call }

end Parse

end Gsx
