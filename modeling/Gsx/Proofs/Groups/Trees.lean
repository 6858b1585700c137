import Gsx.Proofs.Attachment.Stations
import Gsx.Proofs.Groups.Readers
/-!
# The groups of a tree

A tree holds comments in groups: in front of a node, behind something on its line, and
in a body in front of nothing. Those in front of a node were taken in one deed, whole;
those behind something are single comments; the others were split at blank lines, or
they too were taken whole, at a token at which no node came.

Where a node starts comments are taken, even if there are none. Only the conditional in
an else branch starts without that.
-/

namespace Gsx

/-- **What a tree has of the comments of a source.** -/
inductive Holding where
  /-- Something starts, with or without comments in front of it. -/
  | start (p : Position)
  /-- A group in front of what starts at a position. -/
  | leading (p : Position) (g : CommentGroup)
  /-- A group behind something on its line. -/
  | trailing (g : CommentGroup)
  /-- A group in a body, in front of nothing. -/
  | orphan (g : CommentGroup)
  deriving DecidableEq

/-! ## Holdings -/

namespace Holding

/-- The comments of a holding. -/
def comments : Holding → List Comment
  | start _ => []
  | leading _ g | trailing g | orphan g => g.comments

/-- What is held in front of a position. -/
def before (p : Position) (g : Option CommentGroup) : List Holding :=
  g.toList.map (leading p)

/-- What is held behind something. -/
def behind (g : Option CommentGroup) : List Holding :=
  g.toList.map trailing

/-- **A holding comes from a course**, of which all deeds have some property. -/
def IsOn (D : Deed → Prop) : Holding → Prop
  | start p => ∃ (t : Token) (cs : List Comment), D (.take t true cs) ∧ t.kind ≠ .endOfInput
    ∧ t.position = p
  | leading p g => ∃ t : Token, D (.take t true g.comments) ∧ t.kind ≠ .endOfInput ∧ t.position = p
  | trailing g => ∃ c, g.comments = [c]
  | orphan g => g.IsUnbroken ∨ ∃ t : Token, D (.take t true g.comments) ∧ t.endsBody = false

/-- Holdings that come from a course. -/
abbrev AllOn (D : Deed → Prop) (hs : List Holding) : Prop :=
  ∀ h ∈ hs, h.IsOn D

@[simp] theorem flatMap_before (p : Position) (g : Option CommentGroup) :
    (before p g).flatMap comments = commentsIn g := by
  cases g with
  | none => rfl
  | some g => exact List.flatMap_singleton _ _

@[simp] theorem flatMap_behind (g : Option CommentGroup) :
    (behind g).flatMap comments = commentsIn g := by
  cases g with
  | none => rfl
  | some g => exact List.flatMap_singleton _ _

@[simp] theorem flatMap_orphans (gs : List CommentGroup) :
    (gs.map orphan).flatMap comments = commentsAmong gs := by
  rw [List.flatMap_map, commentsAmong]
  rfl

theorem allOn_behind {D : Deed → Prop} {g : Option CommentGroup}
    (h : ∀ g' ∈ g, ∃ c, g'.comments = [c]) : AllOn D (behind g) := by
  intro x hx
  obtain ⟨g', hg, rfl⟩ := List.mem_map.1 hx
  exact h g' (Option.mem_toList.1 hg)

theorem allOn_orphans {D : Deed → Prop} {gs : List CommentGroup}
    (h : ∀ g ∈ gs, g.IsUnbroken) : AllOn D (gs.map orphan) := by
  intro x hx
  obtain ⟨g, hg, rfl⟩ := List.mem_map.1 hx
  exact .inl (h g hg)

end Holding

open Holding (before behind AllOn)

/-- The groups in front of some expressions. -/
def GoExpr.holdings (es : List GoExpr) : List Holding :=
  es.flatMap fun e => before e.position e.leading

/-- The groups of an element and of the expressions in its tag. -/
def ElementHead.holdings (h : ElementHead) : List Holding :=
  GoExpr.holdings h.expressions
    ++ (before h.position h.leading ++ (behind h.trailing ++ h.orphans.map .orphan))

/-- How many nodes of an else branch start where no comments are taken: the only one, if
it is another conditional. -/
def Node.startless : List Node → Nat
  | [.conditional _ _ _] => 1
  | _ => 0

mutual

/-- The groups of a node and in it. -/
def Node.holdings : Node → List Holding
  | .element h cs => h.holdings ++ Node.holdingsAll cs
  | .letBinding h e cs => before h.position h.leading ++ (e.holdings ++ Node.holdingsAll cs)
  | .forLoop h b =>
    before h.position h.leading ++ (behind h.trailing ++ (h.orphans.map .orphan
      ++ Node.holdingsAll b))
  | .conditional h t e =>
    before h.position h.leading ++ (behind h.trailing ++ (h.orphans.map .orphan
      ++ (Node.holdingsAll t ++ (Node.holdingsAll e).drop (Node.startless e))))
  | .call h cs => before h.position h.leading ++ (h.orphans.map .orphan ++ Node.holdingsAll cs)
  | .slot s => before s.position s.leading
  | .expression e => before e.position e.leading
  | .letReference _ | .text _ => []
  | .goCode c => before c.position c.leading

/-- The groups of nodes and in them, with their starts. -/
def Node.holdingsAll : List Node → List Holding
  | [] => []
  | n :: ns => .start n.position :: (n.holdings ++ Node.holdingsAll ns)

end

/-- The groups in a body. -/
def Body.holdings (b : Body) : List Holding :=
  Node.holdingsAll b.nodes ++ b.orphans.map .orphan

/-- The groups in the body of an else branch. -/
def Body.elseHoldings (b : Body) : List Holding :=
  (Node.holdingsAll b.nodes).drop (Node.startless b.nodes) ++ b.orphans.map .orphan

/-- The groups of a block. -/
def Block.holdings (b : Block) : List Holding :=
  behind b.trailing ++ b.body.holdings

/-- The groups of a component. -/
def Component.holdings (c : Component) : List Holding :=
  before c.position c.leading
    ++ (behind c.trailing ++ (c.orphans.map .orphan ++ Node.holdingsAll c.body))

/-- The groups of a declaration. -/
def Declaration.holdings : Declaration → List Holding
  | .component c => c.holdings
  | .func f => before f.position f.leading
  | .decl d => before d.position d.leading

/-- **The groups of a file**, the first of them in front of the package word, and the
starts of declarations and nodes. -/
def SourceFile.holdings (place : Position) (f : SourceFile) : List Holding :=
  .start place :: (before place f.leading ++ (f.imports.flatMap (behind ·.trailing)
    ++ (f.decls.flatMap (fun d => .start d.position :: before d.position d.leading)
      ++ (f.components.flatMap (fun c => .start c.position :: c.holdings)
        ++ (f.funcs.flatMap (fun g => .start g.position :: before g.position g.leading)
          ++ f.orphans.map .orphan)))))

/-! ### All comments are in groups -/

theorem Node.flatMap_startless (ns : List Node) :
    ((Node.holdingsAll ns).drop (Node.startless ns)).flatMap Holding.comments
      = (Node.holdingsAll ns).flatMap Holding.comments := by
  unfold Node.startless
  split <;> rfl

theorem ElementHead.flatMap_holdings (h : ElementHead) :
    h.holdings.flatMap Holding.comments = h.comments := by
  simp [ElementHead.holdings, ElementHead.comments, GoExpr.holdings, List.flatMap_assoc]

mutual

/-- The groups of a node have its comments. -/
theorem Node.flatMap_holdings : (n : Node) → n.holdings.flatMap Holding.comments = n.comments
  | .element h cs => by
    rw [Node.holdings, Node.comments, List.flatMap_append, h.flatMap_holdings,
      Node.flatMap_holdingsAll cs]
  | .letBinding h e cs => by
    rw [Node.holdings, Node.comments, List.flatMap_append, List.flatMap_append,
      e.flatMap_holdings, Node.flatMap_holdingsAll cs, Holding.flatMap_before]
  | .forLoop h b => by
    simp [Node.holdings, Node.comments, Node.flatMap_holdingsAll b]
  | .conditional h t e => by
    simp [Node.holdings, Node.comments, Node.flatMap_holdingsAll t, Node.flatMap_startless,
      Node.flatMap_holdingsAll e]
  | .call h cs => by simp [Node.holdings, Node.comments, Node.flatMap_holdingsAll cs]
  | .slot _ | .expression _ | .goCode _ => Holding.flatMap_before _ _
  | .letReference _ | .text _ => rfl

theorem Node.flatMap_holdingsAll : (ns : List Node) →
    (Node.holdingsAll ns).flatMap Holding.comments = Node.commentsAll ns
  | [] => rfl
  | n :: ns => by
    rw [Node.holdingsAll, Node.commentsAll, List.flatMap_cons, List.flatMap_append,
      n.flatMap_holdings, Node.flatMap_holdingsAll ns, Holding.comments, List.nil_append]

end

/-- **The groups of a file** have all its comments. -/
theorem SourceFile.flatMap_holdings (place : Position) (f : SourceFile) :
    (f.holdings place).flatMap Holding.comments = f.comments := by
  have hcomponent : ∀ c : Component, c.holdings.flatMap Holding.comments = c.comments := fun c => by
    simp [Component.holdings, Component.comments, Node.flatMap_holdingsAll]
  have hstart : ∀ p, (Holding.start p).comments = [] := fun _ => rfl
  simp [SourceFile.holdings, SourceFile.comments, List.flatMap_assoc, hcomponent, hstart]

/-! ### Comments put in front -/

section
variable {D : Deed → Prop} {x : Holding}

/-- A node that takes the comments in front of it has nothing else in addition. -/
theorem Node.mem_holdings_withLeading {g : CommentGroup} {n : Node}
    (h : x ∈ (n.withLeading g).holdings) : x = .leading n.position g ∨ x ∈ n.holdings := by
  cases n <;>
    simp only [Node.withLeading, Node.holdings, ElementHead.holdings, ElementHead.expressions,
      before, Node.position, Option.toList_some, List.map_cons, List.map_nil, List.mem_append,
      List.mem_singleton] at h ⊢ <;>
    tauto

/-- Where a declaration starts. -/
def Declaration.position : Declaration → Position
  | .component c => c.position
  | .func f => f.position
  | .decl d => d.position

@[simp] theorem Declaration.position_withLeading (g : Option CommentGroup) (d : Declaration) :
    (d.withLeading g).position = d.position := by
  cases d <;> rfl

theorem Declaration.mem_holdings_withLeading {g : Option CommentGroup} {d : Declaration}
    (h : x ∈ (d.withLeading g).holdings) : x ∈ before d.position g ∨ x ∈ d.holdings := by
  cases d <;>
    simp only [Declaration.withLeading, Declaration.holdings, Component.holdings,
      Declaration.position, List.mem_append] at h ⊢ <;>
    tauto

namespace Body

/-- What a part of a body has of the comments. -/
def Part.holdings : Part → List Holding
  | ⟨some g, some n⟩ => .start n.position :: (n.withLeading g).holdings
  | ⟨none, some n⟩ => .start n.position :: n.holdings
  | ⟨some g, none⟩ => [.orphan g]
  | ⟨none, none⟩ => []

theorem mem_holdings_push {p : Part} {b : Body} (h : x ∈ (push p b).holdings) :
    x ∈ p.holdings ∨ x ∈ b.holdings := by
  obtain ⟨_ | g, _ | n⟩ := p <;>
    simp only [push, Part.holdings, Body.holdings, Node.holdingsAll, List.mem_append,
      List.map_cons, List.mem_cons, List.not_mem_nil, Node.position_withLeading] at h ⊢ <;>
    tauto

/-- **A body has the groups of its parts**, and those behind the last one. -/
theorem allOn_ofParts {parts : List Part} {orphans : List CommentGroup}
    (hparts : ∀ p ∈ parts, AllOn D p.holdings) (horphans : ∀ g ∈ orphans, g.IsUnbroken) :
    AllOn D (ofParts parts orphans).holdings := by
  induction parts with
  | nil => exact Holding.allOn_orphans horphans
  | cons p parts ih =>
    rw [List.forall_mem_cons] at hparts
    intro x hx
    rcases mem_holdings_push hx with hx | hx
    · exact hparts.1 x hx
    · exact ih hparts.2 x hx

end Body

end

end Gsx
