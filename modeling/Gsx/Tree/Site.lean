import Gsx.Tree.Basic
/-!
# Sites

The nodes of a body in document order, each with what surrounds it. A node
comes before the nodes inside it. The element that a `@let` binds is part of
its binding and no site of its own; its children are sites.
-/

namespace Gsx

/-- A node where it stands: whether inside a loop, and whether inside a
conditional. -/
structure Site where
  node : Node
  inLoop : Bool
  inConditional : Bool
  deriving Repr

mutual

/-- The sites of a node and of what is inside it. -/
def Node.sites (inLoop inConditional : Bool) : Node → List Site
  | .element h cs => ⟨.element h cs, inLoop, inConditional⟩ :: Node.sitesOf inLoop inConditional cs
  | .letBinding h e cs =>
    ⟨.letBinding h e cs, inLoop, inConditional⟩ :: Node.sitesOf inLoop inConditional cs
  | .forLoop h b => ⟨.forLoop h b, inLoop, inConditional⟩ :: Node.sitesOf true inConditional b
  | .conditional h t e =>
    ⟨.conditional h t e, inLoop, inConditional⟩
      :: (Node.sitesOf inLoop true t ++ Node.sitesOf inLoop true e)
  | .call h cs => ⟨.call h cs, inLoop, inConditional⟩ :: Node.sitesOf inLoop inConditional cs
  | .slot s => [⟨.slot s, inLoop, inConditional⟩]
  | .expression e => [⟨.expression e, inLoop, inConditional⟩]
  | .letReference r => [⟨.letReference r, inLoop, inConditional⟩]
  | .text t => [⟨.text t, inLoop, inConditional⟩]
  | .goCode c => [⟨.goCode c, inLoop, inConditional⟩]

/-- The sites of a body. -/
def Node.sitesOf (inLoop inConditional : Bool) : List Node → List Site
  | [] => []
  | n :: ns => n.sites inLoop inConditional ++ Node.sitesOf inLoop inConditional ns

end

/-- The sites of the body of a component. -/
def Component.sites (c : Component) : List Site :=
  Node.sitesOf false false c.body

/-- An element where it stands. -/
structure ElementSite where
  head : ElementHead
  children : List Node
  inLoop : Bool
  inConditional : Bool
  deriving Repr

/-- The element at a site, if one stands there. -/
def Site.element? (s : Site) : Option ElementSite :=
  match s.node with
  | .element h cs => some ⟨h, cs, s.inLoop, s.inConditional⟩
  | _ => none

/-- The elements of a body in document order, but for those that a `@let`
binds. -/
def elementSites (body : List Node) : List ElementSite :=
  (Node.sitesOf false false body).filterMap Site.element?

end Gsx
