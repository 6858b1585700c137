import Gsx.Analysis.LetBinding
import Gsx.Analysis.Validation
/-!
# Linking — what it keeps

Linking turns expressions into references and touches nothing else: a linked
body has the sites of the body, each with its node linked, and so the same
bindings and the same slots. A linked node has no expression left that could
be linked, so linking twice is linking once.
-/

namespace Gsx

/-- A site with its node linked. -/
def Site.link (names : List String) (s : Site) : Site :=
  { s with node := s.node.link names }

mutual

/-- **The sites of a linked node** are the linked sites of the node. -/
theorem Node.sites_link (names : List String) (l c : Bool) :
    ∀ n : Node, (n.link names).sites l c = (n.sites l c).map (Site.link names)
  | .element h cs => by simp [Node.link, Node.sites, Site.link, Node.sitesOf_linkAll names l c cs]
  | .letBinding h e cs => by
    simp [Node.link, Node.sites, Site.link, Node.sitesOf_linkAll names l c cs]
  | .forLoop h b => by simp [Node.link, Node.sites, Site.link, Node.sitesOf_linkAll names true c b]
  | .conditional h t e => by
    simp [Node.link, Node.sites, Site.link, Node.sitesOf_linkAll names l true t,
      Node.sitesOf_linkAll names l true e]
  | .call h cs => by simp [Node.link, Node.sites, Site.link, Node.sitesOf_linkAll names l c cs]
  | .expression e => by
    cases h : e.reference? names <;> simp [Node.link, Node.sites, Site.link, h]
  | .slot _ | .letReference _ | .text _ | .goCode _ => rfl

/-- And those of a linked body. -/
theorem Node.sitesOf_linkAll (names : List String) (l c : Bool) :
    ∀ ns : List Node,
      Node.sitesOf l c (Node.linkAll names ns) = (Node.sitesOf l c ns).map (Site.link names)
  | [] => rfl
  | n :: ns => by
    simp [Node.linkAll, Node.sitesOf, Node.sites_link names l c n,
      Node.sitesOf_linkAll names l c ns]

end

mutual

/-- **Linking is done once.** An expression that is left is no bound name. -/
theorem Node.link_link (names : List String) :
    ∀ n : Node, (n.link names).link names = n.link names
  | .element h cs => by simp [Node.link, Node.linkAll_linkAll names cs]
  | .letBinding h e cs => by simp [Node.link, Node.linkAll_linkAll names cs]
  | .forLoop h b => by simp [Node.link, Node.linkAll_linkAll names b]
  | .conditional h t e => by
    simp [Node.link, Node.linkAll_linkAll names t, Node.linkAll_linkAll names e]
  | .call h cs => by simp [Node.link, Node.linkAll_linkAll names cs]
  | .expression e => by cases h : e.reference? names <;> simp [Node.link, h]
  | .slot _ | .letReference _ | .text _ | .goCode _ => rfl

/-- And so for bodies. -/
theorem Node.linkAll_linkAll (names : List String) :
    ∀ ns : List Node, Node.linkAll names (Node.linkAll names ns) = Node.linkAll names ns
  | [] => rfl
  | n :: ns => by
    simp [Node.linkAll, Node.link_link names n, Node.linkAll_linkAll names ns]

end

/-! ## What a site keeps -/

theorem Site.let?_link (names : List String) (s : Site) : (s.link names).let? = s.let? := by
  obtain ⟨n, l, c⟩ := s
  cases n with
  | expression e => cases h : e.reference? names <;> simp [Site.link, Site.let?, Node.link, h]
  | _ => rfl

theorem Site.isSlot_link (names : List String) (s : Site) :
    (s.link names).isSlot = s.isSlot := by
  obtain ⟨n, l, c⟩ := s
  cases n with
  | expression e => cases h : e.reference? names <;> simp [Site.link, Site.isSlot, Node.link, h]
  | _ => rfl

/-! ## Components -/

namespace Component

/-- A component with its body linked. -/
def link (names : List String) (c : Component) : Component :=
  { c with body := Node.linkAll names c.body }

/-- A component that knows whether it accepts children. -/
def marked (c : Component) : Component :=
  { c with acceptsChildren := c.hasSlot }

theorem sites_link (names : List String) (c : Component) :
    (c.link names).sites = c.sites.map (Site.link names) :=
  Node.sitesOf_linkAll names false false c.body

/-- A linked component binds what the component binds. -/
theorem lets_link (names : List String) (c : Component) : (c.link names).lets = c.lets := by
  rw [lets, sites_link, List.filterMap_map, lets]
  exact congrArg (List.filterMap · c.sites) (funext (Site.let?_link names))

/-- And it has a slot where the component has one. -/
theorem hasSlot_link (names : List String) (c : Component) :
    (c.link names).hasSlot = c.hasSlot := by
  rw [hasSlot, sites_link, List.any_map, hasSlot]
  exact congrArg (List.any c.sites) (funext (Site.isSlot_link names))

theorem link_link (names : List String) (c : Component) :
    (c.link names).link names = c.link names := by
  simp [link, Node.linkAll_linkAll]

/-- A component that is marked and linked stays so when marked again. -/
theorem marked_link_marked (names : List String) (c : Component) :
    (c.marked.link names).marked = c.marked.link names := by
  have h : (c.marked.link names).hasSlot = c.hasSlot := hasSlot_link names c.marked
  rw [marked, h]
  rfl

end Component

end Gsx
