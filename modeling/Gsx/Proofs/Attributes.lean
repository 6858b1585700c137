import Gsx.Proofs.Linking
/-!
# The attributes of a body

All attributes of the elements in a body, those of bound elements included.
Comments and linking leave them as they are, and every element at a site has its
attributes among them.
-/

namespace Gsx

mutual

/-- The attributes of a node and of what is inside it. -/
def Node.attributes : Node → List Attribute
  | .element h cs => h.attributes ++ Node.attributesOf cs
  | .letBinding _ e cs => e.attributes ++ Node.attributesOf cs
  | .forLoop _ b => Node.attributesOf b
  | .conditional _ t e => Node.attributesOf t ++ Node.attributesOf e
  | .call _ cs => Node.attributesOf cs
  | .slot _ | .expression _ | .letReference _ | .text _ | .goCode _ => []

/-- The attributes of a body. -/
def Node.attributesOf : List Node → List Attribute
  | [] => []
  | n :: ns => n.attributes ++ Node.attributesOf ns

end

/-- Comments before a node are none of its attributes. -/
theorem Node.attributes_withLeading (g : CommentGroup) (n : Node) :
    (n.withLeading g).attributes = n.attributes := by
  cases n <;> simp only [Node.withLeading, Node.attributes]

mutual

/-- **Linking keeps the attributes.** -/
theorem Node.attributes_link (names : List String) :
    ∀ n : Node, (n.link names).attributes = n.attributes
  | .element h cs => by simp [Node.link, Node.attributes, Node.attributesOf_linkAll names cs]
  | .letBinding h e cs => by simp [Node.link, Node.attributes, Node.attributesOf_linkAll names cs]
  | .forLoop h b => by simp [Node.link, Node.attributes, Node.attributesOf_linkAll names b]
  | .conditional h t e => by
    simp [Node.link, Node.attributes, Node.attributesOf_linkAll names t,
      Node.attributesOf_linkAll names e]
  | .call h cs => by simp [Node.link, Node.attributes, Node.attributesOf_linkAll names cs]
  | .expression e => by cases h : e.reference? names <;> simp [Node.link, Node.attributes, h]
  | .slot _ | .letReference _ | .text _ | .goCode _ => rfl

theorem Node.attributesOf_linkAll (names : List String) :
    ∀ ns : List Node, Node.attributesOf (Node.linkAll names ns) = Node.attributesOf ns
  | [] => rfl
  | n :: ns => by
    simp [Node.linkAll, Node.attributesOf, Node.attributes_link names n,
      Node.attributesOf_linkAll names ns]

end

/-- The head of the element at a site, also where a `@let` binds it. -/
def Site.head? (s : Site) : Option ElementHead :=
  match s.node with
  | .element h _ => some h
  | .letBinding _ e _ => some e
  | _ => none

mutual

/-- **An element at a site has its attributes in the body.** -/
theorem Node.attributes_subset_of_site {s : Site} {h : ElementHead} (hs : s.head? = some h) :
    ∀ {n : Node} {l c : Bool}, s ∈ n.sites l c → h.attributes ⊆ n.attributes
  | .element h' cs, l, c, hmem => by
    rw [Node.sites] at hmem
    rw [Node.attributes]
    rcases List.mem_cons.1 hmem with rfl | hmem
    · cases hs
      exact List.subset_append_left _ _
    · exact List.subset_append_of_subset_right _ (Node.attributesOf_subset_of_site hs cs hmem)
  | .letBinding _ e cs, l, c, hmem => by
    rw [Node.sites] at hmem
    rw [Node.attributes]
    rcases List.mem_cons.1 hmem with rfl | hmem
    · cases hs
      exact List.subset_append_left _ _
    · exact List.subset_append_of_subset_right _ (Node.attributesOf_subset_of_site hs cs hmem)
  | .forLoop _ b, l, c, hmem => by
    rw [Node.sites] at hmem
    rcases List.mem_cons.1 hmem with rfl | hmem
    · cases hs
    · exact Node.attributesOf_subset_of_site hs b hmem
  | .conditional _ t e, l, c, hmem => by
    rw [Node.sites] at hmem
    rw [Node.attributes]
    rcases List.mem_cons.1 hmem with rfl | hmem
    · cases hs
    · rcases List.mem_append.1 hmem with hmem | hmem
      · exact List.subset_append_of_subset_left _ (Node.attributesOf_subset_of_site hs t hmem)
      · exact List.subset_append_of_subset_right _ (Node.attributesOf_subset_of_site hs e hmem)
  | .call _ cs, l, c, hmem => by
    rw [Node.sites] at hmem
    rcases List.mem_cons.1 hmem with rfl | hmem
    · cases hs
    · exact Node.attributesOf_subset_of_site hs cs hmem
  | .slot _, l, c, hmem | .expression _, l, c, hmem | .letReference _, l, c, hmem
  | .text _, l, c, hmem | .goCode _, l, c, hmem => by
    rw [Node.sites, List.mem_singleton] at hmem
    subst hmem
    cases hs

theorem Node.attributesOf_subset_of_site {s : Site} {h : ElementHead} (hs : s.head? = some h) :
    ∀ (ns : List Node) {l c : Bool}, s ∈ Node.sitesOf l c ns →
      h.attributes ⊆ Node.attributesOf ns
  | [], l, c, hmem => absurd hmem List.not_mem_nil
  | n :: ns, l, c, hmem => by
    rw [Node.sitesOf] at hmem
    rw [Node.attributesOf]
    rcases List.mem_append.1 hmem with hmem | hmem
    · exact List.subset_append_of_subset_left _ (Node.attributes_subset_of_site hs hmem)
    · exact List.subset_append_of_subset_right _ (Node.attributesOf_subset_of_site hs ns hmem)

end

end Gsx
