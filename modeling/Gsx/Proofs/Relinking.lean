import Mathlib.Data.List.DropRight
import Gsx.Proofs.Grammar.AccountedFiles
import Gsx.Proofs.Isolation
/-!
# What the analysis does to a tree

The analysis links a file: expressions that are nothing but a bound name become
references. To say that it does this in place and does nothing else, a node is
found by its way down the tree; the ways of a file and of the file that the
analysis leaves are the same, and at the end of each stands the same node, but
for those expressions. What is bound and what is referred to can be told by ways
as well as by sites, so the two walks of the analysis, one that collects names
and one that links, come by the same nodes.
-/

namespace Gsx

/-! ## Ways down a tree -/

/-- The bodies of a node, in source order. -/
def Node.bodies : Node → List (List Node)
  | .element _ cs | .letBinding _ _ cs | .call _ cs => [cs]
  | .forLoop _ b => [b]
  | .conditional _ t e => [t, e]
  | .slot _ | .expression _ | .letReference _ | .text _ | .goCode _ => []

/-- The node at the end of a way down: at each node on it the number of the body
to enter, and of the node in that body. -/
def Node.descend? (n : Node) : List (Nat × Nat) → Option Node
  | [] => some n
  | (body, i) :: way =>
    (n.bodies[body]?.bind fun ns => ns[i]?).bind fun inner => inner.descend? way

/-- A place in a file: a component, a node of its body, and the way down from
there. -/
structure NodePlace where
  component : Nat
  node : Nat
  way : List (Nat × Nat)
  deriving DecidableEq, Repr

/-- The node at a place. -/
def SourceFile.node? (f : SourceFile) (p : NodePlace) : Option Node :=
  (f.components[p.component]?.bind fun c => c.body[p.node]?).bind fun n => n.descend? p.way

/-- A node without what is in its bodies. -/
def Node.shell : Node → Node
  | .element h _ => .element h []
  | .letBinding h e _ => .letBinding h e []
  | .forLoop h _ => .forLoop h []
  | .conditional h _ _ => .conditional h [] []
  | .call h _ => .call h []
  | .slot s => .slot s
  | .expression e => .expression e
  | .letReference r => .letReference r
  | .text t => .text t
  | .goCode c => .goCode c

/-- What is to become of a node, its bodies apart: an expression that is one of
some names becomes a reference at its position. -/
def Node.relinked (names : List String) : Node → Node
  | .expression e =>
    if isSimpleIdentifier e.code && names.contains e.code then .letReference ⟨e.code, e.position⟩
    else .expression e
  | n => n.shell

/-- A name is bound at some place of a file. -/
def SourceFile.Binds (f : SourceFile) (name : String) : Prop :=
  ∃ p h e cs, f.node? p = some (.letBinding h e cs) ∧ h.name = name

/-- A name is referred to at some place of a file. -/
def SourceFile.Refers (f : SourceFile) (name : String) : Prop :=
  ∃ p position, f.node? p = some (.letReference ⟨name, position⟩)

section
variable {names : List String} {l c : Bool} {s : Site}

/-! ## Ways and linking -/

theorem Node.linkAll_eq_map (ns : List Node) :
    Node.linkAll names ns = ns.map (Node.link names) := by
  induction ns with
  | nil => rfl
  | cons n ns ih => exact congrArg (n.link names :: ·) ih

theorem Node.bodies_link (n : Node) :
    (n.link names).bodies = n.bodies.map (List.map (Node.link names)) := by
  cases n with
  | expression e => rw [Node.link]; cases e.reference? names <;> rfl
  | _ => simp only [Node.link, Node.bodies, Node.linkAll_eq_map, List.map_cons, List.map_nil]

/-- **Linking keeps the ways**: at the end of each stands the linked node. -/
theorem Node.descend?_link (way : List (Nat × Nat)) (n : Node) :
    (n.link names).descend? way = (n.descend? way).map (Node.link names) := by
  induction way generalizing n with
  | nil => rfl
  | cons step way ih =>
    obtain ⟨body, i⟩ := step
    simp only [Node.descend?, Node.bodies_link, List.getElem?_map]
    cases n.bodies[body]? with
    | none => rfl
    | some ns =>
      simp only [Option.map_some, Option.bind_some, List.getElem?_map]
      cases ns[i]? with
      | none => rfl
      | some inner => exact ih inner

/-- An expression without blank ends is linked as its code says. -/
theorem Node.shell_link {n : Node}
    (htrim : ∀ e, n = .expression e → Text.trim e.code = e.code) :
    (n.link names).shell = n.relinked names := by
  cases n with
  | expression e =>
    have hreference : e.reference? names
        = if isSimpleIdentifier e.code && names.contains e.code then some ⟨e.code, e.position⟩
          else none := by
      rw [GoExpr.reference?, htrim e rfl]
    rw [Node.link, hreference, Node.relinked]
    cases isSimpleIdentifier e.code && names.contains e.code <;> rfl
  | _ => rfl

/-! ## Ways and sites -/

mutual

/-- **A site is at the end of a way.** -/
theorem Node.exists_way : ∀ {n : Node} {l c : Bool}, s ∈ n.sites l c →
    ∃ way, n.descend? way = some s.node
  | .element h cs, l, c, hs => by
    rw [Node.sites] at hs
    rcases List.mem_cons.1 hs with rfl | hs
    · exact ⟨[], rfl⟩
    · obtain ⟨i, way, h⟩ := Node.exists_wayOf cs hs
      exact ⟨(0, i) :: way, h⟩
  | .letBinding h e cs, l, c, hs => by
    rw [Node.sites] at hs
    rcases List.mem_cons.1 hs with rfl | hs
    · exact ⟨[], rfl⟩
    · obtain ⟨i, way, h⟩ := Node.exists_wayOf cs hs
      exact ⟨(0, i) :: way, h⟩
  | .forLoop h b, l, c, hs => by
    rw [Node.sites] at hs
    rcases List.mem_cons.1 hs with rfl | hs
    · exact ⟨[], rfl⟩
    · obtain ⟨i, way, h⟩ := Node.exists_wayOf b hs
      exact ⟨(0, i) :: way, h⟩
  | .conditional h t e, l, c, hs => by
    rw [Node.sites] at hs
    rcases List.mem_cons.1 hs with rfl | hs
    · exact ⟨[], rfl⟩
    · rcases List.mem_append.1 hs with hs | hs
      · obtain ⟨i, way, h⟩ := Node.exists_wayOf t hs
        exact ⟨(0, i) :: way, h⟩
      · obtain ⟨i, way, h⟩ := Node.exists_wayOf e hs
        exact ⟨(1, i) :: way, h⟩
  | .call h cs, l, c, hs => by
    rw [Node.sites] at hs
    rcases List.mem_cons.1 hs with rfl | hs
    · exact ⟨[], rfl⟩
    · obtain ⟨i, way, h⟩ := Node.exists_wayOf cs hs
      exact ⟨(0, i) :: way, h⟩
  | .slot _, l, c, hs | .expression _, l, c, hs | .letReference _, l, c, hs | .text _, l, c, hs
  | .goCode _, l, c, hs => by
    rw [Node.sites, List.mem_singleton] at hs
    exact ⟨[], by rw [hs]; rfl⟩

theorem Node.exists_wayOf : ∀ (ns : List Node) {l c : Bool}, s ∈ Node.sitesOf l c ns →
    ∃ (i : Nat) (way : List (Nat × Nat)), (ns[i]?.bind fun n => n.descend? way) = some s.node
  | [], l, c, hs => absurd hs List.not_mem_nil
  | n :: ns, l, c, hs => by
    rw [Node.sitesOf] at hs
    rcases List.mem_append.1 hs with hs | hs
    · obtain ⟨way, h⟩ := Node.exists_way hs
      exact ⟨0, way, h⟩
    · obtain ⟨i, way, h⟩ := Node.exists_wayOf ns hs
      exact ⟨i + 1, way, by rwa [List.getElem?_cons_succ]⟩

end

/-- The sites of a node in a body are sites of the body. -/
theorem Node.sites_subset_of_mem {n : Node} {ns : List Node} (h : n ∈ ns) :
    n.sites l c ⊆ Node.sitesOf l c ns := by
  induction ns with
  | nil => exact absurd h List.not_mem_nil
  | cons n' ns ih =>
    rw [Node.sitesOf]
    rcases List.mem_cons.1 h with rfl | h
    · exact List.subset_append_left _ _
    · exact List.subset_append_of_subset_right _ (ih h)

/-- The sites of a body of a node are sites of the node. -/
theorem Node.sitesOf_subset_of_mem {n : Node} {ns : List Node} (h : ns ∈ n.bodies) :
    ∃ l' c', Node.sitesOf l' c' ns ⊆ n.sites l c := by
  cases n with
  | element _ cs | letBinding _ _ cs | forLoop _ cs | call _ cs =>
    obtain rfl := List.mem_singleton.1 h
    exact ⟨_, _, List.subset_cons_self _ _⟩
  | conditional _ t e =>
    rcases List.mem_cons.1 h with rfl | h
    · exact ⟨_, _, fun _ hs => List.mem_cons_of_mem _ (List.mem_append_left _ hs)⟩
    · obtain rfl := List.mem_singleton.1 h
      exact ⟨_, _, fun _ hs => List.mem_cons_of_mem _ (List.mem_append_right _ hs)⟩
  | slot | expression | letReference | text | goCode => exact absurd h List.not_mem_nil

/-- **The node at the end of a way is a site.** -/
theorem Node.exists_site {way : List (Nat × Nat)} {n m : Node} (h : n.descend? way = some m)
    (l c : Bool) : ∃ s ∈ n.sites l c, s.node = m := by
  induction way generalizing n l c with
  | nil =>
    cases h
    cases m <;> exact ⟨_, List.mem_cons_self, rfl⟩
  | cons step way ih =>
    obtain ⟨body, i⟩ := step
    obtain ⟨inner, hinner, hway⟩ := Option.bind_eq_some_iff.1 h
    obtain ⟨ns, hns, hmem⟩ := Option.bind_eq_some_iff.1 hinner
    obtain ⟨l', c', hsub⟩ := Node.sitesOf_subset_of_mem (l := l) (c := c)
      (List.mem_of_getElem? hns)
    obtain ⟨s, hs, hnode⟩ := ih hway l' c'
    exact ⟨s, hsub (Node.sites_subset_of_mem (List.mem_of_getElem? hmem) hs), hnode⟩

end

/-- **Places and sites** are of the same nodes. -/
theorem SourceFile.exists_place_iff {f : SourceFile} {n : Node} :
    (∃ p, f.node? p = some n) ↔ ∃ comp ∈ f.components, ∃ s ∈ comp.sites, s.node = n := by
  constructor
  · rintro ⟨⟨k, i, way⟩, hp⟩
    obtain ⟨top, htop, hway⟩ := Option.bind_eq_some_iff.1 hp
    obtain ⟨comp, hcomp, hmem⟩ := Option.bind_eq_some_iff.1 htop
    obtain ⟨s, hs, hnode⟩ := Node.exists_site hway false false
    exact ⟨comp, List.mem_of_getElem? hcomp, s,
      Node.sites_subset_of_mem (List.mem_of_getElem? hmem) hs, hnode⟩
  · rintro ⟨comp, hcomp, s, hs, rfl⟩
    obtain ⟨k, hk⟩ := List.mem_iff_getElem?.1 hcomp
    obtain ⟨i, way, hway⟩ := Node.exists_wayOf comp.body hs
    refine ⟨⟨k, i, way⟩, ?_⟩
    rw [node?, hk]
    exact hway

/-- **The names bound in a file**, told by places. -/
theorem SourceFile.mem_letNames_iff {f : SourceFile} {name : String} :
    name ∈ f.letNames ↔ f.Binds name := by
  rw [mem_letNames]
  constructor
  · rintro ⟨comp, hcomp, h, hh, rfl⟩
    obtain ⟨s, hs, hlet⟩ := List.mem_filterMap.1 hh
    obtain ⟨p, hp⟩ := exists_place_iff.2 ⟨comp, hcomp, s, hs, rfl⟩
    rw [Site.let?] at hlet
    split at hlet
    · next heq =>
      cases hlet
      exact ⟨p, _, _, _, hp.trans (congrArg some heq), rfl⟩
    · cases hlet
  · rintro ⟨p, h, e, cs, hp, rfl⟩
    obtain ⟨comp, hcomp, s, hs, hnode⟩ := exists_place_iff.1 ⟨p, hp⟩
    exact ⟨comp, hcomp, h, List.mem_filterMap.2 ⟨s, hs, by rw [Site.let?, hnode]⟩, rfl⟩

/-- **The names used in a file**, told by places. -/
theorem SourceFile.uses_iff {f : SourceFile} {name : String} :
    (f.components.any fun comp => comp.usedLets.contains name) = true ↔ f.Refers name := by
  rw [List.any_eq_true]
  constructor
  · rintro ⟨comp, hcomp, hused⟩
    obtain ⟨r, hr, rfl⟩ := List.mem_map.1 (List.contains_iff_mem.1 hused)
    obtain ⟨s, hs, href⟩ := List.mem_filterMap.1 hr
    obtain ⟨p, hp⟩ := exists_place_iff.2 ⟨comp, hcomp, s, hs, rfl⟩
    rw [Site.letReference?] at href
    split at href
    · next heq =>
      cases href
      exact ⟨p, _, hp.trans (congrArg some heq)⟩
    · cases href
  · rintro ⟨p, position, hp⟩
    obtain ⟨comp, hcomp, s, hs, hnode⟩ := exists_place_iff.1 ⟨p, hp⟩
    refine ⟨comp, hcomp, List.contains_iff_mem.2 (List.mem_map.2 ⟨⟨name, position⟩, ?_, rfl⟩)⟩
    exact List.mem_filterMap.2 ⟨s, hs, by rw [Site.letReference?, hnode]⟩

/-! ## Trees that are read -/

/-- A text without blank ends has none to lose. -/
theorem Text.trimList_trimList (cs : List Char) : trimList (trimList cs) = trimList cs := by
  have hprefix : trimList cs <+: cs.dropWhile isBlank := by
    rw [trimList, ← List.reverse_suffix, List.reverse_reverse]
    exact List.dropWhile_suffix _
  have hfront : (trimList cs).dropWhile isBlank = trimList cs := by
    rw [List.dropWhile_eq_self_iff]
    intro hlength
    have hlonger := hlength.trans_le hprefix.length_le
    have hhead : (trimList cs)[0] = (cs.dropWhile isBlank)[0] := hprefix.getElem hlength
    rw [hhead]
    exact List.dropWhile_get_zero_not isBlank cs hlonger
  have hback : (trimList cs).reverse.dropWhile isBlank = (trimList cs).reverse := by
    rw [trimList, List.reverse_reverse, List.dropWhile_idempotent]
  rw [trimList, hfront, hback, List.reverse_reverse]

theorem Text.trim_trim (s : String) : trim (trim s) = trim s := by
  rw [trim, trim, String.toList_ofList, trimList_trimList]

/-- A node as an event of the outline, where it starts. -/
def Node.mark : Node → Mark
  | .element h _ => ⟨.element, h.position, h.tag⟩
  | .letBinding h _ _ => ⟨.binding, h.position, h.name⟩
  | .forLoop h _ => ⟨.loop, h.position, h.value⟩
  | .conditional h _ _ => ⟨.conditional, h.position, h.condition⟩
  | .call h _ => ⟨.call, h.position, h.name⟩
  | .slot s => ⟨.slot, s.position, "children..."⟩
  | .expression e => ⟨.expression, e.position, e.code⟩
  | .letReference r => ⟨.reference, r.position, r.name⟩
  | .text t => ⟨.text, t.position, t.text⟩
  | .goCode c => ⟨.statement, c.position, c.code⟩

section
variable {s : Site}

mutual

/-- **The node at a site is in the outline.** -/
theorem Node.mark_mem : ∀ {n : Node} {l c : Bool}, s ∈ n.sites l c →
    .node s.node.mark ∈ n.outline
  | .element h cs, l, c, hs => by
    rw [Node.sites] at hs
    rw [Node.outline]
    rcases List.mem_cons.1 hs with rfl | hs
    · exact List.mem_cons_self
    · exact List.mem_append_left _ (List.mem_append_right _ (Node.mark_memOf cs hs))
  | .letBinding h e cs, l, c, hs => by
    rw [Node.sites] at hs
    rw [Node.outline]
    rcases List.mem_cons.1 hs with rfl | hs
    · exact List.mem_cons_self
    · exact List.mem_cons_of_mem _
        (List.mem_append_left _ (List.mem_append_right _ (Node.mark_memOf cs hs)))
  | .forLoop h b, l, c, hs => by
    rw [Node.sites] at hs
    rw [Node.outline]
    rcases List.mem_cons.1 hs with rfl | hs
    · exact List.mem_cons_self
    · exact List.mem_cons_of_mem _ (List.mem_cons_of_mem _ (Node.mark_memOf b hs))
  | .conditional h t e, l, c, hs => by
    rw [Node.sites] at hs
    rw [Node.outline]
    rcases List.mem_cons.1 hs with rfl | hs
    · exact List.mem_cons_self
    · refine List.mem_cons_of_mem _ (List.mem_cons_of_mem _ ?_)
      exact List.mem_append.2 ((List.mem_append.1 hs).imp (Node.mark_memOf t) (Node.mark_memOf e))
  | .call h cs, l, c, hs => by
    rw [Node.sites] at hs
    rw [Node.outline]
    rcases List.mem_cons.1 hs with rfl | hs
    · exact List.mem_cons_self
    · exact List.mem_cons_of_mem _ (List.mem_cons_of_mem _ (Node.mark_memOf cs hs))
  | .slot _, l, c, hs | .expression _, l, c, hs | .letReference _, l, c, hs | .text _, l, c, hs
  | .goCode _, l, c, hs => by
    rw [Node.sites, List.mem_singleton] at hs
    rw [hs]
    exact List.mem_singleton_self _

theorem Node.mark_memOf : ∀ (ns : List Node) {l c : Bool}, s ∈ Node.sitesOf l c ns →
    .node s.node.mark ∈ Node.outlineOf ns
  | [], l, c, hs => absurd hs List.not_mem_nil
  | n :: ns, l, c, hs => by
    rw [Node.sitesOf] at hs
    rw [Node.outlineOf]
    exact List.mem_append.2 ((List.mem_append.1 hs).imp Node.mark_mem (Node.mark_memOf ns))

end

end

/-- What is between braces is kept without blank ends. -/
theorem Item.trim_of_bears {i : Item} {mark : Mark} (h : i.Bears mark)
    (hsign : mark.sign = .expression) : Text.trim mark.text = mark.text := by
  obtain ⟨sign, p, text⟩ := mark
  obtain rfl : sign = .expression := hsign
  cases i with
  | token t next => exact h.2.elim
  | capture first code => exact h.2.2.elim
  | braces first code =>
    obtain ⟨-, -, rfl⟩ := h
    exact Text.trim_trim _
  | fault => exact h.elim

/-- Nothing in a source is a reference. -/
theorem Item.not_bears_reference {i : Item} {mark : Mark} (hsign : mark.sign = .reference) :
    ¬i.Bears mark := by
  obtain ⟨sign, p, text⟩ := mark
  obtain rfl : sign = .reference := hsign
  intro h
  cases i with
  | token t next => exact h.2
  | capture first code => exact h.2.2
  | braces first code => exact h.2.1.elim nofun nofun
  | fault => exact h

/-- **A file that was read** has its expressions without blank ends, and no
reference yet. -/
structure SourceFile.IsFresh (f : SourceFile) : Prop where
  trimmed : ∀ p e, f.node? p = some (.expression e) → Text.trim e.code = e.code
  unlinked : ∀ p r, f.node? p ≠ some (.letReference r)

theorem SourceFile.isFresh_of_read {name source : String} {r : Reading}
    (hread : SourceFile.read name source = .ok r) {f : SourceFile} (hfile : r.file = some f) :
    f.IsFresh := by
  obtain ⟨is, m, -, haccounts, -⟩ := exists_route hread
  obtain ⟨ds, hds, hcomponents, -, -⟩ := haccounts f hfile
  obtain ⟨js, -, hall⟩ := hds.marks
  have hborne : ∀ p n, f.node? p = some n → ∃ i : Item, i.Bears n.mark := fun p n hp => by
    obtain ⟨comp, hcomp, s, hs, rfl⟩ := exists_place_iff.1 ⟨p, hp⟩
    rw [hcomponents] at hcomp
    obtain ⟨d, hd, hdc⟩ := List.mem_filterMap.1 hcomp
    have hmark : s.node.mark ∈ (ds.flatMap Declaration.outline).filterMap Event.mark? := by
      refine List.mem_filterMap.2 ⟨.node s.node.mark, List.mem_flatMap.2 ⟨d, hd, ?_⟩, rfl⟩
      cases d <;> cases hdc
      exact List.mem_cons_of_mem _ (List.mem_append_right _ (Node.mark_memOf _ hs))
    obtain ⟨k, hk, heq⟩ := List.mem_iff_getElem.1 hmark
    have hbears := hall.get (hall.length_eq ▸ hk) hk
    rw [List.get_eq_getElem, List.get_eq_getElem, heq] at hbears
    exact ⟨_, hbears⟩
  constructor
  · intro p e hp
    obtain ⟨i, hbears⟩ := hborne p _ hp
    have htrim := Item.trim_of_bears hbears rfl
    exact htrim
  · intro p ref hp
    obtain ⟨i, hbears⟩ := hborne p _ hp
    exact Item.not_bears_reference rfl hbears

/-! ## Bindings that repeat a name -/

theorem LetHead.repeated_append (seen : List String) (hs : List LetHead) (h : LetHead) :
    repeated seen (hs ++ [h])
      = repeated seen hs ++ if h.name ∈ seen ++ hs.map (·.name) then [h] else [] := by
  induction hs generalizing seen with
  | nil =>
    by_cases hseen : h.name ∈ seen <;> simp [repeated, hseen]
  | cons first hs ih =>
    have hiff : h.name ∈ (first.name :: seen) ++ hs.map (·.name)
        ↔ h.name ∈ seen ++ (first :: hs).map (·.name) := by
      simp only [List.mem_append, List.mem_cons, List.map_cons]
      tauto
    rw [List.cons_append, repeated, repeated]
    split
    · next hseen =>
      -- a name that has been seen adds nothing to those seen
      have hmem : first.name ∈ seen := List.contains_iff_mem.1 hseen
      rw [ih, List.cons_append]
      refine congrArg (first :: repeated seen hs ++ ·) (if_congr ?_ rfl rfl)
      rw [← hiff, List.cons_append, List.mem_cons]
      exact ⟨.inr, fun h => h.elim (fun heq => heq ▸ List.mem_append_left _ hmem) id⟩
    · rw [ih]
      exact congrArg (repeated (first.name :: seen) hs ++ ·) (if_congr hiff rfl rfl)

/-- The binding with a number among some bindings, if its name is bound by one
in front of it. -/
def LetHead.repeatedAt? (hs : List LetHead) (i : Nat) : Option LetHead :=
  hs[i]?.filter fun h => h.name ∈ (hs.take i).map (·.name)

/-- **The repeated bindings, told one by one.** -/
theorem LetHead.repeated_eq (hs : List LetHead) :
    repeated [] hs = (List.range hs.length).filterMap (repeatedAt? hs) := by
  induction hs using List.reverseRecOn with
  | nil => rfl
  | append_singleton hs h ih =>
    have hfront : ∀ i ∈ List.range hs.length, repeatedAt? (hs ++ [h]) i = repeatedAt? hs i :=
      fun i hi => by
        have hlt := List.mem_range.1 hi
        rw [repeatedAt?, List.getElem?_append_left hlt, List.take_append_of_le_length hlt.le]
        rfl
    have hlast : repeatedAt? (hs ++ [h]) hs.length
        = if h.name ∈ hs.map (·.name) then some h else none := by
      rw [repeatedAt?, List.getElem?_concat_length, List.take_left, Option.filter_some]
      simp only [decide_eq_true_eq]
    rw [repeated_append, List.nil_append, List.length_append, List.length_singleton,
      List.range_succ, List.filterMap_append, List.filterMap_congr hfront, ← ih]
    refine congrArg (repeated [] hs ++ ·) ?_
    rw [List.filterMap_cons, hlast]
    split <;> rfl

/-! ## What else is reported -/

/-- Whether a diagnostic is about a binding that repeats a name. -/
def Diagnostic.isRepeatedLet (d : Diagnostic) : Bool :=
  "duplicate @let binding".toList.isPrefixOf d.message.toList

/-- How the other messages of the analysis begin. -/
def Diagnostic.otherBeginnings : List String :=
  ["invalid ref name", "ref name", "duplicate ref name", "key attribute", "unknown", "<",
    "component", "deps attribute", "empty deps"]

/-- A diagnostic of the analysis about something else. -/
def Diagnostic.IsOther (d : Diagnostic) : Prop :=
  ∃ b ∈ otherBeginnings, b.toList <+: d.message.toList

theorem Diagnostic.IsOther.not_isRepeatedLet {d : Diagnostic} (h : d.IsOther) :
    d.isRepeatedLet = false := by
  obtain ⟨b, hb, hprefix⟩ := h
  rw [isRepeatedLet, Bool.eq_false_iff, Ne, List.isPrefixOf_iff_prefix]
  intro hlet
  -- of two beginnings of one text the shorter one begins the longer one
  have hnone : ∀ b ∈ otherBeginnings, ¬b.toList <+: "duplicate @let binding".toList
      ∧ ¬"duplicate @let binding".toList <+: b.toList := by decide
  rcases le_total b.toList.length "duplicate @let binding".toList.length with hle | hle
  · exact (hnone b hb).1 (List.prefix_of_prefix_length_le hprefix hlet hle)
  · exact (hnone b hb).2 (List.prefix_of_prefix_length_le hlet hprefix hle)

/-- A text begins as its front does. -/
theorem begins_append {b front : String} (h : b.toList <+: front.toList) (back : String) :
    b.toList <+: (front ++ back).toList := by
  rw [String.toList_append]
  exact h.trans (List.prefix_append _ _)

theorem RefFault.isOther (file : String) (p : Position) (fault : RefFault) :
    (Diagnostic.error file p (fault.message file)).IsOther := by
  cases fault with
  | invalidName name =>
    exact ⟨"invalid ref name", by decide, begins_append (begins_append (by decide) name) _⟩
  | reserved name =>
    exact ⟨"ref name", by decide, begins_append (begins_append (by decide) name) _⟩
  | duplicate name first =>
    exact ⟨"duplicate ref name", by decide, begins_append
      (begins_append (begins_append (begins_append (by decide) name) _) (first.describe file)) _⟩
  | keyOutsideLoop name =>
    exact ⟨"key attribute", by decide, begins_append (begins_append (by decide) name) _⟩

theorem NamedRef.isOther_of_ofBody {file : String} {body : List Node} {d : Diagnostic}
    (h : d ∈ (ofBody file body).diagnostics) : d.IsOther := by
  have hadd : ∀ t : Table, (∀ d ∈ t.diagnostics, d.IsOther) →
      ∀ e, ∀ d ∈ (t.add file e).diagnostics, d.IsOther := fun t ht e d hd => by
    rw [Table.add] at hd
    split at hd
    · exact ht d hd
    · split at hd
      · exact ht d hd
      · rcases List.mem_append.1 hd with hd | hd
        · exact ht d hd
        · rw [List.mem_singleton.1 hd]
          exact RefFault.isOther _ _ _
  have hall := List.foldlRecOn (elementSites body) (Table.add file)
    (motive := fun t : Table => ∀ d ∈ t.diagnostics, d.IsOther) (b := ⟨[], []⟩)
    (fun _ hd => absurd hd List.not_mem_nil) fun t ht e _ => hadd t ht e
  exact hall d h

namespace Validation

variable {r : Rules} {d : Diagnostic}

theorem isOther_of_tagErrors {e : ElementHead} {cs : List Node} (h : d ∈ tagErrors r e cs) :
    d.IsOther := by
  rw [tagErrors] at h
  rcases List.mem_append.1 h with h | h
  · split at h
    · exact absurd h List.not_mem_nil
    · rw [List.mem_singleton.1 h]
      exact ⟨"unknown", by decide, begins_append (begins_append (by decide) e.tag) _⟩
  · split at h
    · rw [List.mem_singleton.1 h]
      exact ⟨"<", by decide, begins_append (begins_append (by decide) e.tag) _⟩
    · exact absurd h List.not_mem_nil

theorem isOther_of_callErrors {head : CallHead} {cs : List Node} (h : d ∈ callErrors r head cs) :
    d.IsOther := by
  rw [callErrors] at h
  split at h
  · rw [List.mem_singleton.1 h]
    exact ⟨"component", by decide, begins_append (begins_append (by decide) head.name) _⟩
  · exact absurd h List.not_mem_nil

theorem isOther_of_classErrors {start : Position} {classes : String} {ds : List Diagnostic}
    (hds : classErrors r start classes = .ok ds) (h : d ∈ ds) : d.IsOther := by
  rcases classErrors_cases hds with ⟨-, placed, -, rfl⟩ | ⟨-, rfl⟩
  · obtain ⟨c, -, rfl⟩ := List.mem_map.1 h
    exact ⟨"unknown", by decide, begins_append (begins_append (by decide) c.check.cls) _⟩
  · exact absurd h List.not_mem_nil

theorem isOther_of_attributeFindings {a : Attribute} {found : List Diagnostic × Bool}
    (hfound : attributeFindings r a = .ok found) (h : d ∈ found.1) : d.IsOther := by
  rcases attributeFindings_cases hfound with
    ⟨-, rfl⟩ | ⟨-, -, rfl⟩ | ⟨classes, translated, errors, -, -, -, herrors, rfl⟩
  · rw [List.mem_singleton.1 h]
    exact ⟨"unknown", by decide, begins_append (by decide) a.name⟩
  · exact absurd h List.not_mem_nil
  · exact isOther_of_classErrors herrors h

theorem isOther_of_elementFindings {e : ElementHead} {cs : List Node}
    {found : List Diagnostic × Bool} (hfound : elementFindings r e cs = .ok found)
    (h : d ∈ found.1) : d.IsOther := by
  obtain ⟨each, hwalk, rfl⟩ := exists_of_elementFindings hfound
  rcases List.mem_append.1 h with h | h
  · exact isOther_of_tagErrors h
  · obtain ⟨found, hmem, hd⟩ := List.mem_flatMap.1 h
    obtain ⟨a, ha⟩ := exists_of_mapM hwalk found hmem
    exact isOther_of_attributeFindings ha hd

/-- What is found at a site is about no binding. -/
theorem isOther_of_findingsAt {s : Site} (h : d ∈ (findingsAt r s).1) : d.IsOther := by
  rw [findingsAt] at h
  split at h
  · next found hfound =>
    obtain ⟨n, l, c⟩ := s
    cases n with
    | element head cs => exact isOther_of_elementFindings hfound h
    | letBinding _ head cs => exact isOther_of_elementFindings hfound h
    | call head cs =>
      cases hfound
      exact isOther_of_callErrors h
    | forLoop | conditional | slot | expression | letReference | text | goCode =>
      cases hfound
      exact absurd h List.not_mem_nil
  · exact absurd h List.not_mem_nil

end Validation

theorem Deps.isOther_of_diagnostics {file : String} {known : List String} {e : ElementHead}
    {d : Diagnostic} (h : d ∈ diagnostics file known e) : d.IsOther := by
  rw [diagnostics] at h
  split at h
  · obtain ⟨fault, -, rfl⟩ := List.mem_map.1 h
    cases fault with
    | notAnExpression =>
      refine ⟨"deps attribute", by decide, ?_⟩
      simp only [DepsFault.diagnostic, Diagnostic.error]
      decide
    | notAnArray =>
      refine ⟨"deps attribute", by decide, ?_⟩
      simp only [DepsFault.diagnostic, Diagnostic.error]
      decide
    | empty =>
      refine ⟨"empty deps", by decide, ?_⟩
      simp only [DepsFault.diagnostic, Diagnostic.warning]
      decide
    | unknown name =>
      exact ⟨"unknown", by decide, begins_append (begins_append (by decide) name) _⟩
  · exact absurd h List.not_mem_nil

/-! ## What the analysis leaves, and what it finds -/

/-- The errors for the bindings of a component whose name is already bound
there. -/
def Component.repetitions (file : String) (c : Component) : List Diagnostic :=
  ((List.range c.lets.length).filterMap (LetHead.repeatedAt? c.lets)).map fun h =>
    .error file h.position ("duplicate @let binding \"" ++ h.name ++ "\"")

/-- **A file and what linking it in place makes of it**: components keep all but
their bodies and what is known of their slots; imports may be added; and each
place has the node that it had, but for expressions that are bound names. -/
structure SourceFile.LinkedInPlace (f f' : SourceFile) : Prop where
  frame : ∃ added, f' = { f.withImports added with components := f'.components }
  components : List.Forall₂
    (fun c c' => c' = { c with body := c'.body, acceptsChildren := c'.acceptsChildren })
    f.components f'.components
  places : ∀ p, (f'.node? p).map Node.shell = (f.node? p).map (Node.relinked f.letNames)

namespace Analysis

variable {c : Config} {f : SourceFile}

theorem step_components (c : Config) (f : SourceFile) :
    (step c f).2.components = f.components.map fun comp => comp.marked.link f.letNames := by
  rw [step_file]
  exact f.prepare_components

/-- **At each place the analysis leaves the linked node.** -/
theorem node?_step (c : Config) (f : SourceFile) (p : NodePlace) :
    (step c f).2.node? p = (f.node? p).map (Node.link f.letNames) := by
  simp only [SourceFile.node?, step_components, List.getElem?_map]
  cases f.components[p.component]? with
  | none => rfl
  | some comp =>
    have hbody : (comp.marked.link f.letNames).body = comp.body.map (Node.link f.letNames) :=
      Node.linkAll_eq_map comp.body
    simp only [Option.map_some, Option.bind_some, hbody, List.getElem?_map]
    cases comp.body[p.node]? with
    | none => rfl
    | some n => exact Node.descend?_link p.way n

/-- **The analysis links in place.** -/
theorem linkedInPlace_step (c : Config) (hfresh : f.IsFresh) :
    f.LinkedInPlace (step c f).2 := by
  refine ⟨⟨PackageUse.missing (f.imports.map (·.path)) (required f c), ?_⟩, ?_, fun p => ?_⟩
  · rw [step_file]
    rfl
  · rw [step_components, List.forall₂_map_right_iff]
    exact List.forall₂_same.2 fun comp _ => rfl
  · rw [node?_step, Option.map_map]
    cases hp : f.node? p with
    | none => rfl
    | some n =>
      refine congrArg some (Node.shell_link fun e he => hfresh.trimmed p e ?_)
      rw [hp, he]

/-- The errors about repeated bindings are those of the components. -/
theorem filter_diagnosticsOf (c : Config) (f : SourceFile) :
    (diagnosticsOf c f).filter Diagnostic.isRepeatedLet
      = f.components.flatMap (Component.repetitions f.name) := by
  have hrepeated : f.prepare.components.flatMap (Component.repeatedLets f.name)
      = f.components.flatMap (Component.repetitions f.name) := by
    rw [SourceFile.prepare_components, List.flatMap_map]
    refine congrArg (List.flatMap · f.components) (funext fun comp => ?_)
    rw [Component.repeatedLets, Component.lets_link, LetHead.repeated_eq]
    rfl
  have htold : ∀ d ∈ f.components.flatMap (Component.repetitions f.name), d.isRepeatedLet := by
    intro d hd
    obtain ⟨comp, -, hd⟩ := List.mem_flatMap.1 hd
    obtain ⟨h, -, rfl⟩ := List.mem_map.1 hd
    rw [Diagnostic.isRepeatedLet, List.isPrefixOf_iff_prefix]
    exact begins_append (begins_append (by decide) h.name) _
  have hother : ∀ ds : List Diagnostic, (∀ d ∈ ds, d.IsOther) →
      ds.filter Diagnostic.isRepeatedLet = [] := fun ds hds =>
    List.filter_eq_nil_iff.2 fun d hd => by
      rw [(hds d hd).not_isRepeatedLet]
      exact Bool.false_ne_true
  rw [diagnosticsOf, List.filter_append, List.filter_append, List.filter_append, hrepeated,
    List.filter_eq_self.2 htold, hother, hother, hother, List.append_nil, List.append_nil,
    List.append_nil]
  · intro d hd
    obtain ⟨comp, -, hd⟩ := List.mem_flatMap.1 hd
    obtain ⟨e, -, hd⟩ := List.mem_flatMap.1 hd
    exact Deps.isOther_of_diagnostics hd
  · intro d hd
    obtain ⟨s, -, hd⟩ := List.mem_flatMap.1 hd
    exact Validation.isOther_of_findingsAt hd
  · intro d hd
    obtain ⟨comp, -, hd⟩ := List.mem_flatMap.1 hd
    exact NamedRef.isOther_of_ofBody hd

/-- No expression that is a bound name is left. -/
theorem not_binds_of_step (hfresh : f.IsFresh) {p : NodePlace} {e : GoExpr}
    (hp : (step c f).2.node? p = some (.expression e)) (hname : isSimpleIdentifier e.code) :
    ¬f.Binds e.code := by
  intro hbinds
  have hplace := (linkedInPlace_step c hfresh).places p
  rw [hp] at hplace
  cases hbefore : f.node? p with
  | none =>
    rw [hbefore] at hplace
    cases hplace
  | some n =>
    rw [hbefore] at hplace
    have hshell : Node.expression e = n.relinked f.letNames := Option.some.inj hplace
    cases n with
    | expression e' =>
      rw [Node.relinked] at hshell
      split at hshell
      · cases hshell
      · next hnot =>
        cases hshell
        refine hnot (Bool.and_eq_true_iff.2 ⟨hname, ?_⟩)
        exact List.contains_iff_mem.2 (SourceFile.mem_letNames_iff.2 hbinds)
    | _ => cases hshell

/-- The names told of are those of the linked file. -/
theorem lets_of_ofFile {a : Analysis} (h : ofFile c f = .ok a) : a.lets = f.prepare.letUses := by
  obtain ⟨found, -, h⟩ := bind_eq_ok_iff.1 h
  cases h
  rfl

/-- **What the analysis does to a file that was read, and what it finds there of
bindings.** It links the file in place: expressions that are a name bound
somewhere in the file become references, and nothing else of the file changes but
slots that are marked and imports that are added. No such expression is left.
The names told of are those that are bound, each with whether a reference to it
is in the file; and there is an error for each binding whose name is bound in
front of it in its component, and no other of this kind. -/
theorem links_bound_names {name source : String} {r : Reading}
    (hread : SourceFile.read name source = .ok r) {f : SourceFile} (hfile : r.file = some f)
    (c : Config) :
    f.LinkedInPlace (step c f).2 ∧ (∀ name, name ∈ f.letNames ↔ f.Binds name)
      ∧ (∀ p e, (step c f).2.node? p = some (.expression e) → isSimpleIdentifier e.code →
          ¬f.Binds e.code)
      ∧ ∀ a, (step c f).1 = .ok a →
          (a.lets.map (·.1)).Nodup ∧ (∀ name, name ∈ a.lets.map (·.1) ↔ f.Binds name)
          ∧ (∀ name used, (name, used) ∈ a.lets → (used ↔ (step c f).2.Refers name))
          ∧ a.diagnostics.filter Diagnostic.isRepeatedLet
              = f.components.flatMap (Component.repetitions f.name) := by
  have hfresh := SourceFile.isFresh_of_read hread hfile
  refine ⟨linkedInPlace_step c hfresh, fun _ => SourceFile.mem_letNames_iff,
    fun p e hp hname => not_binds_of_step hfresh hp hname, fun a ha => ?_⟩
  rw [step_result] at ha
  have hkeys : a.lets.map (·.1) = f.letNames := by
    rw [lets_of_ofFile ha, SourceFile.letUses, List.map_map, SourceFile.letNames_prepare]
    exact List.map_id _
  refine ⟨hkeys ▸ nodup_firstOccurrences _, fun _ => hkeys ▸ SourceFile.mem_letNames_iff,
    fun name used hused => ?_, ?_⟩
  · rw [lets_of_ofFile ha, SourceFile.letUses] at hused
    obtain ⟨_, -, heq⟩ := List.mem_map.1 hused
    cases heq
    rw [SourceFile.uses_iff]
    simp only [SourceFile.Refers, step_file]
    rfl
  · rw [(ofFile_inv ha).1]
    exact filter_diagnosticsOf c f

/-- A source with a name that is bound twice, and used in a loop and in a
condition. -/
def boundTwice : String :=
  "package x\n\n@component Page(vs []int) \x7b\n\t@let title = <b>\x7bn\x7d</b>\n\t@let title = <i>\x7btitle\x7d</i>\n\t@for _, v := range vs \x7b\n\t\t\x7btitle\x7d\n\t\x7d\n\t@if ok \x7b\n\t\t\x7bv\x7d\n\t\x7d @else \x7b\n\t\t\x7b title \x7d\n\t\x7d\n\x7d\n"

/-- It is linked in place. -/
theorem links_bound_names_boundTwice :
    ∃ r f, SourceFile.read "" boundTwice = .ok r ∧ r.file = some f ∧ f.letNames = ["title"]
      ∧ (f.components.flatMap (Component.repetitions f.name)).length = 1
      ∧ f.LinkedInPlace (step .standard f).2 ∧ (∀ name, name ∈ f.letNames ↔ f.Binds name)
      ∧ (∀ p e, (step .standard f).2.node? p = some (.expression e) → isSimpleIdentifier e.code →
          ¬f.Binds e.code)
      ∧ ∀ a, (step .standard f).1 = .ok a →
          (a.lets.map (·.1)).Nodup ∧ (∀ name, name ∈ a.lets.map (·.1) ↔ f.Binds name)
          ∧ (∀ name used, (name, used) ∈ a.lets → (used ↔ (step .standard f).2.Refers name))
          ∧ a.diagnostics.filter Diagnostic.isRepeatedLet
              = f.components.flatMap (Component.repetitions f.name) := by
  have hrun : (SourceFile.read "" boundTwice).toOption.any (fun r => r.file.any fun f =>
      f.letNames == ["title"]
        && (f.components.flatMap (Component.repetitions f.name)).length == 1) = true := by
    decide +kernel
  cases hread : SourceFile.read "" boundTwice with
  | error i =>
    rw [hread] at hrun
    cases hrun
  | ok r =>
    rw [hread] at hrun
    change r.file.any _ = true at hrun
    obtain ⟨f, hfile, hfound⟩ := (Option.any_eq_true _ _).1 hrun
    obtain ⟨hnames, hlength⟩ := Bool.and_eq_true_iff.1 hfound
    exact ⟨r, f, rfl, hfile, eq_of_beq hnames, eq_of_beq hlength,
      links_bound_names hread hfile .standard⟩

end Analysis

end Gsx
