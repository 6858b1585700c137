import Mathlib.Data.List.Forall2
import Gsx.State.Binding
/-!
# Naming and detection in step

The elements of a body are named in one walk and their bindings found in
another, and here each of the two is a walk of its own. Naming carries the
counter along and gives a table. Detection has nothing but the table: it looks
up an element by its place in the tree, and the name of a text child by its
index among the text children. Either look-up may fail.

None does. `node_follows` takes the two walks through a tree together:
detection visits what naming has put into the table, in the same order, and
finds for every visit the entry of that very element. What the visits find,
taken together, are the bindings of the body as `StateBinding.ofBody` has them,
which knows no table.
-/

namespace Gsx

/-- Where a node stands in a body: the way to it, last step first. -/
abbrev Place := List Nat

/-- An entry of the table of names: the place of an element, and its names. -/
structure NamedPlace where
  place : Place
  names : ElementName
  deriving Repr

/-! ## Naming -/

namespace Naming

mutual

/-- Names the elements of a node from a number on; gives the next number too. -/
def node (c : Config) (inLoop inConditional : Bool) (place : Place) (next : Nat) :
    Node → List NamedPlace × Nat
  | .element h cs =>
    let n := ElementName.assign c next ⟨h, cs, inLoop, inConditional⟩
    let (inner, next) := nodes c inLoop inConditional place 0 (next + n.size) cs
    (⟨place, n⟩ :: inner, next)
  | .letBinding _ _ cs => nodes c inLoop inConditional place 0 next cs
  | .forLoop _ b => nodes c true inConditional place 0 next b
  | .conditional _ t e =>
    let (named, next) := nodes c inLoop true (0 :: place) 0 next t
    let (named', next) := nodes c inLoop true (1 :: place) 0 next e
    (named ++ named', next)
  | .call _ cs => nodes c inLoop inConditional place 0 next cs
  | .slot _ | .expression _ | .letReference _ | .text _ | .goCode _ => ([], next)

/-- Names the elements of the nodes at a place, the first of which has the
index `index` there. -/
def nodes (c : Config) (inLoop inConditional : Bool) (place : Place) (index next : Nat) :
    List Node → List NamedPlace × Nat
  | [] => ([], next)
  | n :: ns =>
    let (named, next) := node c inLoop inConditional (index :: place) next n
    let (named', next) := nodes c inLoop inConditional place (index + 1) next ns
    (named ++ named', next)

end

/-- The table of the names of a body. -/
def table (c : Config) (body : List Node) : List NamedPlace :=
  (nodes c false false [] 0 0 body).1

/-- The names of the element at a place. -/
def lookup (table : List NamedPlace) (place : Place) : Option ElementName :=
  (table.find? (·.place = place)).map (·.names)

end Naming

/-! ## Detection -/

/-- Which name a text child goes by: that of its element, or one of its own. -/
inductive TextTarget where
  | own
  | child (index : Nat)
  deriving DecidableEq, Repr

/-- The look-ups that detection makes. -/
inductive LookupFault where
  | unnamed (place : Place)
  | noTarget (place : Place) (index : Nat)
  deriving DecidableEq, Repr

/-- A binding of the text child with an index among the text children. -/
structure BoundText where
  index : Nat
  target : TextTarget
  binding : StateBinding
  deriving Repr

/-- An element that detection has visited, and its bindings. -/
structure Visit where
  place : Place
  site : ElementSite
  texts : List BoundText
  cls : Option StateBinding
  deriving Repr

/-- The bindings of a visited element. -/
def Visit.bindings (v : Visit) : List StateBinding :=
  v.texts.map (·.binding) ++ v.cls.toList

/-- The name that a text child goes by: an element without names for its text
children lends them its own. -/
def TextTarget.of (n : ElementName) (index : Nat) : TextTarget :=
  if n.targets.isEmpty then .own else .child index

/-- Looks up a name. -/
def TextTarget.name? (n : ElementName) : TextTarget → Option String
  | .own => some n.name
  | .child index => n.targets[index]?

namespace Detection

/-- A look-up that has to succeed. -/
def found (fault : LookupFault) : Option α → Except LookupFault α
  | some a => .ok a
  | none => .error fault

/-- The binding of a text child that goes by a name. -/
def textBinding? (c : Config) (known : List String) (n : ElementName) (child : Node)
    (name : String) : Option StateBinding :=
  child.code?.bind (StateBinding.ofProperty? c known n name .text)

/-- The bindings of text children, the first of which has the index `index`. -/
def texts (c : Config) (known : List String) (place : Place) (n : ElementName) (index : Nat) :
    List Node → Except LookupFault (List BoundText)
  | [] => .ok []
  | child :: rest =>
    if child.isTextual then do
      let target := TextTarget.of n index
      let name ← found (.noTarget place index) (target.name? n)
      let more ← texts c known place n (index + 1) rest
      return ((textBinding? c known n child name).map (⟨index, target, ·⟩)).toList ++ more
    else texts c known place n index rest

/-- Visits an element. One in a loop has no bindings and is not looked up. -/
def visit (c : Config) (known : List String) (table : List NamedPlace) (place : Place)
    (e : ElementSite) : Except LookupFault Visit :=
  if e.inLoop then .ok ⟨place, e, [], none⟩
  else do
    let entry ← found (.unnamed place) (Naming.lookup table place)
    let n := { entry with site := e }
    let bound ← texts c known place n 0 e.children
    return ⟨place, e, bound, StateBinding.ofClass? c known n⟩

mutual

/-- Visits the elements of a node. -/
def node (c : Config) (known : List String) (table : List NamedPlace)
    (inLoop inConditional : Bool) (place : Place) : Node → Except LookupFault (List Visit)
  | .element h cs => do
    let v ← visit c known table place ⟨h, cs, inLoop, inConditional⟩
    let inner ← nodes c known table inLoop inConditional place 0 cs
    return v :: inner
  | .letBinding _ _ cs => nodes c known table inLoop inConditional place 0 cs
  | .forLoop _ b => nodes c known table true inConditional place 0 b
  | .conditional _ t e => do
    let visits ← nodes c known table inLoop true (0 :: place) 0 t
    let visits' ← nodes c known table inLoop true (1 :: place) 0 e
    return visits ++ visits'
  | .call _ cs => nodes c known table inLoop inConditional place 0 cs
  | .slot _ | .expression _ | .letReference _ | .text _ | .goCode _ => .ok []

/-- Visits the elements of the nodes at a place, the first of which has the
index `index` there. -/
def nodes (c : Config) (known : List String) (table : List NamedPlace)
    (inLoop inConditional : Bool) (place : Place) (index : Nat) :
    List Node → Except LookupFault (List Visit)
  | [] => .ok []
  | n :: ns => do
    let visits ← node c known table inLoop inConditional (index :: place) n
    let visits' ← nodes c known table inLoop inConditional place (index + 1) ns
    return visits ++ visits'

end

/-- Visits the elements of a body. -/
def run (c : Config) (known : List String) (table : List NamedPlace) (body : List Node) :
    Except LookupFault (List Visit) :=
  nodes c known table false false [] 0 body

end Detection

variable {c : Config} {known : List String}

/-! ## The table -/

namespace Naming

variable {l k : Bool} {place : Place} {index next : Nat}

mutual

/-- What stands inside a node has the place of the node in its own. -/
theorem suffix_node {x : NamedPlace} : ∀ {n : Node} {l k : Bool} {place : Place} {next : Nat},
    x ∈ (node c l k place next n).1 → place <:+ x.place
  | .element h cs, l, k, place, next, hx => by
    rw [node] at hx
    rcases List.mem_cons.1 hx with rfl | hx
    · exact List.suffix_rfl
    · obtain ⟨i, -, hi⟩ := suffix_nodes cs hx
      exact (List.suffix_cons i place).trans hi
  | .letBinding _ _ cs, l, k, place, next, hx => by
    obtain ⟨i, -, hi⟩ := suffix_nodes cs hx
    exact (List.suffix_cons i place).trans hi
  | .forLoop _ b, l, k, place, next, hx => by
    obtain ⟨i, -, hi⟩ := suffix_nodes b hx
    exact (List.suffix_cons i place).trans hi
  | .conditional _ t e, l, k, place, next, hx => by
    rw [node] at hx
    rcases List.mem_append.1 hx with hx | hx
    · obtain ⟨i, -, hi⟩ := suffix_nodes t hx
      exact (List.suffix_cons 0 place).trans ((List.suffix_cons i _).trans hi)
    · obtain ⟨i, -, hi⟩ := suffix_nodes e hx
      exact (List.suffix_cons 1 place).trans ((List.suffix_cons i _).trans hi)
  | .call _ cs, l, k, place, next, hx => by
    obtain ⟨i, -, hi⟩ := suffix_nodes cs hx
    exact (List.suffix_cons i place).trans hi
  | .slot _, _, _, _, _, hx | .expression _, _, _, _, _, hx | .letReference _, _, _, _, _, hx
  | .text _, _, _, _, _, hx | .goCode _, _, _, _, _, hx => nomatch hx

theorem suffix_nodes {x : NamedPlace} :
    ∀ (ns : List Node) {l k : Bool} {place : Place} {index next : Nat},
      x ∈ (nodes c l k place index next ns).1 → ∃ i, index ≤ i ∧ (i :: place) <:+ x.place
  | [], _, _, _, _, _, hx => nomatch hx
  | n :: ns, l, k, place, index, next, hx => by
    rw [nodes] at hx
    rcases List.mem_append.1 hx with hx | hx
    · exact ⟨index, Nat.le_refl _, suffix_node hx⟩
    · obtain ⟨i, hle, hi⟩ := suffix_nodes ns hx
      exact ⟨i, Nat.le_of_succ_le hle, hi⟩

end

/-- Ways that go through one place take the same step there. -/
theorem eq_of_suffix {i j : Nat} {p : Place} (hi : (i :: place) <:+ p)
    (hj : (j :: place) <:+ p) : i = j := by
  have h := List.suffix_of_suffix_length_le hi hj (Nat.le_refl _)
  exact (List.cons.inj (h.eq_of_length rfl)).1

mutual

/-- **No two elements have one place**: what tells them apart is the step with
which their ways part. -/
theorem nodup_node : ∀ {n : Node} {l k : Bool} {place : Place} {next : Nat},
    ((node c l k place next n).1.map (·.place)).Nodup
  | .element h cs, l, k, place, next => by
    rw [node]
    refine List.nodup_cons.2 ⟨fun hmem => ?_, nodup_nodes cs⟩
    obtain ⟨x, hx, hplace⟩ := List.mem_map.1 hmem
    obtain ⟨i, -, hi⟩ := suffix_nodes cs hx
    have hlength := hi.length_le
    rw [hplace] at hlength
    exact absurd hlength (Nat.not_succ_le_self place.length)
  | .letBinding _ _ cs, l, k, place, next => nodup_nodes cs
  | .forLoop _ b, l, k, place, next => nodup_nodes b
  | .conditional _ t e, l, k, place, next => by
    rw [node, List.map_append]
    refine List.nodup_append.2 ⟨nodup_nodes t, nodup_nodes e, fun p hp q hq hpq => ?_⟩
    obtain ⟨x, hx, rfl⟩ := List.mem_map.1 hp
    obtain ⟨y, hy, rfl⟩ := List.mem_map.1 hq
    obtain ⟨i, -, hi⟩ := suffix_nodes t hx
    obtain ⟨j, -, hj⟩ := suffix_nodes e hy
    have hthen := (List.suffix_cons i (0 :: place)).trans hi
    have helse := (List.suffix_cons j (1 :: place)).trans hj
    rw [hpq] at hthen
    exact absurd (eq_of_suffix hthen helse) Nat.zero_ne_one
  | .call _ cs, l, k, place, next => nodup_nodes cs
  | .slot _, _, _, _, _ | .expression _, _, _, _, _ | .letReference _, _, _, _, _
  | .text _, _, _, _, _ | .goCode _, _, _, _, _ => List.nodup_nil

theorem nodup_nodes : ∀ (ns : List Node) {l k : Bool} {place : Place} {index next : Nat},
    ((nodes c l k place index next ns).1.map (·.place)).Nodup
  | [], _, _, _, _, _ => List.nodup_nil
  | n :: ns, l, k, place, index, next => by
    rw [nodes, List.map_append]
    refine List.nodup_append.2 ⟨nodup_node, nodup_nodes ns, fun p hp q hq hpq => ?_⟩
    obtain ⟨x, hx, rfl⟩ := List.mem_map.1 hp
    obtain ⟨y, hy, rfl⟩ := List.mem_map.1 hq
    obtain ⟨j, hj, hsuffix⟩ := suffix_nodes ns hy
    have hi := suffix_node hx
    rw [hpq] at hi
    have := eq_of_suffix hi hsuffix
    omega

end

/-- An entry of the table is found at its place. -/
theorem lookup_eq {table : List NamedPlace} (h : (table.map (·.place)).Nodup) {x : NamedPlace}
    (hx : x ∈ table) : lookup table x.place = some x.names := by
  have hfind : table.find? (·.place = x.place) = some x := by
    induction table with
    | nil => cases hx
    | cons y table ih =>
      obtain ⟨hy, htable⟩ := List.nodup_cons.1 h
      rcases List.mem_cons.1 hx with rfl | hx
      · exact List.find?_cons_of_pos (decide_eq_true rfl)
      · have hne : y.place ≠ x.place := fun heq => hy (List.mem_map.2 ⟨x, hx, heq.symm⟩)
        rw [List.find?_cons_of_neg (by simpa using hne), ih htable hx]
  rw [lookup, hfind]
  rfl

/-! ### The table has the names of the body -/

/-- The number that is free after some elements have been named. -/
def nextAfter (c : Config) (next : Nat) (es : List ElementSite) : Nat :=
  es.foldl (fun next e => next + (ElementName.assign c next e).size) next

theorem assignFrom_append (next : Nat) (es es' : List ElementSite) :
    ElementName.assignFrom c next (es ++ es')
      = ElementName.assignFrom c next es
        ++ ElementName.assignFrom c (nextAfter c next es) es' := by
  induction es generalizing next with
  | nil => rfl
  | cons e es ih =>
    rw [List.cons_append, ElementName.assignFrom, ElementName.assignFrom, ih]
    rfl

theorem nextAfter_append (next : Nat) (es es' : List ElementSite) :
    nextAfter c next (es ++ es') = nextAfter c (nextAfter c next es) es' :=
  List.foldl_append

mutual

/-- Naming follows the elements of a node in document order. -/
theorem node_eq : ∀ (n : Node) (l k : Bool) (place : Place) (next : Nat),
    (node c l k place next n).1.map (·.names)
        = ElementName.assignFrom c next ((n.sites l k).filterMap Site.element?)
      ∧ (node c l k place next n).2
        = nextAfter c next ((n.sites l k).filterMap Site.element?)
  | .element h cs, l, k, place, next => by
    obtain ⟨hcs, hlast⟩ := nodes_eq cs l k place 0
      (next + (ElementName.assign c next ⟨h, cs, l, k⟩).size)
    exact ⟨congrArg (ElementName.assign c next ⟨h, cs, l, k⟩ :: ·) hcs, hlast⟩
  | .letBinding _ _ cs, l, k, place, next =>
    nodes_eq cs l k place 0 next
  | .forLoop _ b, l, k, place, next =>
    nodes_eq b true k place 0 next
  | .conditional h t e, l, k, place, next => by
    obtain ⟨ht, hnext⟩ := nodes_eq t l true (0 :: place) 0 next
    obtain ⟨he, hlast⟩ := nodes_eq e l true (1 :: place) 0 (nodes c l true (0 :: place) 0 next t).2
    have hsites : ((Node.conditional h t e).sites l k).filterMap Site.element?
        = (Node.sitesOf l true t).filterMap Site.element?
          ++ (Node.sitesOf l true e).filterMap Site.element? :=
      List.filterMap_append
    rw [hsites, assignFrom_append, nextAfter_append, ← hnext, ← ht, ← he, ← hlast]
    exact ⟨List.map_append, rfl⟩
  | .call _ cs, l, k, place, next =>
    nodes_eq cs l k place 0 next
  | .slot _, _, _, _, _ | .expression _, _, _, _, _ | .letReference _, _, _, _, _
  | .text _, _, _, _, _ | .goCode _, _, _, _, _ => ⟨rfl, rfl⟩

theorem nodes_eq : ∀ (ns : List Node) (l k : Bool) (place : Place) (index next : Nat),
    (nodes c l k place index next ns).1.map (·.names)
        = ElementName.assignFrom c next ((Node.sitesOf l k ns).filterMap Site.element?)
      ∧ (nodes c l k place index next ns).2
        = nextAfter c next ((Node.sitesOf l k ns).filterMap Site.element?)
  | [], _, _, _, _, _ => ⟨rfl, rfl⟩
  | n :: ns, l, k, place, index, next => by
    obtain ⟨hn, hnext⟩ := node_eq n l k (index :: place) next
    obtain ⟨hns, hlast⟩ := nodes_eq ns l k place (index + 1) (node c l k (index :: place) next n).2
    rw [Node.sitesOf, List.filterMap_append, assignFrom_append, nextAfter_append, ← hnext, ← hn,
      ← hns, ← hlast]
    exact ⟨List.map_append, rfl⟩

end

end Naming

/-! ## What a visit finds -/

theorem length_targets_assign (next : Nat) (e : ElementSite) :
    (ElementName.assign c next e).targets.length = c.textCount e := by
  unfold ElementName.assign
  split <;> simp [Config.numberedNames]

theorem site_assign (next : Nat) (e : ElementSite) : (ElementName.assign c next e).site = e := by
  unfold ElementName.assign
  split <;> rfl

/-- Whether an element shows its text itself: its tag is an inline text tag and
it has exactly one child. -/
def ElementSite.IsInline (c : Config) (e : ElementSite) : Prop :=
  e.head.tag ∈ c.inlineTextTags ∧ e.children.length = 1

theorem showsTextItself_iff {e : ElementSite} : c.showsTextItself e = true ↔ e.IsInline c := by
  simp [Config.showsTextItself, ElementSite.IsInline]

/-- The text children of an element. -/
def ElementSite.textChildren (e : ElementSite) : List Node :=
  e.children.filter Node.isTextual

/-- **The test by the names is the test by the tag.** An element with a text
child has no names for its text children exactly when it shows its text
itself. -/
theorem of_eq_own_iff {next index : Nat} {e : ElementSite} (h : index < e.textChildren.length) :
    TextTarget.of (.assign c next e) index = .own ↔ e.IsInline c := by
  have hcount : e.children.countP Node.isTextual ≠ 0 := by
    rw [List.countP_eq_length_filter]
    exact Nat.ne_of_gt (Nat.zero_lt_of_lt h)
  have hempty : (ElementName.assign c next e).targets.isEmpty = true ↔ c.showsTextItself e := by
    rw [List.isEmpty_iff_length_eq_zero, length_targets_assign, Config.textCount]
    split
    · next hshows => exact iff_of_true rfl hshows
    · next hshows => exact iff_of_false hcount hshows
  rw [← showsTextItself_iff, ← hempty, TextTarget.of]
  split <;> simp_all

/-- **Every index is in range**: the name of a text child is there, and it is
the one that `StateBinding.textTargets` gives the child. -/
theorem name?_of {next index : Nat} {e : ElementSite} (h : index < e.textChildren.length) :
    ∃ name, (TextTarget.of (.assign c next e) index).name? (.assign c next e) = some name
      ∧ (StateBinding.textTargets (.assign c next e))[index]? = some name := by
  have hcount : index < e.children.countP Node.isTextual :=
    (List.countP_eq_length_filter (p := Node.isTextual)).symm ▸ h
  have hlength := length_targets_assign (c := c) next e
  rw [TextTarget.of, StateBinding.textTargets, site_assign]
  split
  · refine ⟨_, rfl, ?_⟩
    exact (List.getElem?_map ..).trans (congrArg _ (List.getElem?_eq_getElem h))
  · next hempty =>
    have hshows : ¬c.showsTextItself e := by
      intro hshows
      rw [Config.textCount, if_pos hshows] at hlength
      exact hempty (List.isEmpty_iff_length_eq_zero.2 hlength)
    rw [Config.textCount, if_neg hshows] at hlength
    have hlt : index < (ElementName.assign c next e).targets.length := by omega
    exact ⟨_, List.getElem?_eq_getElem hlt, List.getElem?_eq_getElem hlt⟩

/-! ## Bindings and names -/

theorem ofProperty?_spec {n : ElementName} {target code : String} {property : BoundProperty}
    {b : StateBinding} (h : StateBinding.ofProperty? c known n target property code = some b) :
    b.elementName = target ∧ b.property = property ∧ b.expr = code := by
  simp only [StateBinding.ofProperty?] at h
  split at h
  · cases h
  · cases h
    exact ⟨rfl, rfl, rfl⟩

/-- A binding of the text child with an index among given text children. -/
structure BoundText.IsOf (n : ElementName) (children : List Node) (start : Nat)
    (t : BoundText) : Prop where
  start_le : start ≤ t.index
  child : ∃ child, children[t.index - start]? = some child ∧ child.code? = some t.binding.expr
  property_eq : t.binding.property = .text
  target_eq : t.target = .of n t.index
  name_eq : t.target.name? n = some t.binding.elementName

namespace Detection

/-- One text child more, whose name is found. -/
theorem texts_cons {place : Place} {n : ElementName} {index : Nat} {child : Node}
    {rest : List Node} {name : String} {ts : List BoundText} (htextual : child.isTextual)
    (hname : (TextTarget.of n index).name? n = some name)
    (hrest : texts c known place n (index + 1) rest = .ok ts) :
    texts c known place n index (child :: rest)
      = .ok (((textBinding? c known n child name).map (⟨index, .of n index, ·⟩)).toList
        ++ ts) := by
  rw [texts, if_pos htextual]
  simp only [hname, hrest]
  rfl

/-- Detection finds a name for every text child, and the bindings that
`StateBinding.ofTexts` zips together. -/
theorem texts_spec {place : Place} {n : ElementName} {index : Nat} {children : List Node}
    (h : ∀ i, index ≤ i → i < index + (children.filter Node.isTextual).length →
      ∃ name, (TextTarget.of n i).name? n = some name
        ∧ (StateBinding.textTargets n)[i]? = some name) :
    ∃ ts, texts c known place n index children = .ok ts
      ∧ ts.map (·.binding)
        = ((children.filter Node.isTextual).zip
          ((StateBinding.textTargets n).drop index)).filterMap
            (fun p => textBinding? c known n p.1 p.2)
      ∧ ∀ t ∈ ts, t.IsOf n (children.filter Node.isTextual) index := by
  induction children generalizing index with
  | nil => exact ⟨[], rfl, rfl, fun _ ht => nomatch ht⟩
  | cons child rest ih =>
    by_cases htextual : child.isTextual
    · rw [List.filter_cons_of_pos htextual] at h ⊢
      obtain ⟨name, hname, htarget⟩ := h index (Nat.le_refl _) (by simp)
      obtain ⟨ts, hts, hbindings, hof⟩ := ih fun i (hle : index + 1 ≤ i) hlt =>
        h i (by omega) (by rw [List.length_cons]; omega)
      have hdrop : (StateBinding.textTargets n).drop index
          = name :: (StateBinding.textTargets n).drop (index + 1) := by
        obtain ⟨hlt, hget⟩ := List.getElem?_eq_some_iff.1 htarget
        rw [List.drop_eq_getElem_cons hlt, hget]
      have hrest : ∀ t ∈ ts, t.IsOf n (child :: rest.filter Node.isTextual) index := fun t ht => by
        obtain ⟨hle, ⟨child', hchild, hcode⟩, hproperty, htarget, hname⟩ := hof t ht
        refine ⟨Nat.le_of_succ_le hle, ⟨child', ?_, hcode⟩, hproperty, htarget, hname⟩
        have hsub : t.index - index = t.index - (index + 1) + 1 := by omega
        rw [hsub, List.getElem?_cons_succ, hchild]
      refine ⟨_, texts_cons htextual hname hts, ?_, ?_⟩
      · rw [hdrop, List.zip_cons_cons, List.filterMap_cons, List.map_append, hbindings]
        cases textBinding? c known n child name <;> rfl
      · cases hbound : textBinding? c known n child name with
        | none => exact hrest
        | some b =>
          obtain ⟨code, hcode, hb⟩ := Option.bind_eq_some_iff.1 hbound
          obtain ⟨htarget, hproperty, hexpr⟩ := ofProperty?_spec hb
          intro t ht
          rcases List.mem_cons.1 ht with rfl | ht
          · refine ⟨Nat.le_refl _, ⟨child, ?_, ?_⟩, hproperty, rfl, ?_⟩
            · rw [Nat.sub_self]
              rfl
            · rw [hcode, hexpr]
            · rw [htarget]
              exact hname
          · exact hrest t ht
    · rw [List.filter_cons_of_neg htextual] at h ⊢
      rw [texts, if_neg htextual]
      exact ih h

end Detection

/-- **A visit that agrees with the names of its element.** The text child with
index `k` among the text children is bound under the name with index `k` of
those of the text children, unless the element shows its text itself; then, and
only then, the element's own name is taken. A class is bound under that name
always. -/
structure Visit.Agrees (c : Config) (n : ElementName) (v : Visit) : Prop where
  site_eq : n.site = v.site
  child : ∀ t ∈ v.texts, t.binding.property = .text
    ∧ ∃ child, v.site.textChildren[t.index]? = some child ∧ child.code? = some t.binding.expr
  own_iff : ∀ t ∈ v.texts, t.target = .own ↔ v.site.IsInline c
  own : ∀ t ∈ v.texts, v.site.IsInline c → t.binding.elementName = n.name
  target : ∀ t ∈ v.texts, ¬v.site.IsInline c →
    t.target = .child t.index ∧ n.targets[t.index]? = some t.binding.elementName
  cls : ∀ b ∈ v.cls, b.property = .cls ∧ b.elementName = n.name

/-- What a visit has to do with an entry of the table. -/
structure Visit.Follows (c : Config) (known : List String) (x : NamedPlace) (v : Visit) :
    Prop where
  place_eq : v.place = x.place
  bindings_eq : v.bindings = StateBinding.ofElement c known x.names
  agrees : v.Agrees c x.names

/-- Visiting an element outside loops whose look-ups succeed. -/
theorem visit_eq {table : List NamedPlace} {place : Place} {n : ElementName} {e : ElementSite}
    {ts : List BoundText} (hloop : ¬e.inLoop) (hsite : n.site = e)
    (hlookup : Naming.lookup table place = some n)
    (hts : Detection.texts c known place n 0 e.children = .ok ts) :
    Detection.visit c known table place e
      = .ok ⟨place, e, ts, StateBinding.ofClass? c known n⟩ := by
  subst hsite
  rw [Detection.visit, if_neg hloop, hlookup]
  change (do
    let bound ← Detection.texts c known place n 0 n.site.children
    return (⟨place, n.site, bound, StateBinding.ofClass? c known n⟩ : Visit)) = _
  rw [hts]
  rfl

theorem ofClass?_spec {n : ElementName} {b : StateBinding}
    (h : StateBinding.ofClass? c known n = some b) :
    b.property = .cls ∧ b.elementName = n.name := by
  obtain ⟨code, -, hb⟩ := Option.bind_eq_some_iff.1 h
  obtain ⟨htarget, hproperty, -⟩ := ofProperty?_spec hb
  exact ⟨hproperty, htarget⟩

/-- **One element.** With its entry in the table, an element is visited without
a fault, and the visit agrees with the entry. -/
theorem visit_follows {table : List NamedPlace} {place : Place} {next : Nat} {e : ElementSite}
    (h : Naming.lookup table place = some (.assign c next e)) :
    ∃ v, Detection.visit c known table place e = .ok v
      ∧ v.Follows c known ⟨place, .assign c next e⟩ := by
  have hsite := site_assign (c := c) next e
  by_cases hloop : e.inLoop
  · refine ⟨⟨place, e, [], none⟩, by rw [Detection.visit, if_pos hloop], rfl, ?_, ?_⟩
    · rw [StateBinding.ofElement, hsite, if_pos hloop]
      rfl
    · have hnone : ∀ t, t ∉ ([] : List BoundText) := fun _ => List.not_mem_nil
      exact ⟨hsite, fun t ht => absurd ht (hnone t), fun t ht => absurd ht (hnone t),
        fun t ht => absurd ht (hnone t), fun t ht => absurd ht (hnone t), fun b hb => nomatch hb⟩
  · obtain ⟨ts, hts, hbindings, hof⟩ : ∃ ts,
        Detection.texts c known place (.assign c next e) 0 e.children = .ok ts ∧ _ ∧ _ :=
      Detection.texts_spec fun i _ hi =>
        name?_of (e := e) (Nat.lt_of_lt_of_eq hi (Nat.zero_add _))
    refine ⟨_, visit_eq hloop hsite h hts, rfl, ?_, ?_⟩
    · rw [StateBinding.ofElement, hsite, if_neg hloop, StateBinding.ofTexts, hsite]
      exact congrArg (· ++ _) hbindings
    · have hlt : ∀ t ∈ ts, t.index < e.textChildren.length := fun t ht => by
        obtain ⟨child, hchild, -⟩ := (hof t ht).child
        exact (List.getElem?_eq_some_iff.1 hchild).1
      have hown : ∀ t ∈ ts, t.target = .own ↔ e.IsInline c := fun t ht => by
        rw [(hof t ht).target_eq]
        exact of_eq_own_iff (hlt t ht)
      refine ⟨hsite, fun t ht => ⟨(hof t ht).property_eq, (hof t ht).child⟩, hown,
        fun t ht hinline => ?_, fun t ht hinline => ?_, fun b hb => ofClass?_spec hb⟩
      · have hname := (hof t ht).name_eq
        rw [(hown t ht).2 hinline] at hname
        exact (Option.some.inj hname).symm
      · have hname := (hof t ht).name_eq
        have htarget : t.target = .child t.index := by
          have hne : t.target ≠ .own := fun heq => hinline ((hown t ht).1 heq)
          rw [(hof t ht).target_eq, TextTarget.of] at hne ⊢
          split
          · next hempty =>
            rw [if_pos hempty] at hne
            exact absurd rfl hne
          · rfl
        rw [htarget] at hname
        exact ⟨htarget, hname⟩

/-! ## The two walks together -/

/-- What a walk of detection is to give for some entries of the table: no
fault, and a visit for each entry, in order. -/
def Detection.Follows (c : Config) (known : List String) (named : List NamedPlace)
    (r : Except LookupFault (List Visit)) : Prop :=
  ∃ visits, r = .ok visits ∧ List.Forall₂ (Visit.Follows c known) named visits

theorem map_eq_of_follows {α : Type} {f : NamedPlace → α} {g : Visit → α}
    {named : List NamedPlace} {visits : List Visit}
    (hfg : ∀ x v, v.Follows c known x → g v = f x)
    (h : List.Forall₂ (Visit.Follows c known) named visits) : visits.map g = named.map f := by
  induction h with
  | nil => rfl
  | cons hv _ ih => rw [List.map_cons, List.map_cons, hfg _ _ hv, ih]

theorem exists_of_mem_visits {named : List NamedPlace} {visits : List Visit} {v : Visit}
    (h : List.Forall₂ (Visit.Follows c known) named visits) (hv : v ∈ visits) :
    ∃ x ∈ named, v.Follows c known x := by
  induction h with
  | nil => cases hv
  | @cons x _ _ _ hx _ ih =>
    rcases List.mem_cons.1 hv with rfl | hv
    · exact ⟨x, List.mem_cons_self, hx⟩
    · obtain ⟨y, hy, hfollows⟩ := ih hv
      exact ⟨y, List.mem_cons_of_mem _ hy, hfollows⟩

namespace Detection.Follows

theorem nil : Follows c known [] (.ok []) :=
  ⟨[], rfl, .nil⟩

/-- An element before others. -/
theorem cons {x : NamedPlace} {named : List NamedPlace} {v : Visit}
    {first : Except LookupFault Visit} {r : Except LookupFault (List Visit)}
    (hfirst : first = .ok v) (hv : v.Follows c known x) (h : Follows c known named r) :
    Follows c known (x :: named) (do
      let v ← first
      let inner ← r
      return v :: inner) := by
  obtain ⟨visits, rfl, hvisits⟩ := h
  subst hfirst
  exact ⟨v :: visits, rfl, .cons hv hvisits⟩

/-- One walk after another. -/
theorem append {named named' : List NamedPlace} {r r' : Except LookupFault (List Visit)}
    (h : Follows c known named r) (h' : Follows c known named' r') :
    Follows c known (named ++ named') (do
      let visits ← r
      let visits' ← r'
      return visits ++ visits') := by
  obtain ⟨visits, rfl, hvisits⟩ := h
  obtain ⟨visits', rfl, hvisits'⟩ := h'
  exact ⟨visits ++ visits', rfl, List.rel_append hvisits hvisits'⟩

end Detection.Follows

/-- Entries that are found in a table at their places. -/
def Naming.AreIn (named table : List NamedPlace) : Prop :=
  ∀ x ∈ named, lookup table x.place = some x.names

theorem Naming.AreIn.append {named named' table : List NamedPlace}
    (h : AreIn (named ++ named') table) : AreIn named table ∧ AreIn named' table :=
  List.forall_mem_append.1 h

mutual

/-- **Detection follows naming** through a node, whatever numbers naming gives:
it is enough that the entries of the node are found in the table. -/
theorem node_follows {table : List NamedPlace} :
    ∀ {n : Node} {l k : Bool} {place : Place} {next : Nat},
      Naming.AreIn (Naming.node c l k place next n).1 table →
      Detection.Follows c known (Naming.node c l k place next n).1
        (Detection.node c known table l k place n)
  | .element h cs, l, k, place, next, hin => by
    obtain ⟨hself, hinner⟩ := List.forall_mem_cons.1 hin
    obtain ⟨v, hv, hfollows⟩ := visit_follows hself
    exact .cons hv hfollows (nodes_follows cs hinner)
  | .letBinding _ _ cs, l, k, place, next, hin => nodes_follows cs hin
  | .forLoop _ b, l, k, place, next, hin => nodes_follows b hin
  | .conditional _ t e, l, k, place, next, hin => by
    obtain ⟨hthen, helse⟩ := Naming.AreIn.append hin
    exact .append (nodes_follows t hthen) (nodes_follows e helse)
  | .call _ cs, l, k, place, next, hin => nodes_follows cs hin
  | .slot _, _, _, _, _, _ | .expression _, _, _, _, _, _ | .letReference _, _, _, _, _, _
  | .text _, _, _, _, _, _ | .goCode _, _, _, _, _, _ => .nil

/-- And through a body. -/
theorem nodes_follows {table : List NamedPlace} :
    ∀ (ns : List Node) {l k : Bool} {place : Place} {index next : Nat},
      Naming.AreIn (Naming.nodes c l k place index next ns).1 table →
      Detection.Follows c known (Naming.nodes c l k place index next ns).1
        (Detection.nodes c known table l k place index ns)
  | [], _, _, _, _, _, _ => .nil
  | n :: ns, l, k, place, index, next, hin => by
    obtain ⟨hn, hns⟩ := Naming.AreIn.append hin
    exact .append (node_follows hn) (nodes_follows ns hns)

end

/-- **Naming and detection agree, and no look-up fails.** For every body and
every configuration: no place is in the table twice, and the table has the names
of the body; detection, which looks up the elements it visits in the table, runs
without a fault; it visits the places of the table, in their order, and its
bindings are those of the body. Every visit finds an entry, the entry is that of
the visited element, and the names of its bindings agree with it. -/
theorem detection_follows_naming (c : Config) (known : List String) (body : List Node) :
    let table := Naming.table c body
    (table.map (·.place)).Nodup
      ∧ table.map (·.names) = ElementName.ofBody c body
      ∧ ∃ visits, Detection.run c known table body = .ok visits
        ∧ visits.map (·.place) = table.map (·.place)
        ∧ visits.flatMap Visit.bindings = StateBinding.ofBody c known body
        ∧ ∀ v ∈ visits, ∃ n, Naming.lookup table v.place = some n ∧ v.Agrees c n := by
  intro table
  have hnodup : (table.map (·.place)).Nodup := Naming.nodup_nodes body
  have hnames : table.map (·.names) = ElementName.ofBody c body :=
    (Naming.nodes_eq body false false [] 0 0).1
  obtain ⟨visits, hrun, hfollows⟩ : Detection.Follows c known table
      (Detection.run c known table body) :=
    nodes_follows body fun x hx => Naming.lookup_eq hnodup hx
  refine ⟨hnodup, hnames, visits, hrun, ?_, ?_, fun v hv => ?_⟩
  · exact map_eq_of_follows (fun _ _ h => h.place_eq) hfollows
  · rw [StateBinding.ofBody, ← hnames, List.flatMap_def, List.flatMap_def, List.map_map]
    exact congrArg List.flatten (map_eq_of_follows (fun _ _ h => h.bindings_eq) hfollows)
  · obtain ⟨x, hx, h⟩ := exists_of_mem_visits hfollows hv
    rw [h.place_eq]
    exact ⟨x.names, Naming.lookup_eq hnodup hx, h.agrees⟩

end Gsx
