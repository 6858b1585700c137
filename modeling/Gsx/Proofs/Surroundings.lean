import Gsx.Proofs.Relinking
/-!
# Document order and surroundings

A node is found in a body by its way down, and ways are ordered as words are: a
node comes before what is inside it, and what is inside it comes before what
follows it. The nodes that a way passes before its end enclose the node there.

The sites of a body, which the walks of the analysis go through, are told by
ways here. They come in document order, none is left out, and each says of its
node what the enclosing nodes are: loops, or conditionals.
-/

namespace Gsx

/-! ## Ways into a body -/

/-- A way down: at each step the number of the body to enter, and of the node in
that body. -/
abbrev Way := List (Nat × Nat)

/-- **The order of a document.** A way comes before the ways that go on from its
end, and of two ways that part, the one that goes to the left comes first. -/
def Way.Before : Way → Way → Prop :=
  List.Lex (Prod.Lex (· < ·) (· < ·))

/-- The node at the end of a way into a body. The first step of the way enters the
body, which has the number 0. -/
def Node.at? (body : List Node) : Way → Option Node
  | [] => none
  | (k, i) :: way => ([body][k]?.bind fun ns => ns[i]?).bind fun n => n.descend? way

/-- A node encloses the end of a way if the way passes it before its end. -/
def Node.Encloses (body : List Node) (way : Way) (n : Node) : Prop :=
  ∃ before, before <+: way ∧ before ≠ way ∧ Node.at? body before = some n

/-- **A site at its place**: the node is the one at the end of the way, and the
marks say whether a loop encloses it, and whether a conditional does. -/
structure Site.At (body : List Node) (way : Way) (s : Site) : Prop where
  node_eq : Node.at? body way = some s.node
  inLoop_iff : s.inLoop = true ↔ ∃ h b, Node.Encloses body way (.forLoop h b)
  inConditional_iff :
    s.inConditional = true ↔ ∃ h t e, Node.Encloses body way (.conditional h t e)

/-- **An element at its place.** An element that a `@let` binds has none, since
the node there is the binding. -/
structure ElementSite.At (body : List Node) (way : Way) (e : ElementSite) : Prop where
  node_eq : Node.at? body way = some (.element e.head e.children)
  inLoop_iff : e.inLoop = true ↔ ∃ h b, Node.Encloses body way (.forLoop h b)
  inConditional_iff :
    e.inConditional = true ↔ ∃ h t e, Node.Encloses body way (.conditional h t e)

/-- Things that come in the order of the places where they stand. -/
def Ascending {α : Type} (stands : Way → α → Prop) (xs : List α) : Prop :=
  ∃ placed : List (Way × α), placed.map Prod.snd = xs
    ∧ (placed.map Prod.fst).Pairwise Way.Before ∧ ∀ p ∈ placed, stands p.1 p.2

/-- **A list in document order.** All things that stand somewhere are listed, in
the order of their places. -/
def InDocumentOrder {α : Type} (stands : Way → α → Prop) (xs : List α) : Prop :=
  ∃ placed : List (Way × α), placed.map Prod.snd = xs
    ∧ (placed.map Prod.fst).Pairwise Way.Before
    ∧ ∀ way x, (way, x) ∈ placed ↔ stands way x

section
variable {α β : Type} {stands : Way → α → Prop} {xs : List α}

theorem InDocumentOrder.congr {stands' : Way → α → Prop} (h : InDocumentOrder stands xs)
    (hiff : ∀ way x, stands way x ↔ stands' way x) : InDocumentOrder stands' xs := by
  obtain ⟨placed, hxs, hordered, hall⟩ := h
  exact ⟨placed, hxs, hordered, fun way x => (hall way x).trans (hiff way x)⟩

theorem InDocumentOrder.ascending (h : InDocumentOrder stands xs) : Ascending stands xs := by
  obtain ⟨placed, hxs, hordered, hall⟩ := h
  exact ⟨placed, hxs, hordered, fun p hp => (hall p.1 p.2).1 hp⟩

/-- What a part of some placed things says, at their places. -/
def keepPlaced (f : α → Option β) (placed : List (Way × α)) : List (Way × β) :=
  placed.filterMap fun p => (f p.2).map fun y => (p.1, y)

theorem mem_keepPlaced {f : α → Option β} {placed : List (Way × α)} {way : Way} {y : β} :
    (way, y) ∈ keepPlaced f placed ↔ ∃ x, (way, x) ∈ placed ∧ f x = some y := by
  rw [keepPlaced, List.mem_filterMap]
  constructor
  · rintro ⟨⟨_, x⟩, hmem, hkeep⟩
    obtain ⟨_, hy, heq⟩ := Option.map_eq_some_iff.1 hkeep
    cases heq
    exact ⟨x, hmem, hy⟩
  · rintro ⟨x, hmem, hx⟩
    exact ⟨(way, x), hmem, by simp only [hx, Option.map_some]⟩

theorem map_snd_keepPlaced (f : α → Option β) (placed : List (Way × α)) :
    (keepPlaced f placed).map Prod.snd = (placed.map Prod.snd).filterMap f := by
  rw [keepPlaced, List.map_filterMap, List.filterMap_map]
  refine congrArg (List.filterMap · placed) (funext fun p => ?_)
  simp only [Function.comp_apply, Option.map_map]
  exact Option.map_id'

/-- Leaving things out keeps the order of the rest. -/
theorem pairwise_keepPlaced (f : α → Option β) {placed : List (Way × α)}
    (h : (placed.map Prod.fst).Pairwise Way.Before) :
    ((keepPlaced f placed).map Prod.fst).Pairwise Way.Before := by
  rw [List.pairwise_map] at h ⊢
  refine List.pairwise_filterMap.2 (h.imp fun hvw _ hy _ hy' => ?_)
  obtain ⟨_, -, rfl⟩ := Option.map_eq_some_iff.1 hy
  obtain ⟨_, -, rfl⟩ := Option.map_eq_some_iff.1 hy'
  exact hvw

theorem InDocumentOrder.filterMap (h : InDocumentOrder stands xs) (f : α → Option β) :
    InDocumentOrder (fun way y => ∃ x, stands way x ∧ f x = some y) (xs.filterMap f) := by
  obtain ⟨placed, rfl, hordered, hall⟩ := h
  refine ⟨keepPlaced f placed, map_snd_keepPlaced f placed, pairwise_keepPlaced f hordered,
    fun way y => ?_⟩
  simp only [mem_keepPlaced, hall]

theorem Ascending.filterMap (h : Ascending stands xs) (f : α → Option β) :
    Ascending (fun way y => ∃ x, stands way x ∧ f x = some y) (xs.filterMap f) := by
  obtain ⟨placed, rfl, hordered, hall⟩ := h
  refine ⟨keepPlaced f placed, map_snd_keepPlaced f placed, pairwise_keepPlaced f hordered,
    fun p hp => ?_⟩
  obtain ⟨x, hx, hy⟩ := mem_keepPlaced.1 hp
  exact ⟨x, hall _ hx, hy⟩

theorem Ascending.imp {stands' : Way → α → Prop} (h : Ascending stands xs)
    (himp : ∀ way, ∀ x ∈ xs, stands way x → stands' way x) : Ascending stands' xs := by
  obtain ⟨placed, rfl, hordered, hall⟩ := h
  exact ⟨placed, rfl, hordered,
    fun p hp => himp _ _ (List.mem_map.2 ⟨p, hp, rfl⟩) (hall p hp)⟩

/-- Things are placed as what they are made of is. -/
theorem Ascending.of_map {f : β → α} {ys : List β} (h : Ascending stands (ys.map f)) :
    Ascending (fun way y => stands way (f y)) ys := by
  obtain ⟨placed, hys, hordered, hall⟩ := h
  have hlength : placed.length = ys.length := by
    rw [← List.length_map (f := Prod.snd), hys, List.length_map]
  refine ⟨(placed.map Prod.fst).zip ys, ?_, ?_, fun p hp => ?_⟩
  · exact List.map_snd_zip (by rw [List.length_map, hlength])
  · rwa [List.map_fst_zip (by rw [List.length_map, hlength])]
  · refine hall (p.1, f p.2) ?_
    rw [← List.zip_unzip placed, List.unzip_fst, List.unzip_snd, hys, List.zip_map_right]
    exact List.mem_map.2 ⟨p, hp, rfl⟩

end

/-! ## Sites and their ways -/

mutual

/-- The sites of a node with their ways. -/
def Node.located (l c : Bool) : Node → List (Way × Site)
  | .element h cs => ([], ⟨.element h cs, l, c⟩) :: Node.locatedOf l c 0 0 cs
  | .letBinding h e cs => ([], ⟨.letBinding h e cs, l, c⟩) :: Node.locatedOf l c 0 0 cs
  | .forLoop h b => ([], ⟨.forLoop h b, l, c⟩) :: Node.locatedOf true c 0 0 b
  | .conditional h t e =>
    ([], ⟨.conditional h t e, l, c⟩)
      :: (Node.locatedOf l true 0 0 t ++ Node.locatedOf l true 1 0 e)
  | .call h cs => ([], ⟨.call h cs, l, c⟩) :: Node.locatedOf l c 0 0 cs
  | .slot s => [([], ⟨.slot s, l, c⟩)]
  | .expression e => [([], ⟨.expression e, l, c⟩)]
  | .letReference r => [([], ⟨.letReference r, l, c⟩)]
  | .text t => [([], ⟨.text t, l, c⟩)]
  | .goCode g => [([], ⟨.goCode g, l, c⟩)]

/-- The sites of the body with the number `k`, the first node of which has the
number `i` there. -/
def Node.locatedOf (l c : Bool) (k i : Nat) : List Node → List (Way × Site)
  | [] => []
  | n :: ns =>
    (n.located l c).map (fun p => ((k, i) :: p.1, p.2)) ++ Node.locatedOf l c k (i + 1) ns

end

mutual

theorem Node.map_located : ∀ (l c : Bool) (n : Node),
    (n.located l c).map Prod.snd = n.sites l c
  | l, c, .element _ cs => congrArg (_ :: ·) (Node.map_locatedOf l c 0 0 cs)
  | l, c, .letBinding _ _ cs => congrArg (_ :: ·) (Node.map_locatedOf l c 0 0 cs)
  | _, c, .forLoop _ b => congrArg (_ :: ·) (Node.map_locatedOf true c 0 0 b)
  | l, _, .conditional _ t e => by
    rw [Node.located, Node.sites, List.map_cons, List.map_append, Node.map_locatedOf l true 0 0 t,
      Node.map_locatedOf l true 1 0 e]
  | l, c, .call _ cs => congrArg (_ :: ·) (Node.map_locatedOf l c 0 0 cs)
  | _, _, .slot _ | _, _, .expression _ | _, _, .letReference _ | _, _, .text _
  | _, _, .goCode _ => rfl

/-- The sites with their ways are the sites. -/
theorem Node.map_locatedOf : ∀ (l c : Bool) (k i : Nat) (ns : List Node),
    (Node.locatedOf l c k i ns).map Prod.snd = Node.sitesOf l c ns
  | _, _, _, _, [] => rfl
  | l, c, k, i, n :: ns => by
    rw [Node.locatedOf, Node.sitesOf, List.map_append, List.map_map,
      ← Node.map_located l c n, ← Node.map_locatedOf l c k (i + 1) ns]
    rfl

end

section
variable {l c : Bool} {k i : Nat} {ns : List Node} {way : Way} {s : Site}

/-- The ways into a body start with the number of the body and with that of one of
its nodes. -/
theorem Node.mem_locatedOf :
    (way, s) ∈ Node.locatedOf l c k i ns ↔
      ∃ j n rest, way = (k, i + j) :: rest ∧ ns[j]? = some n ∧ (rest, s) ∈ n.located l c := by
  induction ns generalizing i with
  | nil => simp [Node.locatedOf]
  | cons m ns ih =>
    rw [Node.locatedOf, List.mem_append, ih]
    constructor
    · rintro (hmem | ⟨j, n, rest, rfl, hn, hrest⟩)
      · obtain ⟨⟨rest, s'⟩, hrest, heq⟩ := List.mem_map.1 hmem
        cases heq
        exact ⟨0, m, rest, rfl, rfl, hrest⟩
      · exact ⟨j + 1, n, rest, by rw [Nat.add_assoc, Nat.add_comm 1 j], hn, hrest⟩
    · rintro ⟨j, n, rest, rfl, hn, hrest⟩
      cases j with
      | zero =>
        cases hn
        exact .inl (List.mem_map.2 ⟨(rest, s), hrest, rfl⟩)
      | succ j =>
        exact .inr ⟨j, n, rest, by rw [Nat.add_assoc, Nat.add_comm 1 j], hn, hrest⟩

/-- Ways into one body are in order if those from its nodes are. -/
theorem Node.pairwise_locatedOf_cons {n : Node}
    (hn : ((n.located l c).map Prod.fst).Pairwise Way.Before)
    (hns : ((Node.locatedOf l c k (i + 1) ns).map Prod.fst).Pairwise Way.Before) :
    ((Node.locatedOf l c k i (n :: ns)).map Prod.fst).Pairwise Way.Before := by
  rw [Node.locatedOf, List.map_append, List.map_map, List.pairwise_append]
  refine ⟨?_, hns, fun v hv w hw => ?_⟩
  · rw [List.pairwise_map] at hn ⊢
    exact hn.imp fun h => List.Lex.cons h
  · obtain ⟨⟨v', s⟩, -, rfl⟩ := List.mem_map.1 hv
    obtain ⟨⟨w', s'⟩, hw', rfl⟩ := List.mem_map.1 hw
    obtain ⟨j, m, rest, rfl, -, -⟩ := Node.mem_locatedOf.1 hw'
    exact .rel (Prod.Lex.right k (by omega))

/-- The way to a node comes before the ways into its bodies. -/
theorem Node.pairwise_cons_located {located : List (Way × Site)} {s : Site}
    (h : (located.map Prod.fst).Pairwise Way.Before) (hne : ∀ p ∈ located, p.1 ≠ []) :
    (((([], s) : Way × Site) :: located).map Prod.fst).Pairwise Way.Before := by
  rw [List.map_cons, List.pairwise_cons]
  refine ⟨fun w hw => ?_, h⟩
  obtain ⟨⟨w, s'⟩, hmem, rfl⟩ := List.mem_map.1 hw
  cases w with
  | nil => exact absurd rfl (hne _ hmem)
  | cons step w => exact .nil

theorem Node.ne_nil_of_mem_locatedOf {p : Way × Site} (h : p ∈ Node.locatedOf l c k i ns) :
    p.1 ≠ [] := by
  obtain ⟨j, n, rest, hway, -, -⟩ := Node.mem_locatedOf.1 h
  rw [hway]
  exact List.cons_ne_nil _ _

end

mutual

theorem Node.pairwise_located : ∀ (l c : Bool) (n : Node),
    ((n.located l c).map Prod.fst).Pairwise Way.Before
  | l, c, .element _ cs =>
    Node.pairwise_cons_located (Node.pairwise_locatedOf l c 0 0 cs)
      fun _ => Node.ne_nil_of_mem_locatedOf
  | l, c, .letBinding _ _ cs =>
    Node.pairwise_cons_located (Node.pairwise_locatedOf l c 0 0 cs)
      fun _ => Node.ne_nil_of_mem_locatedOf
  | _, c, .forLoop _ b =>
    Node.pairwise_cons_located (Node.pairwise_locatedOf true c 0 0 b)
      fun _ => Node.ne_nil_of_mem_locatedOf
  | l, _, .conditional _ t e => by
    refine Node.pairwise_cons_located ?_ fun p hp =>
      (List.mem_append.1 hp).elim Node.ne_nil_of_mem_locatedOf Node.ne_nil_of_mem_locatedOf
    rw [List.map_append, List.pairwise_append]
    refine ⟨Node.pairwise_locatedOf l true 0 0 t, Node.pairwise_locatedOf l true 1 0 e,
      fun v hv w hw => ?_⟩
    obtain ⟨⟨v, s⟩, hthen, rfl⟩ := List.mem_map.1 hv
    obtain ⟨⟨w, s'⟩, helse, rfl⟩ := List.mem_map.1 hw
    obtain ⟨_, _, _, rfl, -, -⟩ := Node.mem_locatedOf.1 hthen
    obtain ⟨_, _, _, rfl, -, -⟩ := Node.mem_locatedOf.1 helse
    exact .rel (Prod.Lex.left _ _ Nat.zero_lt_one)
  | l, c, .call _ cs =>
    Node.pairwise_cons_located (Node.pairwise_locatedOf l c 0 0 cs)
      fun _ => Node.ne_nil_of_mem_locatedOf
  | _, _, .slot _ | _, _, .expression _ | _, _, .letReference _ | _, _, .text _
  | _, _, .goCode _ => List.pairwise_singleton _ _

/-- **The ways to the sites ascend.** -/
theorem Node.pairwise_locatedOf : ∀ (l c : Bool) (k i : Nat) (ns : List Node),
    ((Node.locatedOf l c k i ns).map Prod.fst).Pairwise Way.Before
  | _, _, _, _, [] => .nil
  | l, c, k, i, n :: ns =>
    Node.pairwise_locatedOf_cons (Node.pairwise_located l c n)
      (Node.pairwise_locatedOf l c k (i + 1) ns)

end

/-! ## What encloses a site -/

/-- Whether a node is a loop. -/
def Node.isLoop : Node → Bool
  | .forLoop _ _ => true
  | _ => false

/-- Whether a node is a conditional. -/
def Node.isConditional : Node → Bool
  | .conditional _ _ _ => true
  | _ => false

theorem Node.exists_isLoop {P : Node → Prop} :
    (∃ n, P n ∧ n.isLoop = true) ↔ ∃ h b, P (.forLoop h b) := by
  constructor
  · rintro ⟨n, hn, hloop⟩
    cases n with
    | forLoop h b => exact ⟨h, b, hn⟩
    | _ => cases hloop
  · rintro ⟨h, b, hn⟩
    exact ⟨_, hn, rfl⟩

theorem Node.exists_isConditional {P : Node → Prop} :
    (∃ n, P n ∧ n.isConditional = true) ↔ ∃ h t e, P (.conditional h t e) := by
  constructor
  · rintro ⟨n, hn, hconditional⟩
    cases n with
    | conditional h t e => exact ⟨h, t, e, hn⟩
    | _ => cases hconditional
  · rintro ⟨h, t, e, hn⟩
    exact ⟨_, hn, rfl⟩

section
variable {l c : Bool} {way : Way} {s : Site} {n : Node}

/-- The only site of a node without a step down is its own. -/
theorem Node.nil_mem_located : ([], s) ∈ n.located l c ↔ s = ⟨n, l, c⟩ := by
  have hinner : ∀ {l' c' k ns}, ([], s) ∉ Node.locatedOf l' c' k 0 ns := fun h =>
    Node.ne_nil_of_mem_locatedOf h rfl
  cases n <;> simp [Node.located, hinner]

/-- **One step down.** The sites in a body of a node stand in a loop if the node
does or is one, and likewise for conditionals. -/
theorem Node.cons_mem_located {k i : Nat} :
    ((k, i) :: way, s) ∈ n.located l c ↔
      ∃ m, (n.bodies[k]?.bind fun ns => ns[i]?) = some m
        ∧ (way, s) ∈ m.located (l || n.isLoop) (c || n.isConditional) := by
  have hbody : ∀ {l' c' : Bool} {k' : Nat} {ns : List Node},
      ((k, i) :: way, s) ∈ Node.locatedOf l' c' k' 0 ns ↔
        k = k' ∧ ∃ m, ns[i]? = some m ∧ (way, s) ∈ m.located l' c' := by
    intro l' c' k' ns
    rw [Node.mem_locatedOf]
    constructor
    · rintro ⟨j, m, rest, heq, hm, hrest⟩
      cases heq
      exact ⟨rfl, m, by rwa [Nat.zero_add], hrest⟩
    · rintro ⟨rfl, m, hm, hmem⟩
      exact ⟨i, m, way, by rw [Nat.zero_add], hm, hmem⟩
  have hone : ∀ {l' c' : Bool} {ns : List Node},
      ((k, i) :: way, s) ∈ Node.locatedOf l' c' 0 0 ns ↔
        ∃ m, ([ns][k]?.bind fun ns => ns[i]?) = some m ∧ (way, s) ∈ m.located l' c' := by
    intro l' c' ns
    rw [hbody]
    cases k with
    | zero => exact and_iff_right rfl
    | succ k => simp
  cases n with
  | conditional h t e =>
    rw [Node.located, List.mem_cons, List.mem_append, hbody, hbody]
    match k with
    | 0 | 1 | k + 2 => simp [Node.bodies, Node.isLoop, Node.isConditional]
  | element | letBinding | forLoop | call =>
    rw [Node.located, List.mem_cons, hone]
    simp [Node.bodies, Node.isLoop, Node.isConditional]
  | slot | expression | letReference | text | goCode =>
    simp [Node.located, Node.bodies]

/-- A node is on a way down from another one, before the end of the way. -/
def Node.Passes (n : Node) (way : Way) (m : Node) : Prop :=
  ∃ before, before <+: way ∧ before ≠ way ∧ n.descend? before = some m

theorem Node.not_passes_nil {m : Node} : ¬n.Passes [] m := by
  rintro ⟨before, hprefix, hne, -⟩
  exact hne (List.prefix_nil.1 hprefix)

/-- A way with a step passes the node where it starts, and what the rest of it
passes. -/
theorem Node.passes_cons {k i : Nat} {inner m : Node}
    (h : (n.bodies[k]?.bind fun ns => ns[i]?) = some inner) :
    n.Passes ((k, i) :: way) m ↔ m = n ∨ inner.Passes way m := by
  constructor
  · rintro ⟨before, hprefix, hne, hm⟩
    rcases List.prefix_cons_iff.1 hprefix with rfl | ⟨rest, rfl, hrest⟩
    · exact .inl (Option.some.inj hm).symm
    · rw [Node.descend?, h] at hm
      exact .inr ⟨rest, hrest, fun heq => hne (congrArg _ heq), hm⟩
  · rintro (rfl | ⟨before, hprefix, hne, hm⟩)
    · exact ⟨[], List.nil_prefix, (List.cons_ne_nil _ _).symm, rfl⟩
    · refine ⟨(k, i) :: before, (List.prefix_cons_inj _).2 hprefix,
        fun heq => hne (List.cons.inj heq).2, ?_⟩
      rw [Node.descend?, h]
      exact hm

/-- **A site is at the end of its way**, and its marks are those of the nodes that
the way passes, given the marks of the node where it starts. -/
theorem Node.mem_located_iff :
    (way, s) ∈ n.located l c ↔ n.descend? way = some s.node
      ∧ (s.inLoop = true ↔ l = true ∨ ∃ m, n.Passes way m ∧ m.isLoop = true)
      ∧ (s.inConditional = true ↔ c = true ∨ ∃ m, n.Passes way m ∧ m.isConditional = true) := by
  induction way generalizing n l c with
  | nil =>
    rw [Node.nil_mem_located]
    obtain ⟨m, l', c'⟩ := s
    simp only [Node.descend?, Node.not_passes_nil, false_and, exists_false, or_false,
      ← Bool.eq_iff_iff, Site.mk.injEq, Option.some.injEq]
    exact and_congr_left' eq_comm
  | cons step way ih =>
    obtain ⟨k, i⟩ := step
    rw [Node.cons_mem_located]
    cases hinner : n.bodies[k]?.bind fun ns => ns[i]? with
    | none => simp [Node.descend?, hinner]
    | some inner =>
      simp only [Option.some.injEq, exists_eq_left', ih, Node.descend?, hinner, Option.bind_some,
        Node.passes_cons hinner, Bool.or_eq_true, or_and_right, exists_or, exists_eq_left,
        or_assoc]

/-- What encloses a place in a body: the nodes on the way from a node of the body. -/
theorem Node.encloses_iff {body : List Node} {i : Nat} {m : Node} (h : body[i]? = some n) :
    Node.Encloses body ((0, i) :: way) m ↔ n.Passes way m := by
  constructor
  · rintro ⟨before, hprefix, hne, hm⟩
    rcases List.prefix_cons_iff.1 hprefix with rfl | ⟨rest, rfl, hrest⟩
    · cases hm
    · refine ⟨rest, hrest, fun heq => hne (congrArg _ heq), ?_⟩
      simpa [Node.at?, h] using hm
  · rintro ⟨before, hprefix, hne, hm⟩
    refine ⟨(0, i) :: before, (List.prefix_cons_inj _).2 hprefix,
      fun heq => hne (List.cons.inj heq).2, ?_⟩
    simpa [Node.at?, h] using hm

/-- The sites with their ways are the sites at their places. -/
theorem Node.mem_locatedOf_iff {body : List Node} :
    (way, s) ∈ Node.locatedOf false false 0 0 body ↔ s.At body way := by
  have hat {i : Nat} {rest : Way} {n : Node} (hn : body[i]? = some n) :
      (rest, s) ∈ n.located false false ↔ s.At body ((0, i) :: rest) := by
    rw [Node.mem_located_iff, Node.exists_isLoop, Node.exists_isConditional]
    have hnode : Node.at? body ((0, i) :: rest) = n.descend? rest := by
      rw [Node.at?, List.getElem?_cons_zero, Option.bind_some, hn, Option.bind_some]
    constructor
    · rintro ⟨hdescend, hloop, hconditional⟩
      refine ⟨hnode.trans hdescend, ?_, ?_⟩
      · simpa only [Node.encloses_iff hn, Bool.false_eq_true, false_or] using hloop
      · simpa only [Node.encloses_iff hn, Bool.false_eq_true, false_or] using hconditional
    · rintro ⟨hdescend, hloop, hconditional⟩
      simp only [Node.encloses_iff hn] at hloop hconditional
      refine ⟨hnode.symm.trans hdescend, ?_, ?_⟩
      · rwa [Bool.false_eq_true, false_or]
      · rwa [Bool.false_eq_true, false_or]
  rw [Node.mem_locatedOf]
  constructor
  · rintro ⟨i, n, rest, rfl, hn, hrest⟩
    rw [Nat.zero_add]
    exact (hat hn).1 hrest
  · intro hs
    match way, hs with
    | [], ⟨hnode, _, _⟩ => cases hnode
    | (k, i) :: rest, hs =>
      obtain ⟨n, hn, hrest⟩ := Option.bind_eq_some_iff.1 hs.node_eq
      obtain ⟨ns, hns, hn⟩ := Option.bind_eq_some_iff.1 hn
      obtain ⟨rfl, rfl⟩ : k = 0 ∧ body = ns := by
        cases k with
        | zero => exact ⟨rfl, Option.some.inj hns⟩
        | succ k => cases hns
      exact ⟨i, n, rest, by rw [Nat.zero_add], hn, (hat hn).2 hs⟩

end

/-- **The sites of a body are in document order**, each with what encloses it. -/
theorem Node.sites_inDocumentOrder (body : List Node) :
    InDocumentOrder (Site.At body) (Node.sitesOf false false body) :=
  ⟨Node.locatedOf false false 0 0 body, Node.map_locatedOf false false 0 0 body,
    Node.pairwise_locatedOf false false 0 0 body, fun _ _ => Node.mem_locatedOf_iff⟩

theorem Site.element?_eq_some_iff {s : Site} {e : ElementSite} :
    s.element? = some e ↔ s = ⟨.element e.head e.children, e.inLoop, e.inConditional⟩ := by
  obtain ⟨n, l, c⟩ := s
  obtain ⟨h, cs, l', c'⟩ := e
  cases n <;> simp [Site.element?, and_assoc]

/-- The elements of a body with their ways. -/
def Node.locatedElements (body : List Node) : List (Way × ElementSite) :=
  keepPlaced Site.element? (Node.locatedOf false false 0 0 body)

theorem Node.map_snd_locatedElements (body : List Node) :
    (Node.locatedElements body).map Prod.snd = elementSites body := by
  rw [Node.locatedElements, map_snd_keepPlaced, Node.map_locatedOf, elementSites]

theorem Node.pairwise_locatedElements (body : List Node) :
    ((Node.locatedElements body).map Prod.fst).Pairwise Way.Before :=
  pairwise_keepPlaced _ (Node.pairwise_locatedOf false false 0 0 body)

/-- The elements with their ways are the elements at their places. -/
theorem Node.mem_locatedElements {body : List Node} {way : Way} {e : ElementSite} :
    (way, e) ∈ Node.locatedElements body ↔ e.At body way := by
  rw [Node.locatedElements, mem_keepPlaced]
  simp only [Node.mem_locatedOf_iff, Site.element?_eq_some_iff, exists_eq_right]
  exact ⟨fun h => ⟨h.node_eq, h.inLoop_iff, h.inConditional_iff⟩,
    fun h => ⟨h.node_eq, h.inLoop_iff, h.inConditional_iff⟩⟩

/-- **The elements of a body are in document order**, each with what encloses it. -/
theorem elementSites_inDocumentOrder (body : List Node) :
    InDocumentOrder (ElementSite.At body) (elementSites body) :=
  ⟨Node.locatedElements body, Node.map_snd_locatedElements body,
    Node.pairwise_locatedElements body, fun _ _ => Node.mem_locatedElements⟩

/-- An element that no loop encloses is marked so. -/
theorem ElementSite.At.inLoop_eq_false {body : List Node} {way : Way} {e : ElementSite}
    (h : e.At body way) (houtside : ∀ head b, ¬Node.Encloses body way (.forLoop head b)) :
    e.inLoop = false :=
  Bool.eq_false_iff.2 fun hloop => by
    obtain ⟨head, b, hencloses⟩ := h.inLoop_iff.1 hloop
    exact houtside head b hencloses

end Gsx
