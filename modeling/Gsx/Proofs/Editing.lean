import Gsx.Proofs.Surroundings
/-!
# Editing an element in place

An edit changes the head of one element, the one at the end of a way, and nothing else
of a body. All nodes stand where they stood. So the sites of the edited body are those
of the body at the same places, each with what the edit makes of it: the element has
its new head, the nodes around it have it inside, and the others are as they were.
-/

namespace Gsx

/-! ## Edits -/

/-- A node with its bodies changed, each by its number. -/
def Node.mapBodies (g : Nat → List Node → List Node) : Node → Node
  | .element h cs => .element h (g 0 cs)
  | .letBinding h e cs => .letBinding h e (g 0 cs)
  | .forLoop h b => .forLoop h (g 0 b)
  | .conditional h t e => .conditional h (g 0 t) (g 1 e)
  | .call h cs => .call h (g 0 cs)
  | .slot s => .slot s
  | .expression e => .expression e
  | .letReference r => .letReference r
  | .text t => .text t
  | .goCode c => .goCode c

/-- A node with its head changed, if it is an element. -/
def Node.mapHead (f : ElementHead → ElementHead) : Node → Node
  | .element h cs => .element (f h) cs
  | n => n

/-- A node with the head of the element at the end of a way changed. -/
def Node.editAt (f : ElementHead → ElementHead) : Way → Node → Node
  | [], n => n.mapHead f
  | (k, i) :: way, n =>
    n.mapBodies fun j ns => if k = j then ns.modify i (Node.editAt f way) else ns

/-- The body with the number `j`, with the head of the element at the end of a way
changed. -/
def Node.editBody (f : ElementHead → ElementHead) (j : Nat) : Way → List Node → List Node
  | [], ns => ns
  | (k, i) :: way, ns => if k = j then ns.modify i (Node.editAt f way) else ns

/-- A component with the head of the element at the end of a way changed. -/
def Component.editAt (f : ElementHead → ElementHead) (way : Way) (comp : Component) : Component :=
  { comp with body := Node.editBody f 0 way comp.body }

/-- What an edit at the end of a way makes of the site at the end of another one. -/
def Site.editAt (f : ElementHead → ElementHead) : Way → Way → Site → Site
  | way, [], s => { s with node := s.node.editAt f way }
  | [], _ :: _, s => s
  | step :: way, step' :: w, s => if step = step' then s.editAt f way w else s

/-- What an edit at the end of a way makes of the element at the end of another
one. -/
def ElementSite.editAt (f : ElementHead → ElementHead) : Way → Way → ElementSite → ElementSite
  | [], [], e => { e with head := f e.head }
  | step :: way, [], e => { e with children := Node.editBody f 0 (step :: way) e.children }
  | [], _ :: _, e => e
  | step :: way, step' :: w, e => if step = step' then e.editAt f way w else e

section
variable {f : ElementHead → ElementHead} {way w : Way} {n : Node} {ns : List Node} {l c : Bool}
  {s : Site}

/-! ## Sites of an edited body -/

/-- Some sites at their ways, edited. -/
def Site.editAll (f : ElementHead → ElementHead) (way : Way) (located : List (Way × Site)) :
    List (Way × Site) :=
  located.map fun p => (p.1, p.2.editAt f way p.1)

theorem Site.editAll_eq_self {located : List (Way × Site)}
    (h : ∀ p ∈ located, p.2.editAt f way p.1 = p.2) : Site.editAll f way located = located := by
  have hself : Site.editAll f way located = located.map id :=
    List.map_congr_left fun p hp => Prod.ext rfl (h p hp)
  rw [hself, List.map_id]

/-- An edit at the start of a way leaves what is inside. -/
theorem Site.editAll_nil_locatedOf {k i : Nat} :
    Site.editAll f [] (Node.locatedOf l c k i ns) = Node.locatedOf l c k i ns := by
  refine Site.editAll_eq_self fun p hp => ?_
  obtain ⟨_, _, _, hway, -, -⟩ := Node.mem_locatedOf.1 hp
  rw [hway, Site.editAt]

/-- An edit leaves what a way does not pass that its own way passes first. -/
theorem Site.editAll_locatedOf {step : Nat × Nat} {k i : Nat} (h : ∀ j, step ≠ (k, i + j)) :
    Site.editAll f (step :: way) (Node.locatedOf l c k i ns) = Node.locatedOf l c k i ns := by
  refine Site.editAll_eq_self fun p hp => ?_
  obtain ⟨j, _, _, hway, -, -⟩ := Node.mem_locatedOf.1 hp
  rw [hway, Site.editAt, if_neg (h j)]

/-- Behind one more step an edit does what it does before. -/
theorem Site.editAll_cons (step : Nat × Nat) (located : List (Way × Site)) :
    Site.editAll f (step :: way) (located.map fun p => (step :: p.1, p.2))
      = (Site.editAll f way located).map fun p => (step :: p.1, p.2) := by
  rw [Site.editAll, Site.editAll, List.map_map, List.map_map]
  refine List.map_congr_left fun p _ => ?_
  simp only [Function.comp_apply, Site.editAt, if_true]

theorem Site.editAll_cons_of_ne {step step' : Nat × Nat} (h : step ≠ step')
    (located : List (Way × Site)) :
    Site.editAll f (step :: way) (located.map fun p => (step' :: p.1, p.2))
      = located.map fun p => (step' :: p.1, p.2) := by
  refine Site.editAll_eq_self fun p hp => ?_
  obtain ⟨_, -, rfl⟩ := List.mem_map.1 hp
  rw [Site.editAt, if_neg h]

/-- The sites of an edited body, given those of its edited nodes. -/
theorem Node.locatedOf_modify {k i i' : Nat}
    (hnode : ∀ n, (Node.editAt f way n).located l c = Site.editAll f way (n.located l c)) :
    Node.locatedOf l c k i' (ns.modify i (Node.editAt f way))
      = Site.editAll f ((k, i' + i) :: way) (Node.locatedOf l c k i' ns) := by
  -- the nodes in front of the edited one are passed one by one, so the numbers shift
  induction ns generalizing i i' with
  | nil =>
    rw [List.modify_nil]
    rfl
  | cons n ns ih =>
    rw [Node.locatedOf, Site.editAll, List.map_append, ← Site.editAll, ← Site.editAll]
    cases i with
    | zero =>
      rw [List.modify_zero_cons, Node.locatedOf, hnode]
      simp only [Nat.add_zero]
      have hbehind : ∀ j, (k, i') ≠ (k, i' + 1 + j) := fun j heq => by
        have hstep := (Prod.mk.inj heq).2
        omega
      rw [Site.editAll_cons, Site.editAll_locatedOf hbehind]
    | succ i =>
      rw [List.modify_succ_cons, Node.locatedOf, ih, Site.editAll_cons_of_ne (by simp),
        Nat.add_right_comm, Nat.add_assoc]

/-- The sites of an edited body, whatever its number. -/
theorem Node.locatedOf_editBody {j : Nat}
    (hnode : ∀ k i rest, way = (k, i) :: rest → ∀ n,
      (Node.editAt f rest n).located l c = Site.editAll f rest (n.located l c)) :
    Node.locatedOf l c j 0 (Node.editBody f j way ns)
      = Site.editAll f way (Node.locatedOf l c j 0 ns) := by
  match way with
  | [] => rw [Node.editBody, Site.editAll_nil_locatedOf]
  | (k, i) :: rest =>
    rw [Node.editBody]
    split
    · next hj => rw [hj, Node.locatedOf_modify (hnode k i rest rfl), Nat.zero_add]
    · next hj => rw [Site.editAll_locatedOf fun _ heq => hj (Prod.mk.inj heq).1]

/-- **The sites of an edited node** are its sites, edited. -/
theorem Node.located_editAt (way : Way) (n : Node) (l c : Bool) :
    (n.editAt f way).located l c = Site.editAll f way (n.located l c) := by
  induction way generalizing n l c with
  | nil =>
    cases n with
    | conditional h t e =>
      rw [Node.located, Site.editAll, List.map_cons, List.map_append, ← Site.editAll,
        ← Site.editAll, Site.editAll_nil_locatedOf, Site.editAll_nil_locatedOf]
      rfl
    | element | letBinding | forLoop | call =>
      rw [Node.located, Site.editAll, List.map_cons, ← Site.editAll, Site.editAll_nil_locatedOf]
      rfl
    | slot | expression | letReference | text | goCode => rfl
  | cons step way ih =>
    have hbody : ∀ {l c : Bool} (j : Nat) (ns : List Node),
        Site.editAll f (step :: way) (Node.locatedOf l c j 0 ns)
          = Node.locatedOf l c j 0 (Node.editBody f j (step :: way) ns) := fun j ns => by
      refine (Node.locatedOf_editBody fun _ _ _ hway n => ?_).symm
      obtain ⟨-, rfl⟩ := List.cons.inj hway
      exact ih n _ _
    cases n with
    | conditional h t e =>
      rw [Node.located, Site.editAll, List.map_cons, List.map_append, ← Site.editAll,
        ← Site.editAll, hbody, hbody]
      rfl
    | element | letBinding | forLoop | call =>
      rw [Node.located, Site.editAll, List.map_cons, ← Site.editAll, hbody]
      rfl
    | slot | expression | letReference | text | goCode => rfl

/-! ## Elements of an edited body -/

/-- An edit makes elements of elements and of nothing else. -/
theorem Site.element?_editAt (way w : Way) (s : Site) :
    (s.editAt f way w).element? = s.element?.map (·.editAt f way w) := by
  induction w generalizing way with
  | nil =>
    obtain ⟨n, l, c⟩ := s
    cases way <;> cases n <;> rfl
  | cons step' w ih =>
    cases way with
    | nil => exact Option.map_id'.symm
    | cons step way =>
      rw [Site.editAt]
      split
      · next h => simp only [ih, ElementSite.editAt, if_pos h]
      · next h => simp only [ElementSite.editAt, if_neg h, Option.map_id']

/-- **The elements of an edited body** are those of the body at their places,
edited. -/
theorem Node.locatedElements_editBody (f : ElementHead → ElementHead) (way : Way)
    (body : List Node) :
    Node.locatedElements (Node.editBody f 0 way body)
      = (Node.locatedElements body).map fun p => (p.1, p.2.editAt f way p.1) := by
  rw [Node.locatedElements, Node.locatedOf_editBody fun _ _ rest _ n => n.located_editAt rest _ _,
    Node.locatedElements, keepPlaced, keepPlaced, Site.editAll, List.filterMap_map,
    List.map_filterMap]
  refine List.filterMap_congr fun p _ => ?_
  rw [Function.comp_apply, Site.element?_editAt, Option.map_map, Option.map_map]
  rfl

/-- No place comes before itself. -/
theorem Way.not_before_self (way : Way) : ¬Way.Before way way := by
  induction way with
  | nil => exact fun h => by cases h
  | cons step way ih =>
    intro h
    cases h with
    | cons h => exact ih h
    | rel h => cases h <;> omega

/-- An element with its place parts the elements of a body in two. -/
theorem Node.exists_locatedElements_eq {body : List Node} {e : ElementSite} (h : e.At body way) :
    ∃ front back, Node.locatedElements body = front ++ (way, e) :: back
      ∧ ∀ p ∈ front ++ back, p.1 ≠ way := by
  obtain ⟨front, back, hsplit⟩ := List.append_of_mem (Node.mem_locatedElements.2 h)
  have hordered := Node.pairwise_locatedElements body
  rw [hsplit, List.map_append, List.map_cons, List.pairwise_append, List.pairwise_cons] at hordered
  obtain ⟨-, ⟨hback, -⟩, hfront⟩ := hordered
  refine ⟨front, back, hsplit, fun p hp heq => ?_⟩
  refine (List.mem_append.1 hp).elim (fun hp => ?_) fun hp => ?_
  · have hbefore := hfront p.1 (List.mem_map.2 ⟨p, hp, rfl⟩) way List.mem_cons_self
    exact Way.not_before_self way (heq ▸ hbefore)
  · have hbefore := hback p.1 (List.mem_map.2 ⟨p, hp, rfl⟩)
    exact Way.not_before_self way (heq ▸ hbefore)

/-! ## What an edit leaves -/

/-- What an edit does not change of a node it does not change of a body. -/
theorem Node.filterMap_editBody {α : Type} {g : Node → Option α}
    (h : ∀ (way : Way) (n : Node), g (n.editAt f way) = g n) (j : Nat) (way : Way)
    (ns : List Node) : (Node.editBody f j way ns).filterMap g = ns.filterMap g := by
  have hmodify : ∀ (rest : Way) (i : Nat),
      (ns.modify i (Node.editAt f rest)).filterMap g = ns.filterMap g := by
    intro rest i
    induction ns generalizing i with
    | nil => rw [List.modify_nil]
    | cons n ns ih =>
      cases i with
      | zero => rw [List.modify_zero_cons, List.filterMap_cons, List.filterMap_cons, h]
      | succ i => rw [List.modify_succ_cons, List.filterMap_cons, List.filterMap_cons, ih]
  match way with
  | [] => rfl
  | (k, i) :: rest =>
    rw [Node.editBody]
    split
    · exact hmodify rest i
    · rfl

theorem Node.length_editBody (j : Nat) (way : Way) (ns : List Node) :
    (Node.editBody f j way ns).length = ns.length := by
  have hlength := congrArg List.length
    (Node.filterMap_editBody (f := f) (g := fun _ => some ()) (fun _ _ => rfl) j way ns)
  simpa using hlength

/-- An edit leaves text as it is. -/
theorem Node.filter_isTextual_editBody (j : Nat) (way : Way) (ns : List Node) :
    (Node.editBody f j way ns).filter Node.isTextual = ns.filter Node.isTextual := by
  rw [← List.filterMap_eq_filter]
  refine Node.filterMap_editBody (fun way n => ?_) j way ns
  cases way <;> cases n <;> rfl

theorem Node.filterMap_statement?_editBody (j : Nat) (way : Way) (ns : List Node) :
    (Node.editBody f j way ns).filterMap Node.statement? = ns.filterMap Node.statement? := by
  refine Node.filterMap_editBody (fun way n => ?_) j way ns
  cases way <;> cases n <;> rfl

/-- **What an edit makes of an element**: a new head of the one at its place, and
perhaps other children of any other one. -/
theorem ElementSite.editAt_cases (f : ElementHead → ElementHead) (way w : Way) (e : ElementSite) :
    (w = way ∧ e.editAt f way w = { e with head := f e.head })
      ∨ w ≠ way ∧ ∃ rest, e.editAt f way w = { e with children := Node.editBody f 0 rest e.children } := by
  induction w generalizing way with
  | nil =>
    cases way with
    | nil => exact .inl ⟨rfl, rfl⟩
    | cons step way => exact .inr ⟨by simp, step :: way, rfl⟩
  | cons step' w ih =>
    cases way with
    | nil => exact .inr ⟨by simp, [], rfl⟩
    | cons step way =>
      rw [ElementSite.editAt]
      split
      · next h =>
        subst h
        exact (ih way).imp (fun h => ⟨congrArg _ h.1, h.2⟩)
          fun h => ⟨fun heq => h.1 (List.cons.inj heq).2, h.2⟩
      · next h => exact .inr ⟨fun heq => h (List.cons.inj heq).1.symm, [], rfl⟩

end

end Gsx
