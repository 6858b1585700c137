import Gsx.Proofs.Surroundings
/-!
# The sites of a file

A node of a file is found by the component that it stands in and its way down from
there. The components of a file one after the other give its sites with their ways,
again in document order and without gaps. What a file says of a component, whether
it has a slot and which of several components a name means, is told by ways too.
-/

namespace Gsx

/-! ## Nodes of a file -/

namespace SourceFile

/-- The node at the end of a way into a file. The first step of the way enters a
component at a node of its body. -/
def at? (f : SourceFile) : Way → Option Node
  | [] => none
  | (k, i) :: way => (f.components[k]?.bind fun c => c.body[i]?).bind fun n => n.descend? way

/-- An element stands at the end of a way, or is what the `@let` there binds. -/
def HasElement (f : SourceFile) (way : Way) (e : ElementHead) (cs : List Node) : Prop :=
  f.at? way = some (.element e cs) ∨ ∃ h, f.at? way = some (.letBinding h e cs)

/-- A slot stands somewhere in the body of a component. -/
def HasSlot (f : SourceFile) (k : Nat) : Prop :=
  ∃ i way s, f.at? ((k, i) :: way) = some (.slot s)

/-- **A name refuses children**: no slot is in the body of the last component of
that name. -/
def Refuses (f : SourceFile) (name : String) : Prop :=
  ∃ k comp, f.components[k]? = some comp ∧ comp.name = name
    ∧ (∀ j later, k < j → f.components[j]? = some later → later.name ≠ name) ∧ ¬f.HasSlot k

end SourceFile

/-! ## The sites of a file -/

/-- **The entry of a name** is the last one. -/
theorem ComponentIndex.accepts?_iff_last {i : ComponentIndex} {name : String} {accepts : Bool} :
    i.accepts? name = some accepts ↔ ∃ k, i.entries[k]? = some (name, accepts)
      ∧ ∀ (j : Nat) (e : String × Bool), k < j → i.entries[j]? = some e → e.1 ≠ name := by
  rw [accepts?, List.lookup_eq_some_iff]
  constructor
  · rintro ⟨later, earlier, hsplit, hlater⟩
    have hentries : i.entries = earlier.reverse ++ (name, accepts) :: later.reverse := by
      rw [← List.reverse_reverse i.entries, hsplit]
      simp
    refine ⟨earlier.reverse.length, by rw [hentries]; simp, fun j e hj he => ?_⟩
    rw [hentries, List.getElem?_append_right (by omega)] at he
    obtain ⟨d, rfl⟩ : ∃ d, j = earlier.reverse.length + (d + 1) :=
      ⟨j - earlier.reverse.length - 1, by omega⟩
    rw [Nat.add_sub_cancel_left, List.getElem?_cons_succ] at he
    have hmem := List.mem_reverse.1 (List.mem_of_getElem? he)
    exact (bne_iff_ne.1 (hlater e hmem)).symm
  · rintro ⟨k, hk, hlater⟩
    obtain ⟨hlt, hget⟩ := List.getElem?_eq_some_iff.1 hk
    refine ⟨(i.entries.drop (k + 1)).reverse, (i.entries.take k).reverse, ?_, fun e he => ?_⟩
    · conv_lhs => rw [← List.take_append_drop k i.entries, List.drop_eq_getElem_cons hlt, hget]
      simp
    · obtain ⟨d, hd⟩ := List.mem_iff_getElem?.1 (List.mem_reverse.1 he)
      rw [List.getElem?_drop] at hd
      exact bne_iff_ne.2 (hlater _ e (by omega) hd).symm

namespace SourceFile

/-- The sites of some components with their ways, the first component having the
number `k`. -/
def locatedFrom (k : Nat) (comps : List Component) : List (Way × Site) :=
  (comps.zipIdx k).flatMap fun p => Node.locatedOf false false p.2 0 p.1.body

/-- The sites of a file with their ways. -/
def located (f : SourceFile) : List (Way × Site) :=
  locatedFrom 0 f.components

theorem map_locatedFrom (k : Nat) (comps : List Component) :
    (locatedFrom k comps).map Prod.snd = comps.flatMap Component.sites := by
  induction comps generalizing k with
  | nil => rfl
  | cons comp comps ih =>
    have hsplit : locatedFrom k (comp :: comps)
        = Node.locatedOf false false k 0 comp.body ++ locatedFrom (k + 1) comps := by
      rw [locatedFrom, List.zipIdx_cons, List.flatMap_cons]
      rfl
    rw [hsplit, List.map_append, ih, Node.map_locatedOf]
    rfl

/-- The ways into a file ascend. -/
theorem pairwise_located (f : SourceFile) :
    (f.located.map Prod.fst).Pairwise Way.Before := by
  rw [located, locatedFrom, List.map_flatMap, List.pairwise_flatMap]
  refine ⟨fun p _ => Node.pairwise_locatedOf false false p.2 0 p.1.body, ?_⟩
  have hnumbers : (f.components.zipIdx).Pairwise fun p q => p.2 < q.2 := by
    rw [← List.pairwise_map (f := Prod.snd), List.zipIdx_map_snd]
    exact List.pairwise_lt_range' 1
  -- ways into two components part at their first steps
  refine hnumbers.imp fun {p q} hlt v hv w hw => ?_
  obtain ⟨⟨v, s⟩, hmem, rfl⟩ := List.mem_map.1 hv
  obtain ⟨⟨w, s'⟩, hmem', rfl⟩ := List.mem_map.1 hw
  obtain ⟨i, n, rest, rfl, -, -⟩ := Node.mem_locatedOf.1 hmem
  obtain ⟨i', n', rest', rfl, -, -⟩ := Node.mem_locatedOf.1 hmem'
  exact .rel (Prod.Lex.left _ _ hlt)

/-- **The sites of a file are the nodes at its ways.** -/
theorem exists_located_iff {f : SourceFile} {way : Way} {n : Node} :
    (∃ s, (way, s) ∈ f.located ∧ s.node = n) ↔ f.at? way = some n := by
  constructor
  · rintro ⟨s, hmem, rfl⟩
    obtain ⟨⟨comp, k⟩, hcomp, hsite⟩ := List.mem_flatMap.1 hmem
    obtain ⟨i, m, rest, rfl, hm, hrest⟩ := Node.mem_locatedOf.1 hsite
    have hdescend := (Node.mem_located_iff.1 hrest).1
    rw [List.mk_mem_zipIdx_iff_getElem?] at hcomp
    rw [Nat.zero_add, at?, hcomp, Option.bind_some, hm, Option.bind_some, hdescend]
  · intro hat
    match way, hat with
    | [], hat => cases hat
    | (k, i) :: rest, hat =>
      obtain ⟨m, hm, hdescend⟩ := Option.bind_eq_some_iff.1 hat
      obtain ⟨comp, hcomp, hm⟩ := Option.bind_eq_some_iff.1 hm
      -- the marks of the site say what the way passes
      classical
      let s : Site := ⟨n, decide (∃ m', m.Passes rest m' ∧ m'.isLoop = true),
        decide (∃ m', m.Passes rest m' ∧ m'.isConditional = true)⟩
      have hrest : (rest, s) ∈ m.located false false := by
        rw [Node.mem_located_iff]
        simp only [s, hdescend, decide_eq_true_eq, Bool.false_eq_true, false_or, and_self]
      refine ⟨s, List.mem_flatMap.2 ⟨(comp, k), ?_, ?_⟩, rfl⟩
      · exact List.mk_mem_zipIdx_iff_getElem?.2 hcomp
      · exact Node.mem_locatedOf.2 ⟨i, m, rest, by rw [Nat.zero_add], hm, hrest⟩

/-- The same, without the ways of the sites. -/
theorem exists_site_iff {f : SourceFile} {P : Node → Prop} :
    (∃ s ∈ f.components.flatMap Component.sites, P s.node)
      ↔ ∃ way n, f.at? way = some n ∧ P n := by
  rw [← map_locatedFrom 0]
  constructor
  · rintro ⟨s, hs, hP⟩
    obtain ⟨⟨way, s⟩, hmem, rfl⟩ := List.mem_map.1 hs
    exact ⟨way, s.node, exists_located_iff.1 ⟨s, hmem, rfl⟩, hP⟩
  · rintro ⟨way, n, hn, hP⟩
    obtain ⟨s, hmem, rfl⟩ := exists_located_iff.2 hn
    exact ⟨s, List.mem_map_of_mem hmem, hP⟩

/-- A component has a slot where its sites have one. -/
theorem hasSlot_iff {f : SourceFile} {k : Nat} {comp : Component}
    (h : f.components[k]? = some comp) : comp.hasSlot = true ↔ f.HasSlot k := by
  have hslot : ∀ {s : Site}, s.isSlot = true ↔ ∃ slot, s.node = .slot slot := by
    rintro ⟨n, l, c⟩
    cases n <;> simp [Site.isSlot]
  rw [Component.hasSlot, List.any_eq_true]
  constructor
  · rintro ⟨s, hs, hisSlot⟩
    obtain ⟨slot, hnode⟩ := hslot.1 hisSlot
    rw [Component.sites, ← Node.map_locatedOf false false k 0] at hs
    obtain ⟨⟨way, s⟩, hmem, rfl⟩ := List.mem_map.1 hs
    have hlocated : (way, s) ∈ f.located :=
      List.mem_flatMap.2 ⟨(comp, k), List.mk_mem_zipIdx_iff_getElem?.2 h, hmem⟩
    obtain ⟨i, n, rest, rfl, -, -⟩ := Node.mem_locatedOf.1 hmem
    exact ⟨0 + i, rest, slot, exists_located_iff.1 ⟨s, hlocated, hnode⟩⟩
  · rintro ⟨i, way, slot, hat⟩
    obtain ⟨s, hmem, hnode⟩ := exists_located_iff.2 hat
    obtain ⟨⟨other, k'⟩, hother, hsite⟩ := List.mem_flatMap.1 hmem
    obtain ⟨i', n, rest, heq, -, -⟩ := Node.mem_locatedOf.1 hsite
    -- the way tells which component it enters
    obtain rfl : k = k' := (Prod.mk.inj (List.cons.inj heq).1).1
    rw [List.mk_mem_zipIdx_iff_getElem?, h, Option.some.injEq] at hother
    subst hother
    refine ⟨s, ?_, hslot.2 ⟨slot, hnode⟩⟩
    rw [Component.sites, ← Node.map_locatedOf false false k 0]
    exact List.mem_map_of_mem hsite

/-- **What the index says of a name**: whether the last component of that name has a
slot. -/
theorem refuses_iff {f : SourceFile} {name : String} :
    (ComponentIndex.ofFile f.prepare).accepts? name = some false ↔ f.Refuses name := by
  have hentries : (ComponentIndex.ofFile f.prepare).entries
      = f.components.map fun c => (c.name, c.hasSlot) := by
    rw [ComponentIndex.ofFile, prepare_components, List.map_map]
    rfl
  rw [ComponentIndex.accepts?_iff_last, hentries]
  simp only [List.getElem?_map, Option.map_eq_some_iff, Prod.mk.injEq]
  refine exists_congr fun k => ?_
  constructor
  · rintro ⟨⟨comp, hcomp, rfl, hslot⟩, hlater⟩
    refine ⟨comp, hcomp, rfl, fun j later hj hlater' => ?_, ?_⟩
    · exact hlater j _ hj ⟨later, hlater', rfl⟩
    · rw [← hasSlot_iff hcomp, hslot]
      exact Bool.false_ne_true
  · rintro ⟨comp, hcomp, rfl, hlater, hslot⟩
    refine ⟨⟨comp, hcomp, rfl, ?_⟩, ?_⟩
    · rw [← hasSlot_iff hcomp] at hslot
      exact Bool.eq_false_iff.2 hslot
    · rintro j _ hj ⟨later, hlater', rfl⟩
      exact hlater j later hj hlater'

end SourceFile

end Gsx
