import Gsx.Proofs.Editing
import Gsx.Proofs.Numbering
/-!
# Elements that look alike

Naming and the table of references see little of an element: its tag, its reference
and key, whether it is in a loop, and which of its children are text. They look at no
attributes, and not into children. So two lists of elements that look alike have the
same names and the same references, each at its own element, and an edit of attributes
changes neither table.
-/

namespace Gsx

/-- **Two elements look alike** if they differ in attributes only, and in what is inside
their children. -/
structure ElementSite.Alike (e e' : ElementSite) : Prop where
  head_eq : e'.head = { e.head with attributes := e'.head.attributes }
  length_eq : e'.children.length = e.children.length
  textChildren_eq : e'.textChildren = e.textChildren
  inLoop_eq : e'.inLoop = e.inLoop

/-- An edit of attributes leaves elements that look alike. -/
theorem ElementSite.alike_editAt {f : ElementHead → ElementHead}
    (hf : ∀ h, f h = { h with attributes := (f h).attributes }) (way w : Way) (e : ElementSite) :
    e.Alike (e.editAt f way w) := by
  rcases e.editAt_cases f way w with ⟨-, h⟩ | ⟨-, rest, h⟩
  · rw [h]
    exact ⟨hf e.head, rfl, rfl, rfl⟩
  · rw [h]
    exact ⟨rfl, Node.length_editBody 0 rest e.children,
      Node.filter_isTextual_editBody 0 rest e.children, rfl⟩

section
variable {c : Config} {R : ElementSite → ElementSite → Prop} {es es' : List ElementSite}
  {e e' : ElementSite}

/-! ## Names -/

namespace ElementName

theorem fixedName?_of_alike (h : e.Alike e') : e'.fixedName? = e.fixedName? := by
  rw [ElementSite.fixedName?, ElementSite.fixedName?, h.inLoop_eq, h.head_eq]

theorem textCount_of_alike (h : e.Alike e') : c.textCount e' = c.textCount e := by
  have hshows : c.showsTextItself e' = c.showsTextItself e := by
    rw [Config.showsTextItself, Config.showsTextItself, h.head_eq, h.length_eq]
  rw [Config.textCount, Config.textCount, hshows, List.countP_eq_length_filter,
    List.countP_eq_length_filter, ← ElementSite.textChildren, h.textChildren_eq,
    ElementSite.textChildren]

/-- **Elements that look alike are named alike.** -/
theorem assign_of_alike (h : e.Alike e') (next : Nat) :
    assign c next e' = { assign c next e with site := e' } := by
  rw [assign, assign, fixedName?_of_alike h, textCount_of_alike h]
  cases e.fixedName? <;> rfl

theorem size_of_alike (h : e.Alike e') (next : Nat) :
    (assign c next e').size = (assign c next e).size := by
  rw [assign_of_alike h]
  rfl

/-- The names of elements that look alike, one by one. -/
theorem forall₂_assignFrom (hR : ∀ {e e'}, R e e' → e.Alike e') (h : List.Forall₂ R es es')
    (next : Nat) :
    List.Forall₂ (fun n n' => R n.site n'.site ∧ n' = { n with site := n'.site })
      (assignFrom c next es) (assignFrom c next es') := by
  induction h generalizing next with
  | nil => exact .nil
  | @cons e e' es es' he _ ih =>
    rw [assignFrom, assignFrom, size_of_alike (hR he)]
    refine .cons ⟨?_, ?_⟩ (ih _)
    · rwa [site_assign, site_assign]
    · rw [site_assign, assign_of_alike (hR he)]

/-- Naming goes on with the same number behind elements that look alike. -/
theorem nextAfter_of_alike (hR : ∀ {e e'}, R e e' → e.Alike e') (h : List.Forall₂ R es es')
    (next : Nat) : Naming.nextAfter c next es' = Naming.nextAfter c next es := by
  induction h generalizing next with
  | nil => rfl
  | @cons e e' es es' he _ ih =>
    have hcons : ∀ e es, Naming.nextAfter c next (e :: es)
        = Naming.nextAfter c (next + (assign c next e).size) es := fun _ _ => rfl
    rw [hcons, hcons, size_of_alike (hR he), ih]

end ElementName

/-! ## References -/

namespace NamedRef

/-- The same references, each to an element of its own. -/
def Follow (R : ElementSite → ElementSite → Prop) : List NamedRef → List NamedRef → Prop :=
  List.Forall₂ fun r r' => R r.site r'.site ∧ r' = { r with site := r'.site }

variable {accepted accepted' : List NamedRef}

/-- A name is found with one position in either list. -/
theorem map_find?_of_follow (hR : ∀ {e e'}, R e e' → e.Alike e') (h : Follow R accepted accepted')
    (name : String) :
    (accepted'.find? (·.name = name)).map (·.site.head.position)
      = (accepted.find? (·.name = name)).map (·.site.head.position) := by
  induction h with
  | nil => rfl
  | @cons r r' rs rs' hr _ ih =>
    obtain ⟨hsite, hname⟩ := hr
    have hname : r'.name = r.name := by rw [hname]
    have hposition : r'.site.head.position = r.site.head.position := by rw [(hR hsite).head_eq]
    rw [List.find?_cons, List.find?_cons, hname]
    cases decide (r.name = name) with
    | true => exact congrArg some hposition
    | false => exact ih

/-- **Elements that look alike are accepted or refused alike.** -/
theorem check_of_alike (hR : ∀ {e e'}, R e e' → e.Alike e') (h : Follow R accepted accepted')
    (he : R e e') (name : String) :
    check accepted' name e' = (check accepted name e).map fun r => { r with site := e' } := by
  have hfind := map_find?_of_follow hR h name
  have hkey : e'.head.key = e.head.key := by rw [(hR he).head_eq]
  have hkind : kindOf e' = kindOf e := by rw [kindOf, kindOf, (hR he).inLoop_eq, hkey]
  rw [check, check, hkey, (hR he).inLoop_eq, hkind]
  split
  · rfl
  · split
    · rfl
    · -- the error for a repeated name tells a position, which is the same in either table
      cases hfound : accepted.find? (·.name = name) with
      | some first =>
        rw [hfound, Option.map_some] at hfind
        obtain ⟨first', hfound', hposition⟩ := Option.map_eq_some_iff.1 hfind
        rw [hfound']
        exact congrArg (fun p => Except.error (RefFault.duplicate name p)) hposition
      | none =>
        rw [hfound, Option.map_none, Option.map_eq_none_iff] at hfind
        rw [hfind]
        cases e.head.key.isSome && !e.inLoop <;> rfl

/-- One element more in either table. -/
theorem add_of_alike (hR : ∀ {e e'}, R e e' → e.Alike e') (file : String) {t t' : Table}
    (ht : Follow R t.refs t'.refs ∧ t'.diagnostics = t.diagnostics) (he : R e e') :
    Follow R (t.add file e).refs (t'.add file e').refs
      ∧ (t'.add file e').diagnostics = (t.add file e).diagnostics := by
  have href : e'.head.ref = e.head.ref := by rw [(hR he).head_eq]
  have hposition : e'.head.position = e.head.position := by rw [(hR he).head_eq]
  cases hname : e.head.ref with
  | none =>
    rw [Table.add, Table.add, href, hname]
    exact ht
  | some name =>
    rw [add_refs_diagnostics hname rfl, add_refs_diagnostics (href.trans hname) rfl,
      check_of_alike hR ht.1 he]
    have hright := isRight_check t.refs name e
    cases hfound : check t.refs name e with
    | error fault =>
      change Follow R (t.refs ++ []) (t'.refs ++ [])
        ∧ t'.diagnostics ++ [.error file e'.head.position _] = t.diagnostics ++ [_]
      rw [List.append_nil, List.append_nil, ht.2, hposition]
      exact ⟨ht.1, rfl⟩
    | ok r =>
      rw [hfound] at hright
      cases hright
      change Follow R (t.refs ++ [_]) (t'.refs ++ [_]) ∧ t'.diagnostics ++ [] = t.diagnostics ++ []
      rw [List.append_nil, List.append_nil]
      exact ⟨List.rel_append ht.1 (.cons ⟨he, rfl⟩ .nil), ht.2⟩

/-- **Elements that look alike have the same references** and the same errors. -/
theorem foldl_add_of_alike (hR : ∀ {e e'}, R e e' → e.Alike e') (file : String)
    (h : List.Forall₂ R es es') :
    Follow R (es.foldl (Table.add file) ⟨[], []⟩).refs (es'.foldl (Table.add file) ⟨[], []⟩).refs
      ∧ (es'.foldl (Table.add file) ⟨[], []⟩).diagnostics
        = (es.foldl (Table.add file) ⟨[], []⟩).diagnostics := by
  have hrun : ∀ t t' : Table, Follow R t.refs t'.refs ∧ t'.diagnostics = t.diagnostics →
      Follow R (es.foldl (Table.add file) t).refs (es'.foldl (Table.add file) t').refs
        ∧ (es'.foldl (Table.add file) t').diagnostics = (es.foldl (Table.add file) t).diagnostics := by
    induction h with
    | nil => exact fun _ _ ht => ht
    | cons he _ ih => exact fun t t' ht => ih _ _ (add_of_alike hR file ht he)
  exact hrun _ _ ⟨.nil, rfl⟩

end NamedRef

end

/-! ## Elements of a body with edited attributes -/

/-- Two elements that stand at the same place of two bodies. -/
def ElementSite.SamePlace (body body' : List Node) (e e' : ElementSite) : Prop :=
  ∃ way, e.At body way ∧ e'.At body' way

/-- **An element that an edit at another place keeps**: it stands where it stood, looks
as it did, and has all of its attributes. -/
structure ElementSite.Kept (body body' : List Node) (way : Way) (e e' : ElementSite) : Prop where
  place : ∃ w, w ≠ way ∧ e.At body w ∧ e'.At body' w
  alike : e.Alike e'
  head_eq : e'.head = e.head

theorem ElementSite.Kept.samePlace {body body' : List Node} {way : Way} {e e' : ElementSite}
    (h : e.Kept body body' way e') : e.SamePlace body body' e' := by
  obtain ⟨w, -, hat, hat'⟩ := h.place
  exact ⟨w, hat, hat'⟩

section
variable {f : ElementHead → ElementHead} {body : List Node} {way : Way} {e : ElementSite}

/-- An edited element stands where it stood. -/
theorem ElementSite.editAt_at {w : Way} (h : e.At body w) :
    (e.editAt f way w).At (Node.editBody f 0 way body) w := by
  rw [← Node.mem_locatedElements, Node.locatedElements_editBody]
  exact List.mem_map.2 ⟨(w, e), Node.mem_locatedElements.2 h, rfl⟩

theorem ElementSite.kept_editAt (hf : ∀ h, f h = { h with attributes := (f h).attributes })
    {w : Way} (hne : w ≠ way) (h : e.At body w) :
    e.Kept body (Node.editBody f 0 way body) way (e.editAt f way w) := by
  refine ⟨⟨w, hne, h, editAt_at h⟩, alike_editAt hf way w e, ?_⟩
  rcases e.editAt_cases f way w with ⟨heq, -⟩ | ⟨-, rest, hedit⟩
  · exact absurd heq hne
  · rw [hedit]

/-- **An edit of attributes keeps all elements but one**, in their order. -/
theorem exists_elementSites_editBody (hf : ∀ h, f h = { h with attributes := (f h).attributes })
    (h : e.At body way) :
    ∃ front back front' back', elementSites body = front ++ e :: back
      ∧ elementSites (Node.editBody f 0 way body) = front' ++ { e with head := f e.head } :: back'
      ∧ List.Forall₂ (ElementSite.Kept body (Node.editBody f 0 way body) way) front front'
      ∧ List.Forall₂ (ElementSite.Kept body (Node.editBody f 0 way body) way) back back'
      ∧ ElementSite.At (Node.editBody f 0 way body) way { e with head := f e.head } := by
  obtain ⟨front, back, hlocated, hne⟩ := Node.exists_locatedElements_eq h
  have hself : e.editAt f way way = { e with head := f e.head } := by
    rcases e.editAt_cases f way way with ⟨-, hedit⟩ | ⟨hne, -⟩
    · exact hedit
    · exact absurd rfl hne
  have hkept : ∀ located : List (Way × ElementSite), (∀ p ∈ located, p ∈ front ++ back) →
      List.Forall₂ (ElementSite.Kept body (Node.editBody f 0 way body) way)
        (located.map Prod.snd) (located.map fun p => p.2.editAt f way p.1) := by
    intro located hlocated'
    rw [List.forall₂_map_left_iff, List.forall₂_map_right_iff, List.forall₂_same]
    intro p hp
    have hmem : p ∈ Node.locatedElements body := by
      rw [hlocated]
      exact (List.mem_append.1 (hlocated' p hp)).elim (List.mem_append_left _)
        fun hp => List.mem_append_right _ (List.mem_cons_of_mem _ hp)
    exact ElementSite.kept_editAt hf (hne p (hlocated' p hp)) (Node.mem_locatedElements.1 hmem)
  refine ⟨front.map Prod.snd, back.map Prod.snd, front.map fun p => p.2.editAt f way p.1,
    back.map fun p => p.2.editAt f way p.1, ?_, ?_, hkept front fun _ => List.mem_append_left _,
    hkept back fun _ => List.mem_append_right _, hself ▸ ElementSite.editAt_at h⟩
  · rw [← Node.map_snd_locatedElements, hlocated, List.map_append, List.map_cons]
  · rw [← Node.map_snd_locatedElements, Node.locatedElements_editBody, hlocated, List.map_map,
      List.map_append, List.map_cons, ← hself]
    rfl

end

end Gsx
