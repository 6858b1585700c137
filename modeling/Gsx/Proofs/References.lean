import Gsx.Analysis.NamedRef
import Gsx.Proofs.Attributes
import Gsx.Proofs.Surroundings
/-!
# The table of references

The walk over a body keeps a table of references and the errors so far. Here each
element that is named after a `#` has an outcome of its own, the reference or what
is wrong with it, and the two parts of the table are what the outcomes give. An
outcome depends on the references accepted before it and on nothing else, so the
table is told outcome by outcome: names are valid and differ, what is refused is
refused for a reason, and an element is refused or accepted once.

The one exception is an element that a `@let` binds. The walk goes on to its
children without looking at the element, and a name there has no outcome at all.
-/

namespace Gsx

/-! ## Names and kinds -/

/-- A name that a reference may have: an upper-case character, then letters,
digits and underscores. -/
def IsRefName (name : String) : Prop :=
  ∃ c rest, name.toList = c :: rest ∧ Unicode.isUppercase c = true
    ∧ ∀ x ∈ rest, Unicode.isLetter x = true ∨ Unicode.isDigit x = true ∨ x = '_'

theorem isValidRefName_iff {name : String} : isValidRefName name = true ↔ IsRefName name := by
  rw [isValidRefName, IsRefName]
  cases name.toList with
  | nil => simp
  | cons c rest =>
    simp only [Bool.and_eq_true, List.all_eq_true, Bool.or_eq_true, beq_iff_eq, or_assoc,
      List.cons.injEq]
    constructor
    · rintro ⟨hc, hrest⟩
      exact ⟨c, rest, ⟨rfl, rfl⟩, hc, hrest⟩
    · rintro ⟨_, _, ⟨rfl, rfl⟩, hc, hrest⟩
      exact ⟨hc, hrest⟩

/-- The kind of reference that an element makes: a single element outside loops, in
a loop a list, and a map where there is a key. -/
inductive ElementSite.HasKind (e : ElementSite) : RefKind → Prop
  | single : e.inLoop = false → e.HasKind .single
  | list : e.inLoop = true → e.head.key = none → e.HasKind .list
  | map {key : GoExpr} : e.inLoop = true → e.head.key = some key → e.HasKind (.map key.code)

theorem NamedRef.hasKind_kindOf (e : ElementSite) : e.HasKind (kindOf e) := by
  rw [kindOf]
  split
  · next hloop =>
    split
    · next hkey => exact .map hloop hkey
    · next hkey => exact .list hloop hkey
  · next hloop => exact .single (Bool.eq_false_iff.2 hloop)

/-- **A reference that is sound**: its name is valid and not reserved, its kind is
that of its element, and outside loops its element has no key. -/
structure NamedRef.IsSound (r : NamedRef) : Prop where
  name_valid : IsRefName r.name
  name_free : r.name ≠ "Root"
  kind : r.site.HasKind r.kind
  key : r.site.inLoop = false → r.site.head.key = none

/-! ## Outcomes -/

/-- What comes of an element with a name: a reference, or what is wrong with
it. -/
structure RefOutcome where
  site : ElementSite
  name : String
  result : Except RefFault NamedRef
  deriving Repr

namespace RefOutcome

/-- The reference, where there is one. -/
def ref? (o : RefOutcome) : Option NamedRef :=
  o.result.toOption

theorem ref?_eq_some_iff {o : RefOutcome} {r : NamedRef} :
    o.ref? = some r ↔ o.result = .ok r := by
  rw [ref?]
  cases o.result <;> simp [Except.toOption]

/-- The error at the element, where it is refused. -/
def diagnostic? (file : String) (o : RefOutcome) : Option Diagnostic :=
  match o.result with
  | .ok _ => none
  | .error fault => some (.error file o.site.head.position (fault.message file))

/-- **An outcome that is right**, given the references accepted before. The four
tests come in this order, and an element that passes all of them is accepted. -/
inductive IsRight (earlier : List NamedRef) : RefOutcome → Prop
  | invalid {e : ElementSite} {name : String} :
      ¬IsRefName name → IsRight earlier ⟨e, name, .error (.invalidName name)⟩
  | reserved {e : ElementSite} {name : String} :
      name = "Root" → IsRight earlier ⟨e, name, .error (.reserved name)⟩
  | duplicate {e : ElementSite} {name : String} {first : NamedRef} :
      IsRefName name → name ≠ "Root" → first ∈ earlier → first.name = name →
      IsRight earlier ⟨e, name, .error (.duplicate name first.site.head.position)⟩
  | keyOutsideLoop {e : ElementSite} {name : String} :
      IsRefName name → name ≠ "Root" → (∀ r ∈ earlier, r.name ≠ name) →
      e.head.key ≠ none → e.inLoop = false →
      IsRight earlier ⟨e, name, .error (.keyOutsideLoop name)⟩
  | accepted {e : ElementSite} {name : String} {kind : RefKind} :
      IsRefName name → name ≠ "Root" → (∀ r ∈ earlier, r.name ≠ name) →
      (e.head.key = none ∨ e.inLoop = true) → e.HasKind kind →
      IsRight earlier ⟨e, name, .ok ⟨name, e, kind⟩⟩

end RefOutcome

namespace NamedRef

/-- What comes of the names of some elements, after the references accepted
before. -/
def outcomes (accepted : List NamedRef) : List ElementSite → List RefOutcome
  | [] => []
  | e :: es =>
    match e.head.ref with
    | none => outcomes accepted es
    | some name =>
      let o : RefOutcome := ⟨e, name, check accepted name e⟩
      o :: outcomes (accepted ++ o.ref?.toList) es

section
variable {file : String} {accepted : List NamedRef} {es : List ElementSite}

/-- One element more. -/
theorem add_refs_diagnostics {t : Table} {e : ElementSite} {name : String}
    (h : e.head.ref = some name) {o : RefOutcome} (ho : o = ⟨e, name, check t.refs name e⟩) :
    t.add file e = ⟨t.refs ++ o.ref?.toList, t.diagnostics ++ (o.diagnostic? file).toList⟩ := by
  subst ho
  simp only [Table.add, h]
  cases hcheck : check t.refs name e with
  | ok r => simp [RefOutcome.ref?, RefOutcome.diagnostic?, Except.toOption]
  | error fault => simp [RefOutcome.ref?, RefOutcome.diagnostic?, Except.toOption]

/-- **The table is what the outcomes give.** -/
theorem foldl_add (t : Table) :
    es.foldl (Table.add file) t
      = ⟨t.refs ++ (outcomes t.refs es).filterMap RefOutcome.ref?,
        t.diagnostics ++ (outcomes t.refs es).filterMap (RefOutcome.diagnostic? file)⟩ := by
  induction es generalizing t with
  | nil => simp [outcomes]
  | cons e es ih =>
    rw [List.foldl_cons, ih]
    cases hname : e.head.ref with
    | none => simp only [Table.add, hname, outcomes]
    | some name =>
      rw [add_refs_diagnostics hname rfl]
      simp only [outcomes, hname, List.filterMap_cons]
      cases check t.refs name e <;> simp [RefOutcome.ref?, RefOutcome.diagnostic?, Except.toOption]

/-- An element has an outcome if it has a name. -/
theorem map_outcomes : ∀ (accepted : List NamedRef) (es : List ElementSite),
    (outcomes accepted es).map (fun o => (o.site, o.name))
      = es.filterMap fun e => e.head.ref.map fun name => (e, name)
  | _, [] => rfl
  | accepted, e :: es => by
    cases hname : e.head.ref with
    | none =>
      rw [List.filterMap_cons_none (by rw [hname, Option.map_none]), ← map_outcomes accepted es]
      simp only [outcomes, hname]
    | some name =>
      rw [List.filterMap_cons_some (by rw [hname, Option.map_some])]
      simp only [outcomes, hname, List.map_cons, map_outcomes _ es]

/-- **Each outcome looks back** at the references accepted before it. -/
theorem result_of_outcomes {before after : List RefOutcome} {o : RefOutcome}
    (h : outcomes accepted es = before ++ o :: after) :
    o.result = check (accepted ++ before.filterMap RefOutcome.ref?) o.name o.site := by
  induction es generalizing accepted before with
  | nil => simp [outcomes] at h
  | cons e es ih =>
    cases hname : e.head.ref with
    | none =>
      simp only [outcomes, hname] at h
      exact ih h
    | some name =>
      simp only [outcomes, hname] at h
      cases before with
      | nil =>
        rw [List.nil_append, List.cons.injEq] at h
        rw [← h.1, List.filterMap_nil, List.append_nil]
      | cons o' before =>
        rw [List.cons_append, List.cons.injEq] at h
        obtain ⟨rfl, hrest⟩ := h
        rw [ih hrest, List.append_assoc, List.filterMap_cons]
        cases check accepted name e <;> rfl

end

/-- **The check is right** about any element. -/
theorem isRight_check (earlier : List NamedRef) (name : String) (e : ElementSite) :
    RefOutcome.IsRight earlier ⟨e, name, check earlier name e⟩ := by
  rw [check]
  split
  · next hinvalid =>
    exact .invalid (mt isValidRefName_iff.2 (by simpa using hinvalid))
  · next hvalid =>
    have hname : IsRefName name := isValidRefName_iff.1 (by simpa using hvalid)
    split
    · next hreserved => exact .reserved (by simpa [reservedNames] using hreserved)
    · next hfree =>
      have hroot : name ≠ "Root" := by simpa [reservedNames] using hfree
      split
      · next first hfirst =>
        exact .duplicate hname hroot (List.mem_of_find?_eq_some hfirst)
          (by simpa using List.find?_some hfirst)
      · next hnone =>
        have hnew : ∀ r ∈ earlier, r.name ≠ name := fun r hr => by
          simpa using List.find?_eq_none.1 hnone r hr
        split
        · next hkey =>
          obtain ⟨hkey, hloop⟩ : e.head.key.isSome = true ∧ e.inLoop = false := by
            simpa using hkey
          exact .keyOutsideLoop hname hroot hnew (Option.isSome_iff_ne_none.1 hkey) hloop
        · next hkey =>
          refine .accepted hname hroot hnew ?_ (hasKind_kindOf e)
          by_contra hneither
          obtain ⟨hsome, hloop⟩ := not_or.1 hneither
          exact hkey (by simp [Option.isSome_iff_ne_none.2 hsome, hloop])

end NamedRef

/-! ## The outcomes of a body -/

namespace NamedRef

variable (file : String) (body : List Node)

/-- The outcomes of the elements of a body. -/
def outcomesOf (body : List Node) : List RefOutcome :=
  outcomes [] (elementSites body)

/-- The references are those of the outcomes. -/
theorem refs_ofBody : (ofBody file body).refs = (outcomesOf body).filterMap RefOutcome.ref? := by
  rw [ofBody, foldl_add]
  exact List.nil_append _

/-- The errors are those of the outcomes. -/
theorem diagnostics_ofBody : (ofBody file body).diagnostics
    = (outcomesOf body).filterMap (RefOutcome.diagnostic? file) := by
  rw [ofBody, foldl_add]
  exact List.nil_append _

/-- **The outcomes are in document order**: one for each element with a name. -/
theorem outcomesOf_inDocumentOrder :
    InDocumentOrder (fun way (p : ElementSite × String) =>
        ElementSite.At body way p.1 ∧ p.1.head.ref = some p.2)
      ((outcomesOf body).map fun o => (o.site, o.name)) := by
  rw [outcomesOf, map_outcomes]
  refine ((elementSites_inDocumentOrder body).filterMap _).congr fun way p => ?_
  constructor
  · rintro ⟨e, he, hsome⟩
    obtain ⟨name, hname, rfl⟩ := Option.map_eq_some_iff.1 hsome
    exact ⟨he, hname⟩
  · rintro ⟨he, hname⟩
    exact ⟨p.1, he, by rw [hname, Option.map_some]⟩

/-- **Each outcome is right**, given the references before it. -/
theorem isRight_of_outcomesOf {before after : List RefOutcome} {o : RefOutcome}
    (h : outcomesOf body = before ++ o :: after) :
    o.IsRight (before.filterMap RefOutcome.ref?) := by
  obtain ⟨e, name, result⟩ := o
  obtain rfl : result = check (before.filterMap RefOutcome.ref?) name e := result_of_outcomes h
  exact isRight_check _ _ _

/-- **An accepted outcome** is a reference to its element, and it is sound. -/
theorem of_ok {o : RefOutcome} {r : NamedRef} (ho : o ∈ outcomesOf body)
    (hok : o.result = .ok r) :
    r.site = o.site ∧ r.name = o.name ∧ r.IsSound := by
  obtain ⟨before, after, hsplit⟩ := List.append_of_mem ho
  cases isRight_of_outcomesOf body hsplit with
  | accepted hname hroot hnew hkey hkind =>
    cases hok
    refine ⟨rfl, rfl, hname, hroot, hkind, fun hloop => hkey.resolve_right ?_⟩
    exact Bool.eq_false_iff.1 hloop
  | invalid | reserved | duplicate | keyOutsideLoop => cases hok

/-- The references accepted in front of an outcome are references of the table. -/
theorem refs_subset {before after : List RefOutcome} (h : outcomesOf body = before ++ after) :
    before.filterMap RefOutcome.ref? ⊆ (ofBody file body).refs := by
  rw [refs_ofBody, h, List.filterMap_append]
  exact List.subset_append_left _ _

/-- **An error for a repeated name** tells the place of the reference that has
it. -/
theorem of_duplicate {o : RefOutcome} {name : String} {p : Position} (ho : o ∈ outcomesOf body)
    (herror : o.result = .error (.duplicate name p)) :
    name = o.name ∧ ∃ r ∈ (ofBody file body).refs, r.name = name ∧ r.site.head.position = p := by
  obtain ⟨before, after, hsplit⟩ := List.append_of_mem ho
  cases isRight_of_outcomesOf body hsplit with
  | @duplicate e name first _ _ hfirst hsame =>
    cases herror
    exact ⟨rfl, first, refs_subset file body hsplit hfirst, hsame, rfl⟩
  | invalid | reserved | accepted | keyOutsideLoop => cases herror

/-- **No two references have one name**: each was new when it was accepted. -/
theorem nodup_refs : ((ofBody file body).refs.map (·.name)).Nodup := by
  -- the same of the references that the first outcomes give
  have hprefix : ∀ before after, outcomesOf body = before ++ after →
      ((before.filterMap RefOutcome.ref?).map (·.name)).Nodup := by
    intro before
    induction before using List.reverseRecOn with
    | nil => exact fun _ _ => List.nodup_nil
    | append_singleton before o ih =>
      intro after hsplit
      rw [List.append_assoc, List.singleton_append] at hsplit
      have hbefore := ih _ hsplit
      rw [List.filterMap_append, List.map_append, List.nodup_append]
      refine ⟨hbefore, ?_, ?_⟩
      · cases h : o.ref? <;> simp [h]
      · cases isRight_of_outcomesOf body hsplit with
        | accepted hname hroot hnew hkey hkind =>
          intro name hmem name' hmem' heq
          obtain ⟨r, hr, rfl⟩ := List.mem_map.1 hmem
          obtain rfl := List.mem_singleton.1 hmem'
          exact hnew r hr heq
        | invalid | reserved | duplicate | keyOutsideLoop => exact fun _ _ _ h => nomatch h
  rw [refs_ofBody]
  exact hprefix _ [] (List.append_nil _).symm

/-- The references are in document order, each at its element. -/
theorem ascending_refs :
    Ascending (fun way (r : NamedRef) => ElementSite.At body way r.site ∧ r.site.head.ref = some r.name)
      (ofBody file body).refs := by
  have hplaced := (outcomesOf_inDocumentOrder body).ascending.of_map
  rw [refs_ofBody]
  refine ((hplaced.imp fun way o ho hat => And.intro hat ho).filterMap _).imp ?_
  rintro way r - ⟨o, ⟨⟨hat, hname⟩, ho⟩, hr⟩
  obtain ⟨hsite, hsame, -⟩ := of_ok body ho (RefOutcome.ref?_eq_some_iff.1 hr)
  rw [hsite, hsame]
  exact ⟨hat, hname⟩

theorem isSound_of_mem {r : NamedRef} (hr : r ∈ (ofBody file body).refs) : r.IsSound := by
  rw [refs_ofBody] at hr
  obtain ⟨o, ho, hr⟩ := List.mem_filterMap.1 hr
  exact (of_ok body ho (RefOutcome.ref?_eq_some_iff.1 hr)).2.2

/-- **The table of references is sound.** Each element with a name, but for one
that a `@let` binds, has one outcome: a reference to it in the table, or an error at
its place. The references have valid names, which differ and are not reserved; they
come in document order, with marks and kinds as loops, conditionals and keys have
it, and outside loops there is no key. An error for a repeated name tells the place
of the reference that has it. -/
theorem table_sound :
    (∃ outcomes : List RefOutcome,
      InDocumentOrder (fun way (p : ElementSite × String) =>
          ElementSite.At body way p.1 ∧ p.1.head.ref = some p.2)
        (outcomes.map fun o => (o.site, o.name))
      ∧ (ofBody file body).refs = outcomes.filterMap RefOutcome.ref?
      ∧ (ofBody file body).diagnostics = outcomes.filterMap (RefOutcome.diagnostic? file)
      ∧ ∀ o ∈ outcomes, (∀ r, o.result = .ok r → r.site = o.site ∧ r.name = o.name)
        ∧ ∀ name p, o.result = .error (.duplicate name p) → name = o.name
          ∧ ∃ r ∈ (ofBody file body).refs, r.name = name ∧ r.site.head.position = p)
    ∧ Ascending (fun way (r : NamedRef) =>
        ElementSite.At body way r.site ∧ r.site.head.ref = some r.name) (ofBody file body).refs
    ∧ ((ofBody file body).refs.map (·.name)).Nodup
    ∧ ∀ r ∈ (ofBody file body).refs, r.IsSound := by
  refine ⟨⟨outcomesOf body, outcomesOf_inDocumentOrder body, refs_ofBody file body,
    diagnostics_ofBody file body, fun o ho => ⟨fun r hr => ?_, fun name p => ?_⟩⟩,
    ascending_refs file body, nodup_refs file body, fun _ => isSound_of_mem file body⟩
  · obtain ⟨hsite, hname, -⟩ := of_ok body ho hr
    exact ⟨hsite, hname⟩
  · exact of_duplicate file body ho

/-! ## Elements that a binding hides -/

end NamedRef

/-- The name of the element at a site, whether it stands there by itself or a `@let`
binds it. -/
def Site.refName? (s : Site) : Option String :=
  s.head?.bind (·.ref)

theorem Site.element?_eq_none_iff {s : Site} (h : s.refName? ≠ none) :
    s.element? = none ↔ ∃ l e cs, s.node = .letBinding l e cs := by
  obtain ⟨n, l, c⟩ := s
  cases n with
  | element | letBinding => simp [Site.element?]
  | _ => exact absurd rfl h

namespace NamedRef

variable (file : String) (body : List Node)

/-- The elements that have an outcome, among all that have a name. -/
theorem map_outcomesOf :
    (outcomesOf body).map (fun o => (o.site, o.name))
      = ((Node.sitesOf false false body).filterMap fun s =>
          s.refName?.map fun name => (s, name)).filterMap fun p =>
            p.1.element?.map fun e => (e, p.2) := by
  rw [outcomesOf, map_outcomes, elementSites, List.filterMap_filterMap, List.filterMap_filterMap]
  refine congrArg (List.filterMap · _) (funext fun s => ?_)
  obtain ⟨n, l, c⟩ := s
  cases n with
  | element h cs => cases hname : h.ref <;> simp [Site.element?, Site.refName?, Site.head?, hname]
  | letBinding b h cs =>
    cases hname : h.ref <;> simp [Site.element?, Site.refName?, Site.head?, hname]
  | _ => rfl

/-- **A name is checked unless a `@let` binds its element.** Of all elements that
have a name, wherever they stand, those have an outcome that no `@let` binds, one
each: a reference in the table or an error at the element. It is a reference if the
name is valid, not reserved and new, and a key stands in a loop only; in each other
case it is the error for the first of these that fails. An element that a `@let`
binds has no outcome, whatever its name. -/
theorem checked_unless_bound :
    ∃ (named : List (Site × String)) (outcomes : List RefOutcome),
      InDocumentOrder (fun way (p : Site × String) =>
          Site.At body way p.1 ∧ p.1.refName? = some p.2) named
      ∧ (∀ p ∈ named, p.1.element? = none ↔ ∃ l e cs, p.1.node = .letBinding l e cs)
      ∧ outcomes.map (fun o => (o.site, o.name))
          = named.filterMap (fun p => p.1.element?.map fun e => (e, p.2))
      ∧ (ofBody file body).refs = outcomes.filterMap RefOutcome.ref?
      ∧ (ofBody file body).diagnostics = outcomes.filterMap (RefOutcome.diagnostic? file)
      ∧ ∀ before o after, outcomes = before ++ o :: after →
          o.IsRight (before.filterMap RefOutcome.ref?) := by
  refine ⟨_, outcomesOf body,
    ((Node.sites_inDocumentOrder body).filterMap fun s =>
      s.refName?.map fun name => (s, name)).congr fun way p => ?_,
    fun p hp => ?_, map_outcomesOf body, refs_ofBody file body, diagnostics_ofBody file body,
    fun before o after => isRight_of_outcomesOf body⟩
  · constructor
    · rintro ⟨s, hs, hsome⟩
      obtain ⟨name, hname, rfl⟩ := Option.map_eq_some_iff.1 hsome
      exact ⟨hs, hname⟩
    · rintro ⟨hs, hname⟩
      exact ⟨p.1, hs, by rw [hname, Option.map_some]⟩
  · obtain ⟨s, -, hsome⟩ := List.mem_filterMap.1 hp
    obtain ⟨name, hname, rfl⟩ := Option.map_eq_some_iff.1 hsome
    exact Site.element?_eq_none_iff (by simp [hname])

/-! ## Where nothing is refused -/

/-- Where nothing is refused, the table has the names of all elements that are
checked. -/
theorem map_name_refs (h : (ofBody file body).diagnostics = []) :
    (ofBody file body).refs.map (·.name) = (elementSites body).filterMap (·.head.ref) := by
  have hnames : (outcomesOf body).map (·.name) = (elementSites body).filterMap (·.head.ref) := by
    have hpairs := congrArg (List.map Prod.snd) (map_outcomes [] (elementSites body))
    rw [List.map_map, List.map_filterMap] at hpairs
    simpa [outcomesOf, Function.comp_def] using hpairs
  rw [← hnames, refs_ofBody, List.map_filterMap, ← List.filterMap_eq_map]
  refine List.filterMap_congr fun o ho => ?_
  rw [diagnostics_ofBody, List.filterMap_eq_nil_iff] at h
  cases hresult : o.result with
  | ok r =>
    rw [RefOutcome.ref?_eq_some_iff.2 hresult, Option.map_some, (of_ok body ho hresult).2.1]
    rfl
  | error fault =>
    have hnone := h o ho
    rw [RefOutcome.diagnostic?, hresult] at hnone
    cases hnone

end NamedRef

end Gsx
