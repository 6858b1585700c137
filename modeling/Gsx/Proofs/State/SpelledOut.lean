import Gsx.Proofs.Likeness
import Gsx.Proofs.State.Listing
/-!
# Dependencies spelled out

A `deps` attribute replaces the detection of what an element reads. If an element
shows one expression, and the attribute lists what this is found to read, nothing
changes but that its binding says so: variables, references and names of the component
stay, and so do all other bindings, and there is nothing new to report.
-/

namespace Gsx

/-! ## One attribute more -/

/-- An element with one more attribute, the one with the number `k`. -/
def ElementHead.withAttribute (k : Nat) (a : Attribute) (h : ElementHead) : ElementHead :=
  { h with attributes := h.attributes.take k ++ a :: h.attributes.drop k }

section
variable {k : Nat} {a : Attribute} {h : ElementHead} {name : String}

theorem ElementHead.attribute?_eq_or (k : Nat) (h : ElementHead) (name : String) :
    h.attribute? name = ((h.attributes.take k).find? (·.name = name)).or
      ((h.attributes.drop k).find? (·.name = name)) := by
  rw [← List.find?_append, List.take_append_drop, ElementHead.attribute?]

/-- An attribute does not stand in for those of other names. -/
theorem ElementHead.attribute?_withAttribute_of_ne (hne : a.name ≠ name) :
    (h.withAttribute k a).attribute? name = h.attribute? name := by
  rw [h.attribute?_eq_or k, ElementHead.withAttribute, ElementHead.attribute?, List.find?_append,
    List.find?_cons_of_neg (by simpa using hne)]

/-- An attribute is the first of its name, if there was none. -/
theorem ElementHead.attribute?_withAttribute_self (hnone : h.attribute? a.name = none) :
    (h.withAttribute k a).attribute? a.name = some a := by
  rw [h.attribute?_eq_or k, Option.or_eq_none_iff] at hnone
  rw [ElementHead.withAttribute, ElementHead.attribute?, List.find?_append, hnone.1,
    List.find?_cons_of_pos (by simp), Option.none_or]

end

/-! ## Bindings of elements that look alike -/

namespace StateBinding

variable {c : Config} {known : List String} {n : ElementName} {e' : ElementSite}

/-- A binding of another element, with another flag. -/
def moved (e' : ElementSite) (flag : Bool → Bool) (b : StateBinding) : StateBinding :=
  { b with site := e', isExplicit := flag b.isExplicit }

/-- A property of an element that looks alike has the binding moved there, if it
depends on the same variables. -/
theorem ofProperty?_moved {flag : Bool → Bool} {code : String}
    (hvars : varsOf c known e'.head code
      = ((varsOf c known n.site.head code).1, flag (varsOf c known n.site.head code).2))
    (target : String) (property : BoundProperty) :
    ofProperty? c known { n with site := e' } target property code
      = (ofProperty? c known n target property code).map (moved e' flag) := by
  simp only [ofProperty?, hvars]
  cases (varsOf c known n.site.head code).1.isEmpty <;> rfl

/-- **The bindings of an element that looks alike** are those of the element, moved
there, if what it shows depends on the same variables. -/
theorem ofElement_moved {flag : Bool → Bool} (halike : n.site.Alike e')
    (hclass : classCode? e'.head = classCode? n.site.head)
    (hvars : ∀ s ∈ n.site.shown, varsOf c known e'.head s.2
      = ((varsOf c known n.site.head s.2).1, flag (varsOf c known n.site.head s.2).2)) :
    ofElement c known { n with site := e' } = (ofElement c known n).map (moved e' flag) := by
  have htexts : ofTexts c known { n with site := e' } = (ofTexts c known n).map (moved e' flag) := by
    have hchildren : e'.children.filter Node.isTextual = n.site.children.filter Node.isTextual :=
      halike.textChildren_eq
    have htargets : textTargets { n with site := e' } = textTargets n := by
      simp only [textTargets, hchildren]
    rw [ofTexts, ofTexts, htargets, hchildren, List.map_filterMap]
    refine List.filterMap_congr fun p hp => ?_
    obtain ⟨child, target⟩ := p
    obtain ⟨hchild, -⟩ := List.mem_filter.1 (List.of_mem_zip hp).1
    change child.code?.bind _ = (child.code?.bind _).map _
    cases hcode : child.code? with
    | none => rfl
    | some code =>
      refine ofProperty?_moved (hvars (.text, code) ?_) _ _
      rw [ElementSite.shown_eq]
      refine List.mem_append_left _ ?_
      exact List.mem_map.2 ⟨code, List.mem_filterMap.2 ⟨child, hchild, hcode⟩, rfl⟩
  have hclasses : ofClass? c known { n with site := e' }
      = (ofClass? c known n).map (moved e' flag) := by
    rw [ofClass?, ofClass?, hclass]
    cases hcode : classCode? n.site.head with
    | none => rfl
    | some code =>
      refine ofProperty?_moved (hvars (.cls, code) ?_) _ _
      rw [ElementSite.shown_eq, hcode]
      exact List.mem_append_right _ (List.mem_singleton.2 rfl)
  rw [ofElement, ofElement, halike.inLoop_eq, htexts, hclasses]
  cases n.site.inLoop with
  | true => rfl
  | false =>
    rw [if_neg Bool.false_ne_true, if_neg Bool.false_ne_true, List.map_append]
    cases ofClass? c known n <;> rfl

end StateBinding

/-! ## Spelling out -/

/-- **What an element reads, spelled out**: the element stands outside loops, shows one
expression and lists no dependencies; the expression is found to read some variables;
and an attribute lists just these. -/
structure SpelledOut (c : Config) (known : List String) (body : List Node) (way : Way)
    (e : ElementSite) (shown : BoundProperty × String) (vars : List String) (a : Attribute) :
    Prop where
  at_way : e.At body way
  outside : ∀ h b, ¬Node.Encloses body way (.forLoop h b)
  no_deps : e.head.attribute? "deps" = none
  shown_eq : e.shown = [shown]
  reads_eq : readVars known c.stateAccessor shown.2 = vars
  vars_ne_nil : vars ≠ []
  name_eq : a.name = "deps"
  lists : ∃ g, a.value = .expression g ∧ g.code = Deps.listing vars

/-- **Two components that differ in the flag of one binding.** State variables and
diagnostics are the same; references, names and bindings are the same one by one, each
at an element that stands at the same place; only the one binding at a place is
detected here and explicit there. -/
structure Component.DiffersInFlag (c : Config) (file : String) (comp comp' : Component) (way : Way)
    (e e' : ElementSite) (shown : BoundProperty × String) (vars : List String) : Prop where
  at_way : e.At comp.body way ∧ e'.At comp'.body way
  stateVars : (comp'.tables c file).stateVars = (comp.tables c file).stateVars
  names : List.Forall₂
    (fun n n' => n.site.SamePlace comp.body comp'.body n'.site ∧ n' = { n with site := n'.site })
    (comp.tables c file).names (comp'.tables c file).names
  refs : List.Forall₂
    (fun r r' => r.site.SamePlace comp.body comp'.body r'.site ∧ r' = { r with site := r'.site })
    (comp.tables c file).refs (comp'.tables c file).refs
  refErrors : (NamedRef.ofBody file comp'.body).diagnostics
    = (NamedRef.ofBody file comp.body).diagnostics
  bindings : ∃ name front back front' back',
    (comp.tables c file).bindings = front ++ ⟨vars, e, name, shown.1, shown.2, false⟩ :: back
    ∧ (comp'.tables c file).bindings = front' ++ ⟨vars, e', name, shown.1, shown.2, true⟩ :: back'
    ∧ (List.Forall₂ fun b b' => b.site.Kept comp.body comp'.body way b'.site
      ∧ b' = { b with site := b'.site }) front front'
    ∧ (List.Forall₂ fun b b' => b.site.Kept comp.body comp'.body way b'.site
      ∧ b' = { b with site := b'.site }) back back'
  depsErrors : comp'.depsDiagnostics c file = comp.depsDiagnostics c file
  no_depsErrors : Deps.diagnostics file (comp'.tables c file).varNames e'.head = []

section
variable {c : Config} {known : List String} {body : List Node} {way : Way} {e : ElementSite}
  {shown : BoundProperty × String} {vars : List String} {a : Attribute} {k : Nat}

namespace SpelledOut

/-- The attribute is read back. -/
theorem ofElement_withAttribute (h : SpelledOut c known body way e shown vars a) :
    Deps.ofElement known (e.head.withAttribute k a) = ⟨some vars, []⟩ := by
  obtain ⟨g, hvalue, hcode⟩ := h.lists
  have hnone : e.head.attribute? a.name = none := by rw [h.name_eq, h.no_deps]
  have hsome := ElementHead.attribute?_withAttribute_self (k := k) hnone
  rw [h.name_eq] at hsome
  have hvars := h.reads_eq
  rw [Deps.ofElement, hsome]
  refine (congrArg (Deps.ofValue known) hvalue).trans (Deps.ofValue_listing hcode h.vars_ne_nil ?_ ?_ ?_)
  · exact fun v hv => isWord_of_mem_readVars (hvars ▸ hv)
  · rw [← hvars, readVars]
    exact fun v hv => List.contains_iff_mem.1 (List.mem_filter.1 (mem_firstOccurrences.1 hv)).2
  · rw [← hvars]
    exact nodup_firstOccurrences _

/-- The element depends on the same variables as before, and says so. -/
theorem varsOf_eq (h : SpelledOut c known body way e shown vars a) :
    StateBinding.varsOf c known e.head shown.2 = (vars, false)
      ∧ StateBinding.varsOf c known (e.head.withAttribute k a) shown.2 = (vars, true) := by
  constructor
  · rw [StateBinding.varsOf, Deps.ofElement, h.no_deps, h.reads_eq]
  · rw [StateBinding.varsOf, h.ofElement_withAttribute]

theorem diagnostics_withAttribute (h : SpelledOut c known body way e shown vars a) (file : String) :
    Deps.diagnostics file known (e.head.withAttribute k a) = [] := by
  rw [Deps.diagnostics_eq, h.ofElement_withAttribute, ElementHead.depsReport]
  exact List.flatMap_eq_nil_iff.2 fun _ _ => rfl

/-- The one binding of the element is detected, whatever number its name has. -/
theorem exists_ofElement_eq (h : SpelledOut c known body way e shown vars a) (next : Nat) :
    ∃ name, StateBinding.ofElement c known (.assign c next e)
      = [⟨vars, e, name, shown.1, shown.2, false⟩] := by
  obtain ⟨hvars, -⟩ := h.varsOf_eq (k := 0)
  have hsubjects := @StateBinding.map_subject_ofElement c known next e
  have hsome : (StateBinding.varsOf c known e.head shown.2).1.isEmpty = false := by
    rw [hvars]
    exact Bool.eq_false_iff.2 fun hempty => h.vars_ne_nil (List.isEmpty_iff.1 hempty)
  rw [h.at_way.inLoop_eq_false h.outside, if_neg Bool.false_ne_true, h.shown_eq, StateBinding.dependent,
    List.filter_singleton, hsome] at hsubjects
  -- one expression depends on state, so there is one binding
  obtain ⟨b, hb, hsubject⟩ := List.map_eq_singleton_iff.1 hsubjects
  obtain ⟨rfl, rfl⟩ : b.site = e ∧ (b.property, b.expr) = shown := by
    simpa [StateBinding.subject] using hsubject
  obtain ⟨_, _, _, hof⟩ := StateBinding.exists_of_mem_ofElement (hb ▸ List.mem_singleton.2 rfl)
  obtain ⟨hof, -⟩ := StateBinding.varsOf_of_ofProperty? hof
  rw [site_assign, hvars] at hof
  obtain ⟨rfl, hdetected⟩ := Prod.mk.inj hof
  refine ⟨b.elementName, ?_⟩
  rw [hb, hdetected]

/-- The same binding is explicit where the variables are spelled out. -/
theorem ofElement_withAttribute_eq (h : SpelledOut c known body way e shown vars a) (next : Nat) :
    StateBinding.ofElement c known
        { ElementName.assign c next e with site := { e with head := e.head.withAttribute k a } }
      = (StateBinding.ofElement c known (.assign c next e)).map
          (StateBinding.moved { e with head := e.head.withAttribute k a } fun _ => true) := by
  obtain ⟨hvars, hvars'⟩ := h.varsOf_eq (k := k)
  have hname : a.name ≠ "class" := by
    rw [h.name_eq]
    decide
  refine StateBinding.ofElement_moved ?_ ?_ ?_
  · rw [site_assign]
    exact ⟨rfl, rfl, rfl, rfl⟩
  · rw [site_assign, StateBinding.classCode?, StateBinding.classCode?,
      ElementHead.attribute?_withAttribute_of_ne hname]
  · rw [site_assign, h.shown_eq]
    intro s hs
    rw [List.mem_singleton.1 hs, hvars, hvars']

end SpelledOut

/-- Elements that an edit keeps have the same bindings, each moved there. -/
theorem StateBinding.forall₂_ofElement {body' : List Node} {es es' : List ElementSite}
    (h : List.Forall₂ (ElementSite.Kept body body' way) es es') (next : Nat) (known : List String) :
    List.Forall₂ (fun b b' => b.site.Kept body body' way b'.site ∧ b' = { b with site := b'.site })
      ((ElementName.assignFrom c next es).flatMap (ofElement c known))
      ((ElementName.assignFrom c next es').flatMap (ofElement c known)) := by
  have hnames := ElementName.forall₂_assignFrom (c := c) (fun hkept => hkept.alike) h next
  refine List.rel_flatMap hnames fun n n' hn => ?_
  obtain ⟨hkept, hn'⟩ := hn
  have hmoved : ofElement c known { n with site := n'.site }
      = (ofElement c known n).map (moved n'.site id) :=
    ofElement_moved hkept.alike (by rw [hkept.head_eq]) fun s _ => by rw [hkept.head_eq]; rfl
  rw [hn', hmoved, List.forall₂_map_right_iff, List.forall₂_same]
  intro b hb
  rw [site_of_mem_ofElement hb]
  exact ⟨hkept, rfl⟩

/-- The bindings in front of an element, those of the element, and those behind it. -/
theorem StateBinding.flatMap_assignFrom (c : Config) (known : List String)
    (front back : List ElementSite) (e : ElementSite) :
    (ElementName.assignFrom c 0 (front ++ e :: back)).flatMap (ofElement c known)
      = (ElementName.assignFrom c 0 front).flatMap (ofElement c known)
        ++ (ofElement c known (.assign c (Naming.nextAfter c 0 front) e)
          ++ (ElementName.assignFrom c (Naming.nextAfter c 0 front
              + (ElementName.assign c (Naming.nextAfter c 0 front) e).size) back).flatMap
            (ofElement c known)) := by
  rw [Naming.assignFrom_append, List.flatMap_append, ElementName.assignFrom, List.flatMap_cons]

/-- **The bindings of a body where dependencies are spelled out** are those of the body,
but for the flag of one. -/
theorem SpelledOut.exists_ofBody_eq (h : SpelledOut c known body way e shown vars a) (k : Nat)
    {body' : List Node} {front back front' back' : List ElementSite}
    (hsites : elementSites body = front ++ e :: back)
    (hsites' : elementSites body'
      = front' ++ { e with head := e.head.withAttribute k a } :: back')
    (hfront : List.Forall₂ (ElementSite.Kept body body' way) front front')
    (hback : List.Forall₂ (ElementSite.Kept body body' way) back back') :
    ∃ name front back front' back',
      StateBinding.ofBody c known body = front ++ ⟨vars, e, name, shown.1, shown.2, false⟩ :: back
      ∧ StateBinding.ofBody c known body' = front'
        ++ ⟨vars, { e with head := e.head.withAttribute k a }, name, shown.1, shown.2, true⟩ :: back'
      ∧ (List.Forall₂ fun b b' => b.site.Kept body body' way b'.site
        ∧ b' = { b with site := b'.site }) front front'
      ∧ (List.Forall₂ fun b b' => b.site.Kept body body' way b'.site
        ∧ b' = { b with site := b'.site }) back back' := by
  have hself : e.Alike { e with head := e.head.withAttribute k a } := ⟨rfl, rfl, rfl, rfl⟩
  have hbindings := StateBinding.flatMap_assignFrom c known front back e
  have hbindings' := StateBinding.flatMap_assignFrom c known front' back'
    { e with head := e.head.withAttribute k a }
  obtain ⟨name, hone⟩ := h.exists_ofElement_eq (Naming.nextAfter c 0 front)
  -- the counter stands at the same number where naming comes to the element
  rw [ElementName.nextAfter_of_alike (fun hkept => hkept.alike) hfront,
    ElementName.size_of_alike hself, ElementName.assign_of_alike hself,
    h.ofElement_withAttribute_eq, hone] at hbindings'
  rw [hone] at hbindings
  have hbefore := StateBinding.forall₂_ofElement (c := c) hfront 0 known
  have hbehind := StateBinding.forall₂_ofElement (c := c) hback (Naming.nextAfter c 0 front
    + (ElementName.assign c (Naming.nextAfter c 0 front) e).size) known
  refine ⟨name, _, _, _, _, ?_, ?_, hbefore, hbehind⟩
  · rw [StateBinding.ofBody, ElementName.ofBody, hsites, hbindings]
    rfl
  · rw [StateBinding.ofBody, ElementName.ofBody, hsites', hbindings']
    rfl

/-- Elements that an edit keeps have the same faults in `deps` attributes. -/
theorem Deps.flatMap_diagnostics {body' : List Node} {es es' : List ElementSite}
    (h : List.Forall₂ (ElementSite.Kept body body' way) es es') (file : String) :
    es'.flatMap (fun e => diagnostics file known e.head)
      = es.flatMap fun e => diagnostics file known e.head := by
  induction h with
  | nil => rfl
  | cons hkept _ ih => rw [List.flatMap_cons, List.flatMap_cons, ih, hkept.head_eq]

/-- The state variables of a component do not depend on attributes. -/
theorem StateVar.ofComponent_editAt (f : ElementHead → ElementHead) (way : Way) (comp : Component) :
    ofComponent c (comp.editAt f way) = ofComponent c comp := by
  rw [ofComponent, ofComponent, Component.editAt, Node.filterMap_statement?_editBody]

/-- **Spelling out what is detected changes one flag.** Where an element outside loops
shows one expression and lists no dependencies, and an attribute is added that lists,
in their order, the variables which that expression is found to read, the binding of
the element becomes explicit. All else stays: the state variables, the names, the
references, the other bindings, and what is wrong. -/
theorem Component.differsInFlag_withAttribute (c : Config) (file : String) {comp : Component}
    {way : Way} {e : ElementSite} {shown : BoundProperty × String} {vars : List String}
    {a : Attribute}
    (h : SpelledOut c (comp.tables c file).varNames comp.body way e shown vars a) (k : Nat) :
    comp.DiffersInFlag c file (comp.editAt (·.withAttribute k a) way) way e
      { e with head := e.head.withAttribute k a } shown vars := by
  obtain ⟨front, back, front', back', hsites, hsites', hfront, hback, hat⟩ :=
    exists_elementSites_editBody (f := (·.withAttribute k a)) (fun _ => rfl) h.at_way
  have hvars := StateVar.ofComponent_editAt (c := c) (·.withAttribute k a) way comp
  have hself : e.Alike { e with head := e.head.withAttribute k a } := ⟨rfl, rfl, rfl, rfl⟩
  -- names and references see no difference between the elements at one place
  have hall : List.Forall₂ (fun e e' => e.SamePlace comp.body
      (comp.editAt (·.withAttribute k a) way).body e' ∧ e.Alike e') (elementSites comp.body)
      (elementSites (comp.editAt (·.withAttribute k a) way).body) := by
    have hkept := fun {e e'} (hkept : ElementSite.Kept comp.body
      (comp.editAt (·.withAttribute k a) way).body way e e') => And.intro hkept.samePlace hkept.alike
    rw [hsites, Component.editAt, hsites']
    exact List.rel_append (hfront.imp fun _ _ => hkept)
      (.cons ⟨⟨way, h.at_way, hat⟩, hself⟩ (hback.imp fun _ _ => hkept))
  obtain ⟨hrefs, herrors⟩ := NamedRef.foldl_add_of_alike (fun hR => hR.2) file hall
  have hknown : ((comp.editAt (·.withAttribute k a) way).tables c file).varNames
      = (comp.tables c file).varNames := congrArg (List.map StateVar.name) hvars
  refine ⟨⟨h.at_way, hat⟩, hvars, ?_, ?_, herrors, ?_, ?_, ?_⟩
  · exact (ElementName.forall₂_assignFrom (fun hR => hR.2) hall 0).imp
      fun _ _ hn => ⟨hn.1.1, hn.2⟩
  · exact hrefs.imp fun _ _ hr => ⟨hr.1.1, hr.2⟩
  · have htable : ∀ comp : Component, (comp.tables c file).bindings
        = StateBinding.ofBody c (comp.tables c file).varNames comp.body := fun _ => rfl
    rw [htable, htable, hknown]
    exact h.exists_ofBody_eq k hsites hsites' hfront hback
  · have hdeps : ∀ comp : Component, comp.depsDiagnostics c file
        = (elementSites comp.body).flatMap fun e =>
          Deps.diagnostics file (comp.tables c file).varNames e.head := fun _ => rfl
    rw [hdeps, hdeps, hknown, hsites, Component.editAt, hsites', List.flatMap_append,
      List.flatMap_append, List.flatMap_cons, List.flatMap_cons, Deps.flatMap_diagnostics hfront,
      Deps.flatMap_diagnostics hback, h.diagnostics_withAttribute, Deps.diagnostics, h.no_deps]
  · rw [hknown, h.diagnostics_withAttribute]

end

/-- A line that shows two counters, and another one below it. -/
def Component.sumLine : Component :=
  let head (tag : String) : ElementHead := ⟨tag, [], false, none, none, ⟨1, 1⟩, none, none, []⟩
  let shown (code : String) : Node := .expression ⟨code, ⟨1, 1⟩, none⟩
  ⟨"Sum", [], [.goCode ⟨"a := tui.NewState(0)", ⟨1, 1⟩, none⟩,
    .goCode ⟨"b := tui.NewState(1)", ⟨1, 1⟩, none⟩,
    .element (head "div") [.element (head "p") [shown "sum(b.Get(), a.Get(), b.Get())"],
      .element (head "p") [shown "a.Get()"]]],
    false, ⟨1, 1⟩, none, none, []⟩

/-- What the line reads can be spelled out. -/
theorem Component.differsInFlag_withAttribute_sumLine :
    ∃ (way : Way) (e : ElementSite) (a : Attribute),
      SpelledOut .standard (sumLine.tables .standard "").varNames sumLine.body way e
        (.text, "sum(b.Get(), a.Get(), b.Get())") ["b", "a"] a
      ∧ a.value = .expression ⟨"[b, a]", ⟨1, 1⟩, none⟩
      ∧ sumLine.DiffersInFlag .standard "" (sumLine.editAt (·.withAttribute 0 a) way) way e
        { e with head := e.head.withAttribute 0 a } (.text, "sum(b.Get(), a.Get(), b.Get())")
        ["b", "a"] := by
  let head (tag : String) : ElementHead := ⟨tag, [], false, none, none, ⟨1, 1⟩, none, none, []⟩
  have hnames : (sumLine.tables .standard "").varNames = ["a", "b"] := by decide
  have hreads : readVars ["a", "b"] Config.standard.stateAccessor "sum(b.Get(), a.Get(), b.Get())"
      = ["b", "a"] := by decide +kernel
  -- only the outer element encloses the line
  have houter : ∀ m, Node.Encloses sumLine.body [(0, 2), (0, 0)] m → ∃ cs, m = .element (head "div") cs := by
    intro m hencloses
    rcases (Node.passes_cons rfl).1 ((Node.encloses_iff rfl).1 hencloses) with rfl | hpasses
    · exact ⟨_, rfl⟩
    · exact absurd hpasses Node.not_passes_nil
  have hloop : ∀ h b, ¬Node.Encloses sumLine.body [(0, 2), (0, 0)] (.forLoop h b) := fun h b henc => by
    obtain ⟨_, heq⟩ := houter _ henc
    cases heq
  have hconditional : ∀ h t e,
      ¬Node.Encloses sumLine.body [(0, 2), (0, 0)] (.conditional h t e) := fun h t e henc => by
    obtain ⟨_, heq⟩ := houter _ henc
    cases heq
  let a : Attribute := ⟨"deps", .expression ⟨"[b, a]", ⟨1, 1⟩, none⟩, ⟨1, 1⟩, ⟨1, 1⟩⟩
  have hspelled : SpelledOut .standard (sumLine.tables .standard "").varNames sumLine.body
      [(0, 2), (0, 0)]
      ⟨head "p", [.expression ⟨"sum(b.Get(), a.Get(), b.Get())", ⟨1, 1⟩, none⟩], false, false⟩
      (.text, "sum(b.Get(), a.Get(), b.Get())") ["b", "a"] a :=
    ⟨⟨rfl, by simp [hloop], by simp [hconditional]⟩, hloop, rfl, rfl, by rw [hnames, hreads],
      List.cons_ne_nil _ _, rfl, ⟨_, rfl, by decide⟩⟩
  exact ⟨_, _, a, hspelled, rfl, differsInFlag_withAttribute .standard "" hspelled 0⟩

end Gsx
