import Gsx.Proofs.Bindings
import Gsx.Proofs.State.Reads
/-!
# State that is shown and refreshed

An element outside loops that reads a state variable, and does not list its
dependencies itself, has a binding for each expression that reads it, wherever in
the component the element stands: in a branch, among the children of a call, or
inside an element that a `@let` binds.

There are two exceptions. The element that a `@let` binds directly is not looked at
by the walk that collects bindings, so what it shows is never refreshed. And the
reads of a variable are found by words of ASCII, so a parameter with a letter of
another script in its name is never found to be read.
-/

namespace Gsx

/-- The element at a site, be it a node of the body or what a `@let` binds. -/
def Site.anyElement? (s : Site) : Option ElementSite :=
  match s.node with
  | .element h cs | .letBinding _ h cs => some ⟨h, cs, s.inLoop, s.inConditional⟩
  | _ => none

/-- An element at a site is one at the place of the site. -/
theorem Site.At.element_at {body : List Node} {way : Way} {s : Site} {e : ElementSite}
    (h : s.At body way) (helement : s.element? = some e) : e.At body way := by
  rw [Site.element?_eq_some_iff.1 helement] at h
  exact ⟨h.node_eq, h.inLoop_iff, h.inConditional_iff⟩

/-- At the place of an element the only element is this one. -/
theorem Site.At.eq_of_element_at {body : List Node} {way : Way} {s : Site} {e e' : ElementSite}
    (h : s.At body way) (hany : s.anyElement? = some e) (hat : e'.At body way) :
    e' = e ∧ s.element? = some e := by
  obtain ⟨n, l, c⟩ := s
  obtain ⟨head, children, l', c'⟩ := e'
  obtain rfl : n = .element head children := Option.some.inj (h.node_eq.symm.trans hat.node_eq)
  obtain rfl : l = l' := Bool.eq_iff_iff.2 (h.inLoop_iff.trans hat.inLoop_iff.symm)
  obtain rfl : c = c' := Bool.eq_iff_iff.2 (h.inConditional_iff.trans hat.inConditional_iff.symm)
  exact ⟨Option.some.inj hany, hany⟩

/-- **State that an element shows**: no loop encloses the element, it does not list
dependencies, and an expression that it shows reads a state variable. -/
structure ShowsState (c : Config) (comp : Component) (known : List String) (way : Way) (s : Site)
    (e : ElementSite) (shown : BoundProperty × String) (name : String) : Prop where
  at_way : s.At comp.body way
  element : s.anyElement? = some e
  outside : ∀ h b, ¬Node.Encloses comp.body way (.forLoop h b)
  no_deps : e.head.attribute? "deps" = none
  is_shown : shown ∈ e.shown
  known : name ∈ known
  reads : ReadsVar c.stateAccessor shown.2 name

namespace StateBinding

variable {c : Config} {known : List String} {e : ElementSite} {way : Way} {b : StateBinding}

/-! ## Bindings at their places -/

/-- The bindings of elements at their places, with names from a number on. -/
def locatedFrom (c : Config) (known : List String) (next : Nat) :
    List (Way × ElementSite) → List (Way × StateBinding)
  | [] => []
  | (way, e) :: rest =>
    (ofElement c known (.assign c next e)).map (way, ·)
      ++ locatedFrom c known (next + (ElementName.assign c next e).size) rest

theorem map_snd_locatedFrom (next : Nat) (located : List (Way × ElementSite)) :
    (locatedFrom c known next located).map Prod.snd
      = (ElementName.assignFrom c next (located.map Prod.snd)).flatMap (ofElement c known) := by
  induction located generalizing next with
  | nil => rfl
  | cons p located ih =>
    rw [locatedFrom, List.map_append, ih, List.map_cons, ElementName.assignFrom, List.flatMap_cons,
      List.map_map]
    exact congrArg (· ++ _) (List.map_id _)

/-- A place has the bindings of its element, whatever number the name of it has. -/
theorem mem_locatedFrom {next : Nat} {located : List (Way × ElementSite)} :
    (way, b) ∈ locatedFrom c known next located →
      ∃ e next', (way, e) ∈ located ∧ b ∈ ofElement c known (.assign c next' e) := by
  induction located generalizing next with
  | nil => exact fun h => absurd h List.not_mem_nil
  | cons p located ih =>
    rw [locatedFrom, List.mem_append]
    rintro (h | h)
    · obtain ⟨b, hb, heq⟩ := List.mem_map.1 h
      cases heq
      exact ⟨p.2, next, List.mem_cons_self, hb⟩
    · obtain ⟨e, next', he, hb⟩ := ih h
      exact ⟨e, next', List.mem_cons_of_mem _ he, hb⟩

theorem exists_ofElement_subset_locatedFrom (c : Config) (known : List String) (next : Nat)
    {located : List (Way × ElementSite)} (h : (way, e) ∈ located) :
    ∃ next', ∀ b ∈ ofElement c known (.assign c next' e),
      (way, b) ∈ locatedFrom c known next located := by
  induction located generalizing next with
  | nil => exact absurd h List.not_mem_nil
  | cons p located ih =>
    rcases List.mem_cons.1 h with rfl | h
    · exact ⟨next, fun b hb => List.mem_append_left _ (List.mem_map.2 ⟨b, hb, rfl⟩)⟩
    · obtain ⟨next', hall⟩ := ih _ h
      exact ⟨next', fun b hb => List.mem_append_right _ (hall b hb)⟩

/-! ## Bindings and reads -/

/-- Without a `deps` attribute an expression depends on what it reads. -/
theorem varsOf_of_no_deps {e : ElementHead} (h : e.attribute? "deps" = none) (code : String) :
    varsOf c known e code = (readVars known c.stateAccessor code, false) := by
  rw [varsOf, Deps.ofElement, h]

/-- The binding of an expression that depends on state. -/
theorem exists_mem_ofElement (next : Nat) {property : BoundProperty} {code : String}
    (hloop : e.inLoop = false) (hshown : (property, code) ∈ e.shown)
    (hvars : (varsOf c known e.head code).1 ≠ []) :
    ∃ b ∈ ofElement c known (.assign c next e), b.subject = (e, property, code) := by
  rw [← List.mem_map, map_subject_ofElement, hloop]
  refine List.mem_map.2 ⟨(property, code), List.mem_filter.2 ⟨hshown, ?_⟩, rfl⟩
  rw [Bool.not_eq_true', Bool.eq_false_iff]
  exact fun hempty => hvars (List.isEmpty_iff.1 hempty)

/-- **A binding of an element** lists what its expression reads, where there is no
`deps` attribute. -/
theorem vars_of_mem_ofElement {next : Nat} (hdeps : e.head.attribute? "deps" = none)
    (h : b ∈ ofElement c known (.assign c next e)) :
    b.vars = readVars known c.stateAccessor b.expr := by
  obtain ⟨_, _, _, hb⟩ := exists_of_mem_ofElement h
  have hvars := (varsOf_of_ofProperty? hb).1
  rw [site_assign, varsOf_of_no_deps hdeps] at hvars
  exact (congrArg Prod.fst hvars).symm

/-- **State that is shown is refreshed, but for what a `@let` binds and for names that
are no words.** The bindings of a component stand at the places of their elements.
Wherever an element outside loops shows state, and it does not list its dependencies
itself, there is at its place a binding of that expression that lists the variable,
if the element is not itself what a `@let` binds and the name of the variable is a
word of ASCII. In these two cases there is none. -/
theorem refreshed_iff (c : Config) (file : String) (comp : Component)
    (haccessor : ')' ∉ c.stateAccessor.toList) :
    ∃ placed : List (Way × StateBinding),
      placed.map Prod.snd = (comp.tables c file).bindings
      ∧ (∀ way b, (way, b) ∈ placed → ElementSite.At comp.body way b.site)
      ∧ ∀ way s e shown name,
          ShowsState c comp (comp.tables c file).varNames way s e shown name →
          ((∃ b, (way, b) ∈ placed ∧ (b.property, b.expr) = shown ∧ name ∈ b.vars)
            ↔ s.element? = some e ∧ StateText.IsWord name.toList) := by
  obtain ⟨located, hlocated, -, hall⟩ := elementSites_inDocumentOrder comp.body
  refine ⟨locatedFrom c (comp.tables c file).varNames 0 located, ?_, fun way b hb => ?_,
    fun way s e shown name h => ⟨?_, ?_⟩⟩
  · rw [map_snd_locatedFrom, hlocated]
    rfl
  · obtain ⟨e, next, he, hb⟩ := mem_locatedFrom hb
    rw [site_of_mem_ofElement hb, site_assign]
    exact (hall way e).1 he
  · rintro ⟨b, hb, -, hname⟩
    obtain ⟨e', next, he', hb⟩ := mem_locatedFrom hb
    obtain ⟨rfl, helement⟩ := h.at_way.eq_of_element_at h.element ((hall way e').1 he')
    rw [vars_of_mem_ofElement h.no_deps hb] at hname
    exact ⟨helement, isWord_of_mem_readVars hname⟩
  · rintro ⟨helement, hword⟩
    have hat := h.at_way.element_at helement
    have hreads := mem_readVars_of_readsVar haccessor hword h.known h.reads
    obtain ⟨next, hsubset⟩ := exists_ofElement_subset_locatedFrom c (comp.tables c file).varNames 0
      ((hall way e).2 hat)
    obtain ⟨b, hb, hsubject⟩ := exists_mem_ofElement next (hat.inLoop_eq_false h.outside) h.is_shown (by
      rw [varsOf_of_no_deps h.no_deps]
      exact List.ne_nil_of_mem hreads)
    obtain ⟨-, hshown⟩ := Prod.mk.inj hsubject
    refine ⟨b, hsubset b hb, hshown, ?_⟩
    rw [vars_of_mem_ofElement h.no_deps hb, (Prod.mk.inj hshown).2]
    exact hreads

/-- A component that shows a counter twice, once in an element that a `@let` binds. -/
def boundCounter : Component :=
  let head (tag : String) : ElementHead := ⟨tag, [], false, none, none, ⟨1, 1⟩, none, none, []⟩
  let shown : Node := .expression ⟨"x.Get()", ⟨1, 1⟩, none⟩
  ⟨"Page", [], [.goCode ⟨"x := tui.NewState(0)", ⟨1, 1⟩, none⟩,
    .letBinding ⟨"title", ⟨1, 1⟩, none⟩ (head "b") [shown], .element (head "div") [shown]],
    false, ⟨1, 1⟩, none, none, []⟩

/-- A node of the body itself shows the counter, if its element does. -/
theorem showsState_boundCounter {i : Nat} {n : Node} {e : ElementSite}
    (hnode : boundCounter.body[i]? = some n) (helement : Site.anyElement? ⟨n, false, false⟩ = some e)
    (hdeps : e.head.attribute? "deps" = none) (hshown : (.text, "x.Get()") ∈ e.shown) :
    ShowsState .standard boundCounter ["x"] [(0, i)] ⟨n, false, false⟩ e (.text, "x.Get()") "x" := by
  have hfree : ∀ m, ¬Node.Encloses boundCounter.body [(0, i)] m := fun m hencloses =>
    Node.not_passes_nil ((Node.encloses_iff hnode).1 hencloses)
  refine ⟨⟨?_, ?_, ?_⟩, helement, fun h b => hfree _, hdeps, hshown, List.mem_singleton.2 rfl, ?_⟩
  · rw [Node.at?, List.getElem?_cons_zero, Option.bind_some, hnode]
    rfl
  · simp [hfree]
  · simp [hfree]
  · exact ⟨[], "x".toList, [], by decide, .plain, fun _ x hx => by cases hx⟩

/-- Only the element that stands by itself is refreshed. -/
theorem refreshed_iff_boundCounter :
    ')' ∉ Config.standard.stateAccessor.toList
      ∧ (boundCounter.tables .standard "").varNames = ["x"]
      ∧ ∃ placed : List (Way × StateBinding),
        placed.map Prod.snd = (boundCounter.tables .standard "").bindings
        ∧ (∃ b, ([(0, 2)], b) ∈ placed ∧ (b.property, b.expr) = (.text, "x.Get()") ∧ "x" ∈ b.vars)
        ∧ ¬∃ b, ([(0, 1)], b) ∈ placed ∧ (b.property, b.expr) = (.text, "x.Get()") ∧ "x" ∈ b.vars := by
  have haccessor : ')' ∉ Config.standard.stateAccessor.toList := by decide
  have hnames : (boundCounter.tables .standard "").varNames = ["x"] := by decide
  obtain ⟨placed, hplaced, -, hall⟩ := refreshed_iff .standard "" boundCounter haccessor
  rw [hnames] at hall
  have hdiv := hall _ _ _ _ _ (@showsState_boundCounter 2 _ _ rfl rfl rfl (.head _))
  have hlet := hall _ _ _ _ _ (@showsState_boundCounter 1 _ _ rfl rfl rfl (.head _))
  have hword : StateText.IsWord "x".toList := ⟨by decide, List.all_eq_true.1 (by decide)⟩
  refine ⟨haccessor, hnames, placed, hplaced, hdiv.2 ⟨rfl, hword⟩, fun hfound => ?_⟩
  obtain ⟨helement, -⟩ := hlet.1 hfound
  cases helement

/-- A letter beyond ASCII is no part of a word, so a variable with one is not found. -/
example : readVars ["é"] "Get" "é.Get()" = [] := by decide

end StateBinding

end Gsx
