import Gsx.Analysis.Result
import Gsx.Proofs.Numbering
/-!
# The table of bindings

A binding says that a property of an element is to be refreshed when some state
changes. What an element shows of Go is its text expressions and its class
expression, and each of these has a binding exactly if it depends on state and the
element is in no loop. It depends on what the `deps` attribute of the element lists,
where that is an array, and else on the variables that it reads.

So nothing that has to be refreshed is left out, nothing else is refreshed, and the
table is in document order. What is wrong with a `deps` attribute is reported once,
in a loop as well as outside.
-/

namespace Gsx

/-! ## Dependencies -/

/-- The names of a list, each once, in the order of their first places. -/
structure IsFirstOccurrences (names vars : List String) : Prop where
  mem_iff : ∀ v, v ∈ vars ↔ v ∈ names
  ordered : vars.Pairwise fun v w => names.idxOf v < names.idxOf w

theorem isFirstOccurrences_firstOccurrences (names : List String) :
    IsFirstOccurrences names (firstOccurrences names) := by
  refine ⟨fun v => mem_firstOccurrences, ?_⟩
  induction names with
  | nil => exact .nil
  | cons name rest ih =>
    have hother : ∀ {v : String}, v ≠ name →
        (name :: rest).idxOf v = rest.idxOf v + 1 := fun hv =>
      List.idxOf_cons_ne _ hv.symm
    rw [firstOccurrences, List.pairwise_cons]
    refine ⟨fun v hv => ?_, ?_⟩
    · obtain ⟨-, hne⟩ := List.mem_filter.1 hv
      rw [List.idxOf_cons_self, hother (fun heq => by simp [heq] at hne)]
      exact Nat.succ_pos _
    · rw [List.pairwise_filter]
      refine ih.imp fun hlt hv hw => ?_
      rw [hother (by simpa using hv), hother (by simpa using hw)]
      exact Nat.succ_lt_succ hlt

/-- The first `deps` attribute of an element is an expression, and that is, without
blank ends, a text in brackets. -/
def ElementHead.ListsDeps (e : ElementHead) (inner : List Char) : Prop :=
  ∃ a g, e.attribute? "deps" = some a ∧ a.value = .expression g
    ∧ (Text.trim g.code).toList = '[' :: (inner ++ [']'])

/-- **The names in the text of an array**: the texts between its commas, without blank
ends, if anything is left of them. -/
def Deps.listed (inner : List Char) : List String :=
  (((Text.trim (String.ofList inner)).toList.splitOn ',').map fun piece =>
    Text.trim (String.ofList piece)).filter (· != "")

/-- **What an expression of an element depends on**, and whether the element lists
it: the known names of its `deps` list, or else the known variables that the
expression reads. -/
inductive DependsOn (c : Config) (known : List String) (e : ElementHead) (code : String) :
    List String → Bool → Prop
  | listed {inner : List Char} {vars : List String} :
      e.ListsDeps inner →
      IsFirstOccurrences ((Deps.listed inner).filter known.contains) vars →
      DependsOn c known e code vars true
  | read :
      (∀ inner, ¬e.ListsDeps inner) →
      DependsOn c known e code (readVars known c.stateAccessor code) false

/-- **What the `deps` attribute of an element says**, and what is wrong with it. -/
inductive Deps.Says (known : List String) (e : ElementHead) : Deps → Prop
  | absent : e.attribute? "deps" = none → Says known e ⟨none, []⟩
  | notAnExpression {a : Attribute} :
      e.attribute? "deps" = some a → (∀ g, a.value ≠ .expression g) →
      Says known e ⟨none, [.notAnExpression]⟩
  | notAnArray {a : Attribute} {g : GoExpr} :
      e.attribute? "deps" = some a → a.value = .expression g → (∀ inner, ¬e.ListsDeps inner) →
      Says known e ⟨none, [.notAnArray]⟩
  | empty {inner : List Char} :
      e.ListsDeps inner → Text.trim (String.ofList inner) = "" →
      Says known e ⟨some [], [.empty]⟩
  | listed {inner : List Char} {vars : List String} :
      e.ListsDeps inner → Text.trim (String.ofList inner) ≠ "" →
      IsFirstOccurrences ((Deps.listed inner).filter known.contains) vars →
      Says known e
        ⟨some vars, ((Deps.listed inner).filter fun name => !known.contains name).map .unknown⟩

section
variable {c : Config} {known : List String} {e : ElementHead} {inner : List Char}

/-- What the reader takes for the pieces of a text are the pieces of the library. -/
theorem Text.splitOn_eq_splitOn (sep : Char) (cs : List Char) : Text.splitOn sep cs = cs.splitOn sep := by
  induction cs with
  | nil => rfl
  | cons c cs ih =>
    rw [Text.splitOn, ih, List.splitOn, List.splitOn, List.splitOnP_cons_eq_if_modifyHead]
    by_cases hc : c = sep
    · rw [if_pos hc, if_pos (beq_iff_eq.2 hc)]
    · rw [if_neg hc, if_neg (by simpa using hc)]
      cases hpieces : cs.splitOnP (· == sep) with
      | nil => exact absurd hpieces (List.splitOnP_ne_nil _ _)
      | cons piece more => rfl

theorem Deps.names_trim (inner : List Char) :
    names (Text.trim (String.ofList inner)) = listed inner := by
  rw [names, listed, Text.splitOn_eq_splitOn]
  simp [Text.trim]

/-- A text that begins and ends with the right bracket is a text in brackets. -/
theorem exists_of_brackets {cs : List Char} (hhead : cs.head? = some '[')
    (hlast : cs.getLast? = some ']') : ∃ inner, cs = '[' :: (inner ++ [']']) := by
  obtain ⟨front, rfl⟩ := List.getLast?_eq_some_iff.1 hlast
  cases front with
  | nil => cases hhead
  | cons x inner =>
    obtain rfl := Option.some.inj hhead
    exact ⟨inner, rfl⟩

theorem Deps.ofValue_array {g : GoExpr} (h : (Text.trim g.code).toList = '[' :: (inner ++ [']'])) :
    Deps.ofValue known (.expression g)
      = if Text.trim (String.ofList inner) = "" then ⟨some [], [.empty]⟩
        else ⟨some (firstOccurrences ((listed inner).filter known.contains)),
          ((listed inner).filter fun name => !known.contains name).map .unknown⟩ := by
  have hinner : ((Text.trim g.code).toList.drop 1).dropLast = inner := by
    rw [h, List.drop_one, List.tail_cons, List.dropLast_concat]
  rw [ofValue, h, ← List.cons_append, List.getLast?_concat, if_pos (by simp), ofArray, hinner]
  simp only [names_trim]

theorem Deps.ofValue_of_not_array {g : GoExpr}
    (h : ∀ inner, (Text.trim g.code).toList ≠ '[' :: (inner ++ [']'])) :
    Deps.ofValue known (.expression g) = ⟨none, [.notAnArray]⟩ := by
  rw [ofValue, if_neg]
  intro htest
  simp only [Bool.and_eq_true, decide_eq_true_eq] at htest
  obtain ⟨inner, hinner⟩ := exists_of_brackets htest.1 htest.2
  exact h inner hinner

/-- The names of a list of blanks are none. -/
theorem Deps.listed_eq_nil (h : Text.trim (String.ofList inner) = "") : listed inner = [] := by
  rw [listed, h]
  decide

/-- Without an attribute that is an expression nothing is listed. -/
theorem ElementHead.not_listsDeps
    (h : ∀ a g, e.attribute? "deps" = some a → a.value ≠ .expression g) (inner : List Char) :
    ¬e.ListsDeps inner := by
  rintro ⟨a, g, hsome, hvalue, -⟩
  exact h a g hsome hvalue

/-- **Reading a `deps` attribute is right.** -/
theorem Deps.says_ofElement (known : List String) (e : ElementHead) :
    Says known e (ofElement known e) := by
  rw [ofElement]
  split
  · next a ha =>
    cases hvalue : a.value with
    | expression g =>
      by_cases harray : ∃ inner, (Text.trim g.code).toList = '[' :: (inner ++ [']'])
      · obtain ⟨inner, hinner⟩ := harray
        have hlists : e.ListsDeps inner := ⟨a, g, ha, hvalue, hinner⟩
        rw [ofValue_array hinner]
        split
        · next hblank => exact .empty hlists hblank
        · next hblank => exact .listed hlists hblank (isFirstOccurrences_firstOccurrences _)
      · rw [ofValue_of_not_array (not_exists.1 harray)]
        refine .notAnArray ha hvalue ?_
        rintro inner ⟨a', g', ha', hvalue', hinner⟩
        rw [ha, Option.some.injEq] at ha'
        rw [← ha', hvalue, AttributeValue.expression.injEq] at hvalue'
        exact harray ⟨inner, hvalue' ▸ hinner⟩
    | string | int | float | bool =>
      exact .notAnExpression ha fun g hg => by rw [hvalue] at hg; cases hg
  · next ha => exact .absent ha

/-- **An expression depends on what the table takes for it.** -/
theorem dependsOn_varsOf (c : Config) (known : List String) (e : ElementHead) (code : String) :
    DependsOn c known e code (StateBinding.varsOf c known e code).1
      (StateBinding.varsOf c known e code).2 := by
  rw [StateBinding.varsOf]
  cases hsays : Deps.ofElement known e with
  | mk vars faults =>
  have h := hsays ▸ Deps.says_ofElement known e
  cases h with
  | absent ha => exact .read (e.not_listsDeps fun a g hsome => by rw [ha] at hsome; cases hsome)
  | notAnExpression ha hvalue =>
    refine .read (e.not_listsDeps fun a g hsome => ?_)
    rw [ha, Option.some.injEq] at hsome
    exact hsome ▸ hvalue g
  | notAnArray _ _ hnone => exact .read hnone
  | empty hlists hblank =>
    refine .listed hlists ?_
    rw [Deps.listed_eq_nil hblank]
    exact isFirstOccurrences_firstOccurrences []
  | listed hlists _ hvars => exact .listed hlists hvars

/-- Dependencies are known variables, each named once. -/
theorem DependsOn.known_nodup {code : String} {vars : List String} {isExplicit : Bool}
    (h : DependsOn c known e code vars isExplicit) : vars ⊆ known ∧ vars.Nodup := by
  have hknown : ∀ names : List String, names.filter known.contains ⊆ known := fun names v hv =>
    List.contains_iff_mem.1 (List.mem_filter.1 hv).2
  cases h with
  | listed _ hvars =>
    refine ⟨fun v hv => hknown _ ((hvars.mem_iff v).1 hv), hvars.ordered.imp fun hlt heq => ?_⟩
    exact absurd (heq ▸ hlt) (Nat.lt_irrefl _)
  | read => exact ⟨fun v hv => hknown _ (mem_firstOccurrences.1 hv), nodup_firstOccurrences _⟩

end

/-! ## What an element shows -/

/-- **The Go that an element shows**: its text expressions, then the expression of its
first class attribute. -/
def ElementSite.shown (e : ElementSite) : List (BoundProperty × String) :=
  let texts := e.children.filterMap fun child =>
    match child with
    | .expression g => some (.text, g.code)
    | _ => none
  let classes :=
    match (e.head.attributes.find? fun a => a.name = "class").map (·.value) with
    | some (.expression g) => [(.cls, g.code)]
    | _ => []
  texts ++ classes

theorem ElementSite.shown_eq (e : ElementSite) :
    e.shown = (e.children.filterMap Node.code?).map (BoundProperty.text, ·)
      ++ (StateBinding.classCode? e.head).toList.map (BoundProperty.cls, ·) := by
  rw [shown, List.map_filterMap]
  refine congrArg₂ _ (List.filterMap_congr fun child _ => ?_) ?_
  · cases child <;> rfl
  · rw [StateBinding.classCode?, ElementHead.attribute?]
    cases e.head.attributes.find? (fun a => a.name = "class") with
    | none => rfl
    | some a =>
      obtain ⟨_, value, _, _⟩ := a
      cases value <;> rfl

/-- The expression that a binding is of. -/
def StateBinding.subject (b : StateBinding) : ElementSite × BoundProperty × String :=
  (b.site, b.property, b.expr)

namespace StateBinding

variable {c : Config} {known : List String} {n : ElementName} {next : Nat} {e : ElementSite}

/-- The expressions of an element that depend on state. -/
def dependent (c : Config) (known : List String) (e : ElementSite)
    (shown : List (BoundProperty × String)) : List (ElementSite × BoundProperty × String) :=
  (shown.filter fun s => !(varsOf c known e.head s.2).1.isEmpty).map (e, ·)

theorem dependent_append (shown shown' : List (BoundProperty × String)) :
    dependent c known e (shown ++ shown')
      = dependent c known e shown ++ dependent c known e shown' := by
  rw [dependent, List.filter_append, List.map_append]
  rfl

/-- A property has a binding if its expression depends on state. -/
theorem map_subject_ofProperty? (target : String) (property : BoundProperty) (code : String) :
    (ofProperty? c known n target property code).toList.map subject
      = dependent c known n.site [(property, code)] := by
  simp only [ofProperty?, dependent, List.filter_singleton]
  cases (varsOf c known n.site.head code).1.isEmpty <;> rfl

/-- There is a name for each text child. -/
theorem length_textTargets (next : Nat) (e : ElementSite) :
    (textTargets (.assign c next e)).length = e.textChildren.length := by
  have hlength := length_targets_assign (c := c) next e
  rw [textTargets, site_assign]
  split
  · exact List.length_map _
  · next hsome =>
    rw [List.isEmpty_iff_length_eq_zero, hlength, Config.textCount] at hsome
    rw [hlength, Config.textCount]
    split at hsome
    · exact absurd rfl hsome
    · next hshows => rw [if_neg hshows, List.countP_eq_length_filter, ElementSite.textChildren]

/-- The text bindings of some text children that have a name each. -/
theorem map_subject_zip {children : List Node} {targets : List String}
    (h : targets.length = children.length) :
    (((children.zip targets).filterMap fun p =>
        p.1.code?.bind (ofProperty? c known n p.2 .text)).map subject)
      = dependent c known n.site ((children.filterMap Node.code?).map (BoundProperty.text, ·)) := by
  induction children generalizing targets with
  | nil => rfl
  | cons child children ih =>
    cases targets with
    | nil => cases h
    | cons target targets =>
      have hrest := ih (Nat.succ.inj h)
      rw [List.zip_cons_cons, List.filterMap_cons, List.filterMap_cons]
      cases child.code? with
      | none => exact hrest
      | some code =>
        rw [List.map_cons, ← List.singleton_append, dependent_append, ← hrest,
          ← map_subject_ofProperty? target]
        rw [Option.bind_some]
        cases ofProperty? c known n target .text code <;> rfl

/-- Only text children are expressions. -/
theorem filterMap_code?_textChildren :
    e.textChildren.filterMap Node.code? = e.children.filterMap Node.code? := by
  rw [ElementSite.textChildren, List.filterMap_filter]
  refine List.filterMap_congr fun child _ => ?_
  cases child <;> rfl

/-- **The bindings of an element** are of the expressions that it shows and that
depend on state, in this order. In a loop there is none. -/
theorem map_subject_ofElement (next : Nat) (e : ElementSite) :
    (ofElement c known (.assign c next e)).map subject
      = if e.inLoop then [] else dependent c known e e.shown := by
  have htexts := @map_subject_zip c known (.assign c next e) _ _
    (length_textTargets (c := c) next e)
  rw [filterMap_code?_textChildren, site_assign] at htexts
  rw [ofElement, site_assign]
  split
  · rfl
  · rw [List.map_append, ofTexts, site_assign, ElementSite.shown_eq, dependent_append]
    refine congrArg₂ _ htexts ?_
    rw [ofClass?, site_assign]
    cases classCode? e.head with
    | none => rfl
    | some code =>
      have hclass := @map_subject_ofProperty? c known (.assign c next e)
        (ElementName.assign c next e).name .cls code
      rwa [site_assign] at hclass

/-! ## What a binding says -/

/-- **A binding that is sound**: its variables are known ones, at least one and each
named once; it is of an expression that its element shows, and lists what that
depends on; and no loop encloses the element. -/
structure IsSound (c : Config) (known : List String) (body : List Node) (b : StateBinding) :
    Prop where
  vars_ne_nil : b.vars ≠ []
  vars_nodup : b.vars.Nodup
  vars_known : b.vars ⊆ known
  outside : ∃ way, ElementSite.At body way b.site ∧ ∀ h ns, ¬Node.Encloses body way (.forLoop h ns)
  shows :
    (b.property = .text ∧ ∃ g, .expression g ∈ b.site.children ∧ g.code = b.expr)
      ∨ b.property = .cls ∧ ∃ a g, b.site.head.attribute? "class" = some a
        ∧ a.value = .expression g ∧ g.code = b.expr
  depends : DependsOn c known b.site.head b.expr b.vars b.isExplicit

/-- A binding has what its expression depends on. -/
theorem varsOf_of_ofProperty? {target code : String} {property : BoundProperty}
    {b : StateBinding} (h : ofProperty? c known n target property code = some b) :
    varsOf c known n.site.head b.expr = (b.vars, b.isExplicit) ∧ b.vars ≠ [] := by
  simp only [ofProperty?] at h
  split at h
  · cases h
  · next hsome =>
    cases h
    exact ⟨rfl, fun hnil => hsome (List.isEmpty_iff.2 hnil)⟩

/-- Each binding of an element is that of one of its properties. -/
theorem exists_of_mem_ofElement {b : StateBinding} (h : b ∈ ofElement c known n) :
    ∃ target property code, ofProperty? c known n target property code = some b := by
  rw [ofElement] at h
  split at h
  · cases h
  · rcases List.mem_append.1 h with h | h
    · obtain ⟨⟨child, target⟩, -, hb⟩ := List.mem_filterMap.1 h
      obtain ⟨code, -, hb⟩ := Option.bind_eq_some_iff.1 hb
      exact ⟨_, _, _, hb⟩
    · obtain ⟨code, -, hb⟩ := Option.bind_eq_some_iff.1 (Option.mem_toList.1 h)
      exact ⟨_, _, _, hb⟩

/-- A binding of an element is at the element. -/
theorem site_of_mem_ofElement {b : StateBinding} (h : b ∈ ofElement c known n) :
    b.site = n.site := by
  obtain ⟨_, _, _, hb⟩ := exists_of_mem_ofElement h
  simp only [ofProperty?] at hb
  split at hb <;> cases hb
  rfl

/-- What an element shows, by its children and its class. -/
theorem mem_shown {property : BoundProperty} {code : String} (h : (property, code) ∈ e.shown) :
    (property = .text ∧ ∃ g, .expression g ∈ e.children ∧ g.code = code)
      ∨ property = .cls ∧ ∃ a g, e.head.attribute? "class" = some a
        ∧ a.value = .expression g ∧ g.code = code := by
  rw [ElementSite.shown_eq] at h
  rcases List.mem_append.1 h with h | h
  · obtain ⟨_, hcode, heq⟩ := List.mem_map.1 h
    cases heq
    obtain ⟨child, hchild, hcode⟩ := List.mem_filterMap.1 hcode
    cases child with
    | expression g => exact .inl ⟨rfl, g, hchild, Option.some.inj hcode⟩
    | _ => cases hcode
  · obtain ⟨_, hcode, heq⟩ := List.mem_map.1 h
    cases heq
    rw [Option.mem_toList, classCode?] at hcode
    split at hcode
    · next ha => exact .inr ⟨rfl, _, _, ha, rfl, Option.some.inj hcode⟩
    · cases hcode

/-- **Each binding is sound.** -/
theorem isSound_of_mem {body : List Node} {b : StateBinding} (h : b ∈ ofBody c known body) :
    b.IsSound c known body := by
  obtain ⟨n, hn, hb⟩ := List.mem_flatMap.1 h
  obtain ⟨e, he, next, rfl⟩ := ElementName.exists_of_mem_assignFrom hn
  have hsubject : b.subject ∈ (ofElement c known (.assign c next e)).map subject :=
    List.mem_map.2 ⟨b, hb, rfl⟩
  rw [map_subject_ofElement] at hsubject
  split at hsubject
  · cases hsubject
  · next hloop =>
    obtain ⟨⟨property, code⟩, hshown, heq⟩ := List.mem_map.1 hsubject
    obtain ⟨hsite, hproperty, hexpr⟩ : e = b.site ∧ property = b.property ∧ code = b.expr := by
      simpa [subject] using heq
    subst hsite hproperty hexpr
    obtain ⟨_, _, _, hof⟩ := exists_of_mem_ofElement hb
    obtain ⟨hvars, hne⟩ := varsOf_of_ofProperty? hof
    rw [site_assign] at hvars
    have hdepends := dependsOn_varsOf c known b.site.head b.expr
    rw [hvars] at hdepends
    obtain ⟨hknown, hnodup⟩ := hdepends.known_nodup
    refine ⟨hne, hnodup, hknown, ?_, mem_shown (List.mem_filter.1 hshown).1, hdepends⟩
    obtain ⟨placed, hplaced, -, hall⟩ := elementSites_inDocumentOrder body
    rw [← hplaced] at he
    obtain ⟨⟨way, e⟩, hmem, rfl⟩ := List.mem_map.1 he
    have hat := (hall _ _).1 hmem
    exact ⟨way, hat, fun h ns henclosed => hloop (hat.inLoop_iff.2 ⟨h, ns, henclosed⟩)⟩

/-- The bindings of a body, by the elements. -/
theorem map_subject_ofBody (body : List Node) :
    (ofBody c known body).map subject
      = (elementSites body).flatMap fun e =>
          if e.inLoop then [] else dependent c known e e.shown := by
  have hfrom : ∀ (next : Nat) (es : List ElementSite),
      ((ElementName.assignFrom c next es).flatMap (ofElement c known)).map subject
        = es.flatMap fun e => if e.inLoop then [] else dependent c known e e.shown := by
    intro next es
    induction es generalizing next with
    | nil => rfl
    | cons e es ih =>
      rw [ElementName.assignFrom, List.flatMap_cons, List.map_append, List.flatMap_cons,
        map_subject_ofElement, ih]
  exact hfrom 0 _

end StateBinding

/-! ## The table of a component -/

/-- The names of the state variables of a component. -/
def ComponentTables.varNames (t : ComponentTables) : List String :=
  t.stateVars.map (·.name)

/-- The diagnostics for what an element says of its dependencies, at its first `deps`
attribute. -/
def ElementHead.depsReport (e : ElementHead) (file : String) (deps : Deps) : List Diagnostic :=
  (e.attribute? "deps").toList.flatMap fun a => deps.faults.map (·.diagnostic file a.position)

theorem Deps.diagnostics_eq (file : String) (known : List String) (e : ElementHead) :
    diagnostics file known e = e.depsReport file (ofElement known e) := by
  rw [diagnostics, ElementHead.depsReport, ofElement]
  cases e.attribute? "deps" with
  | none => rfl
  | some a => exact (List.append_nil _).symm

namespace Component

/-- **The bindings of a component are sound and complete.** Each is sound. Element by
element in document order, and of each element its text expressions before its class
expression, the bindings are of the expressions that depend on state; there is none
in a loop. What is wrong with `deps` attributes is reported in the same order,
element by element, in loops as well, and once. -/
theorem bindings_sound (c : Config) (file : String) (comp : Component) :
    (∀ b ∈ (comp.tables c file).bindings,
      b.IsSound c (comp.tables c file).varNames comp.body)
    ∧ (∃ es, InDocumentOrder (ElementSite.At comp.body) es
      ∧ (comp.tables c file).bindings.map StateBinding.subject
          = es.flatMap (fun e => if e.inLoop then [] else
              StateBinding.dependent c (comp.tables c file).varNames e e.shown)
      ∧ comp.depsDiagnostics c file = es.flatMap fun e =>
          e.head.depsReport file (Deps.ofElement (comp.tables c file).varNames e.head))
    ∧ ∀ (known : List String) (e : ElementHead), Deps.Says known e (Deps.ofElement known e)
      ∧ ∀ code, DependsOn c known e code (StateBinding.varsOf c known e code).1
        (StateBinding.varsOf c known e code).2 := by
  refine ⟨fun b hb => StateBinding.isSound_of_mem hb, ⟨elementSites comp.body,
    elementSites_inDocumentOrder comp.body, StateBinding.map_subject_ofBody comp.body, ?_⟩,
    fun known e => ⟨Deps.says_ofElement known e, dependsOn_varsOf c known e⟩⟩
  simp only [← Deps.diagnostics_eq]
  rfl

end Component

end Gsx
