import Gsx.Proofs.Blanking.Sources
import Gsx.Proofs.Complaints
/-!
# The imports that a file gets

The Go text that a file keeps stands in many places: in the types of parameters,
in statements and expressions, in the values of attributes, in keys, conditions,
iterables and arguments. The analysis looks for the names of the runtime packages
in all of it but for the types of parameters, the keys, and the values of unknown
attributes. From this, from the classes, and from the state of the components it
reads off which packages a file requires, and the main statement is that the file
gets the imports of these that it lacks, each once, and no others.
-/

namespace Gsx

/-! ## Go text in a file -/

/-- The places where a file keeps Go text. -/
inductive GoPlace where
  | parameterType
  | statement
  | expression
  | attributeValue (name : String)
  | key
  | condition
  | iterable
  | arguments
  deriving DecidableEq, Repr

/-- **A file keeps some Go text** in a component, at a place of some kind. -/
inductive SourceFile.Keeps (f : SourceFile) : GoPlace → String → Prop
  | parameterType {comp : Component} {p : Param} :
      comp ∈ f.components → p ∈ comp.params → Keeps f .parameterType p.type
  | statement {way : Way} {g : GoCode} :
      f.at? way = some (.goCode g) → Keeps f .statement g.code
  | expression {way : Way} {e : GoExpr} :
      f.at? way = some (.expression e) → Keeps f .expression e.code
  | attributeValue {way : Way} {e : ElementHead} {cs : List Node} {a : Attribute} {g : GoExpr} :
      f.HasElement way e cs → a ∈ e.attributes → a.value = .expression g →
      Keeps f (.attributeValue a.name) g.code
  | key {way : Way} {e : ElementHead} {cs : List Node} {g : GoExpr} :
      f.HasElement way e cs → e.key = some g → Keeps f .key g.code
  | condition {way : Way} {h : IfHead} {t e : List Node} :
      f.at? way = some (.conditional h t e) → Keeps f .condition h.condition
  | iterable {way : Way} {h : ForHead} {b : List Node} :
      f.at? way = some (.forLoop h b) → Keeps f .iterable h.iterable
  | arguments {way : Way} {h : CallHead} {cs : List Node} :
      f.at? way = some (.call h cs) → Keeps f .arguments h.args

/-- Whether the analysis looks for packages at a place. -/
def GoPlace.isSearched (c : Config) : GoPlace → Bool
  | .parameterType | .key => false
  | .attributeValue name => c.isKnownAttribute name
  | .statement | .expression | .condition | .iterable | .arguments => true

/-- **A file mentions a package** where the analysis looks: the name of the package
with a point behind it occurs there. -/
def SourceFile.Mentions (c : Config) (f : SourceFile) (package : String) : Prop :=
  ∃ place code, f.Keeps place code ∧ place.isSearched c = true
    ∧ package.toList ++ ['.'] <:+: code.toList

/-- A word of a class list that means something of the `tui` package. -/
def ClassMapping.IsTuiWord (word : List Char) : Prop :=
  ∃ m, ofClass? (String.ofList word) = .ok (some m) ∧ m.needsTui = true

/-- A known attribute lists such a class. -/
def Attribute.ListsTuiWord (c : Config) (a : Attribute) : Prop :=
  ∃ v p word, a.name ∈ c.knownAttributes ∧ a.name = "class" ∧ a.value = .string v p
    ∧ word ∈ Text.words v.toList ∧ ClassMapping.IsTuiWord word

/-- An element of a file lists such a class. -/
def SourceFile.ListsTuiWord (c : Config) (f : SourceFile) : Prop :=
  ∃ way e cs, f.HasElement way e cs ∧ ∃ a ∈ e.attributes, a.ListsTuiWord c

/-- **The import paths that a file requires.** -/
inductive SourceFile.Requires (c : Config) (f : SourceFile) : String → Prop
  | component : f.components ≠ [] → Requires c f c.elementImport
  | layout : f.Mentions c "layout" → Requires c f c.layoutImport
  | tui : f.Mentions c "tui" → Requires c f c.tuiImport
  | classes : f.ListsTuiWord c → Requires c f c.tuiImport
  | state {comp : Component} :
      comp ∈ f.components → StateVar.ofComponent c comp ≠ [] → Requires c f c.tuiImport

/-! ## Mentions -/

namespace Text

theorem startsWith_iff {lead cs : List Char} : startsWith lead cs = true ↔ lead <+: cs := by
  induction lead generalizing cs with
  | nil => exact iff_of_true rfl List.nil_prefix
  | cons a lead ih =>
    cases cs with
    | nil => exact iff_of_false Bool.false_ne_true (by simp)
    | cons c cs =>
      rw [List.cons_prefix_cons, ← ih, startsWith, after?]
      by_cases heq : a = c
      · rw [if_pos heq]
        exact (and_iff_right heq).symm
      · rw [if_neg heq]
        exact iff_of_false Bool.false_ne_true fun h => heq h.1

theorem occursIn_iff {pattern cs : List Char} :
    occursIn pattern cs = true ↔ pattern <:+: cs := by
  induction cs with
  | nil => rw [occursIn, List.isEmpty_iff, List.infix_nil]
  | cons c rest ih =>
    rw [occursIn, Bool.or_eq_true, startsWith_iff, ih, List.infix_cons_iff]

end Text

theorem mentionsPackage_iff {package code : String} :
    mentionsPackage package code = true ↔ package.toList ++ ['.'] <:+: code.toList :=
  Text.occursIn_iff

theorem isAsciiWord_of_mem {name : String} (h : isSimpleIdentifier name = true) {x : Char}
    (hx : x ∈ name.toList) : isAsciiWord x = true := by
  rw [isSimpleIdentifier] at h
  split at h
  · cases h
  · next c rest hname =>
    rw [hname] at hx
    simp only [Bool.and_eq_true, Bool.or_eq_true, List.all_eq_true] at h
    rcases List.mem_cons.1 hx with rfl | hx
    · have halphanum : x.isAlphanum = true ∨ (x == '_') = true := by
        refine h.1.imp (fun halpha => ?_) id
        rw [Char.isAlphanum, halpha]
        rfl
      rwa [isAsciiWord, Bool.or_eq_true]
    · exact h.2 x hx

/-- A bare name mentions no package, since there is no point in it. -/
theorem mentionsPackage_of_reference {package : String} {e : GoExpr} {names : List String}
    {l : LetReference} (h : e.reference? names = some l) :
    mentionsPackage package e.code = false := by
  have hname : isSimpleIdentifier (Text.trim e.code) = true := by
    rw [GoExpr.reference?] at h
    split at h
    · next hboth => exact (Bool.and_eq_true_iff.1 hboth).1
    · cases h
  rw [Bool.eq_false_iff]
  intro hmentions
  have hpoint : '.' ∈ e.code.toList :=
    (mentionsPackage_iff.1 hmentions).subset (List.mem_append_right _ (List.mem_singleton_self _))
  -- what is around the name is blank, and what is in it is no point
  obtain ⟨behind, hcode, hbehind⟩ := Text.exists_trimList e.code.toList
  rw [hcode, List.mem_append, List.mem_append] at hpoint
  rcases hpoint with hfront | hword | hback
  · exact absurd (List.mem_takeWhile_imp hfront) (by decide)
  · refine absurd (isAsciiWord_of_mem hname (x := '.') ?_) (by decide)
    rwa [Text.trim, String.toList_ofList]
  · exact absurd (hbehind _ hback) (by decide)

/-! ## The walk that looks for packages -/

section
variable {c : Config} {f : SourceFile} {package : String}

/-- Linking hides no mention of a package. -/
theorem Site.any_goFragments_link (names : List String) (s : Site) :
    ((s.link names).goFragments c).any (mentionsPackage package)
      = (s.goFragments c).any (mentionsPackage package) := by
  obtain ⟨n, l, k⟩ := s
  cases n with
  | expression e =>
    cases hreference : e.reference? names with
    | none => simp only [Site.link, Node.link, hreference]
    | some r =>
      simp only [Site.link, Node.link, hreference, Site.goFragments, List.any_nil, List.any_cons,
        mentionsPackage_of_reference hreference, Bool.or_false]
  | element | letBinding | forLoop | conditional | call | slot | letReference | text | goCode =>
    rfl

/-- The Go text in the attributes of an element is that of its known ones. -/
theorem ElementHead.mem_goFragments_iff {e : ElementHead} {code : String} :
    code ∈ e.goFragments c ↔ ∃ a ∈ e.attributes, ∃ g, a.value = .expression g
      ∧ c.isKnownAttribute a.name = true ∧ g.code = code := by
  rw [goFragments, List.mem_filterMap]
  refine exists_congr fun a => and_congr_right fun _ => ?_
  cases hvalue : a.value with
  | expression g => simp
  | string | int | float | bool => simp

/-- The Go text at a node where the analysis looks. -/
def Node.goFragments (c : Config) (n : Node) : List String :=
  Site.goFragments c ⟨n, false, false⟩

/-- **The Go text at the nodes of a file** is what it keeps where the analysis
looks. -/
theorem SourceFile.exists_goFragments_iff {P : String → Prop} :
    (∃ way n, f.at? way = some n ∧ ∃ code ∈ n.goFragments c, P code)
      ↔ ∃ place code, f.Keeps place code ∧ place.isSearched c = true ∧ P code := by
  constructor
  · rintro ⟨way, n, hway, code, hcode, hP⟩
    have helement : ∀ {e : ElementHead} {cs : List Node}, f.HasElement way e cs →
        code ∈ e.goFragments c →
        ∃ place code, f.Keeps place code ∧ place.isSearched c = true ∧ P code := by
      intro e cs he hcode
      obtain ⟨a, ha, g, hvalue, hknown, rfl⟩ := ElementHead.mem_goFragments_iff.1 hcode
      exact ⟨_, _, .attributeValue he ha hvalue, hknown, hP⟩
    cases n with
    | element e cs => exact helement (.inl hway) hcode
    | letBinding h e cs => exact helement (.inr ⟨h, hway⟩) hcode
    | forLoop h b =>
      obtain rfl := List.mem_singleton.1 hcode
      exact ⟨_, _, .iterable hway, rfl, hP⟩
    | conditional h t e =>
      obtain rfl := List.mem_singleton.1 hcode
      exact ⟨_, _, .condition hway, rfl, hP⟩
    | call h cs =>
      obtain rfl := List.mem_singleton.1 hcode
      exact ⟨_, _, .arguments hway, rfl, hP⟩
    | expression e =>
      obtain rfl := List.mem_singleton.1 hcode
      exact ⟨_, _, .expression hway, rfl, hP⟩
    | goCode g =>
      obtain rfl := List.mem_singleton.1 hcode
      exact ⟨_, _, .statement hway, rfl, hP⟩
    | slot | letReference | text => cases hcode
  · rintro ⟨place, code, hkeeps, hsearched, hP⟩
    cases hkeeps with
    | parameterType | key => cases hsearched
    | attributeValue he ha hvalue =>
      have hcode := ElementHead.mem_goFragments_iff.2 ⟨_, ha, _, hvalue, hsearched, rfl⟩
      rcases he with hn | ⟨h, hn⟩
      · exact ⟨_, _, hn, _, hcode, hP⟩
      · exact ⟨_, _, hn, _, hcode, hP⟩
    | statement hn | expression hn | condition hn | iterable hn | arguments hn =>
      exact ⟨_, _, hn, _, List.mem_singleton_self _, hP⟩

/-- **Where the analysis finds a package**, the file mentions it. -/
theorem SourceFile.any_fragments_prepare :
    ((f.prepare.components.flatMap Component.sites).flatMap (Site.goFragments c)).any
      (mentionsPackage package) = true ↔ f.Mentions c package := by
  have hlinked : ((f.prepare.components.flatMap Component.sites).flatMap (Site.goFragments c)).any
        (mentionsPackage package)
      = (f.components.flatMap Component.sites).any fun s =>
          (s.goFragments c).any (mentionsPackage package) := by
    rw [Validation.flatMap_sites_prepare, List.any_flatMap, List.any_map]
    exact congrArg (List.any _) (funext fun s => Site.any_goFragments_link f.letNames s)
  rw [hlinked, List.any_eq_true]
  simp only [List.any_eq_true, mentionsPackage_iff]
  exact exists_site_iff.trans exists_goFragments_iff

end

/-! ## Classes that need the `tui` package -/

theorem ClassList.needsTui_add (l : ClassList) (m : ClassMapping) :
    (l.add m).needsTui = (l.needsTui || m.needsTui) := by
  rw [add]
  cases m.effect <;> rfl

/-- Adding words to a class list: it needs the package if it did before, or if one
of the words does. -/
theorem ClassList.needsTui_foldlM {step : ClassList → List Char → Except NumberError ClassList}
    (hstep : ∀ l word, step l word
      = (ClassMapping.ofClass? (String.ofList word)).map fun m => m.elim l l.add)
    {words : List (List Char)} {start l : ClassList} (h : words.foldlM step start = .ok l) :
    l.needsTui = true ↔ start.needsTui = true ∨ ∃ word ∈ words, ClassMapping.IsTuiWord word := by
  induction words generalizing start with
  | nil =>
    cases h
    simp
  | cons word words ih =>
    rw [List.foldlM_cons, hstep] at h
    cases hclass : ClassMapping.ofClass? (String.ofList word) with
    | error e => rw [hclass] at h; cases h
    | ok m =>
      have hword : ClassMapping.IsTuiWord word ↔ ∃ m', m = some m' ∧ m'.needsTui = true := by
        rw [ClassMapping.IsTuiWord, hclass]
        simp
      rw [hclass] at h
      cases m with
      | none =>
        have hrest : l.needsTui = true
            ↔ start.needsTui = true ∨ ∃ word ∈ words, ClassMapping.IsTuiWord word := ih h
        rw [hrest]
        simp [hword]
      | some m =>
        have hrest : l.needsTui = true ↔ (start.add m).needsTui = true
            ∨ ∃ word ∈ words, ClassMapping.IsTuiWord word := ih h
        rw [hrest, needsTui_add]
        simp [hword, or_assoc]

/-- **A class list needs the package** if one of its words does. -/
theorem ClassList.needsTui_iff {v : String} {l : ClassList} (h : ofText v = .ok l) :
    l.needsTui = true ↔ ∃ word ∈ Text.words v.toList, ClassMapping.IsTuiWord word := by
  rw [needsTui_foldlM (fun l word => ?_) h]
  · simp
  · cases ClassMapping.ofClass? (String.ofList word) with
    | error e => rfl
    | ok m => cases m <;> rfl

namespace Validation

variable {r : Rules} {c : Config} {f : SourceFile}

theorem attributeFindings_needsTui {a : Attribute} {found : List Diagnostic × Bool}
    (h : attributeFindings r a = .ok found) : found.2 = true ↔ a.ListsTuiWord r.config := by
  rcases attributeFindings_cases h with
    ⟨hunknown, rfl⟩ | ⟨-, hclasses, rfl⟩ | ⟨v, l, ds, -, hclasses, htranslated, -, rfl⟩
  · refine iff_of_false Bool.false_ne_true ?_
    rintro ⟨v, p, -, hknown, -⟩
    exact hunknown (List.contains_iff_mem.2 hknown)
  · refine iff_of_false Bool.false_ne_true ?_
    rintro ⟨v, p, -, hknown, hname, hvalue, -⟩
    rw [classText?_eq_some_iff.2 ⟨hknown, hname, p, hvalue⟩] at hclasses
    cases hclasses
  · obtain ⟨hknown, hname, p, hvalue⟩ := classText?_eq_some_iff.1 hclasses
    refine (ClassList.needsTui_iff htranslated).trans ⟨?_, ?_⟩
    · rintro ⟨word, hword, htui⟩
      exact ⟨v, p, word, hknown, hname, hvalue, hword, htui⟩
    · rintro ⟨v', p', word, -, -, hvalue', hword, htui⟩
      rw [hvalue, AttributeValue.string.injEq] at hvalue'
      exact ⟨word, hvalue'.1 ▸ hword, htui⟩

theorem elementFindings_needsTui {e : ElementHead} {cs : List Node}
    {found : List Diagnostic × Bool} (h : elementFindings r e cs = .ok found) :
    found.2 = true ↔ ∃ a ∈ e.attributes, a.ListsTuiWord r.config := by
  obtain ⟨attributes, hattributes, rfl⟩ := exists_of_elementFindings h
  show attributes.any (·.2) = true ↔ _
  classical
  have heach : attributes.map (·.2)
      = e.attributes.map fun a => decide (a.ListsTuiWord r.config) :=
    map_of_mapM hattributes fun a found hfound => by
      rw [Bool.eq_iff_iff, decide_eq_true_iff]
      exact attributeFindings_needsTui hfound
  have hany : attributes.any (·.2) = (attributes.map (·.2)).any id := by rw [List.any_map]; rfl
  rw [hany, heach, List.any_map, List.any_eq_true]
  simp only [Function.comp_apply, id_eq, decide_eq_true_eq]

theorem siteFindings_needsTui {s : Site} {found : List Diagnostic × Bool}
    (h : siteFindings r s = .ok found) :
    found.2 = true ↔ ∃ e, s.head? = some e ∧ ∃ a ∈ e.attributes, a.ListsTuiWord r.config := by
  obtain ⟨n, l, k⟩ := s
  cases n with
  | element e cs | letBinding _ e cs =>
    rw [elementFindings_needsTui h]
    simp [Site.head?]
  | call | forLoop | conditional | slot | expression | letReference | text | goCode =>
    cases h
    simp [Site.head?]

/-- **Where the checks find that classes need the package**, the file lists such a
class. -/
theorem any_findings_iff (h : Checks (Analysis.rulesOf c f) f.prepare.components) :
    ((f.prepare.components.flatMap Component.sites).any fun s =>
      (findingsAt (Analysis.rulesOf c f) s).2) = true ↔ f.ListsTuiWord c := by
  have hfound : ∀ s ∈ f.prepare.components.flatMap Component.sites,
      ((findingsAt (Analysis.rulesOf c f) s).2 = true
        ↔ ∃ e, s.head? = some e ∧ ∃ a ∈ e.attributes, a.ListsTuiWord c) := by
    intro s hs
    obtain ⟨found, hfound⟩ := h s hs
    rw [findingsAt, hfound]
    exact siteFindings_needsTui hfound
  have hlinked : ∀ s : Site, (s.link f.letNames).head? = s.head? := by
    rintro ⟨n, l, k⟩
    cases n with
    | expression e =>
      cases hreference : e.reference? f.letNames <;>
        simp only [Site.link, Node.link, Site.head?, hreference]
    | element | letBinding | forLoop | conditional | call | slot | letReference | text | goCode =>
      rfl
  rw [List.any_eq_true]
  rw [flatMap_sites_prepare] at hfound ⊢
  simp only [List.mem_map, forall_exists_index, and_imp, forall_apply_eq_imp_iff₂, hlinked]
    at hfound
  have hsites : (∃ s ∈ f.components.flatMap Component.sites,
        ∃ e, s.head? = some e ∧ ∃ a ∈ e.attributes, a.ListsTuiWord c) ↔ f.ListsTuiWord c := by
    refine (SourceFile.exists_site_iff (P := fun n => ∃ e, Site.head? ⟨n, false, false⟩ = some e
      ∧ ∃ a ∈ e.attributes, a.ListsTuiWord c)).trans ?_
    constructor
    · rintro ⟨way, n, hn, e, he, hlists⟩
      cases n with
      | element e' cs =>
        cases he
        exact ⟨way, e, cs, .inl hn, hlists⟩
      | letBinding h e' cs =>
        cases he
        exact ⟨way, e, cs, .inr ⟨h, hn⟩, hlists⟩
      | call | forLoop | conditional | slot | expression | letReference | text | goCode => cases he
    · rintro ⟨way, e, cs, hn | ⟨h, hn⟩, hlists⟩
      · exact ⟨way, _, hn, e, rfl, hlists⟩
      · exact ⟨way, _, hn, e, rfl, hlists⟩
  rw [← hsites]
  constructor
  · rintro ⟨_, hlinkedSite, hneeds⟩
    obtain ⟨s, hs, rfl⟩ := List.mem_map.1 hlinkedSite
    exact ⟨s, hs, (hfound s hs).1 hneeds⟩
  · rintro ⟨s, hs, hlists⟩
    exact ⟨_, List.mem_map_of_mem hs, (hfound s hs).2 hlists⟩

end Validation

/-! ## What is required and what is added -/

/-- Linking leaves the state variables of a component as they are. -/
theorem StateVar.ofComponent_link (c : Config) (names : List String) (comp : Component) :
    ofComponent c (comp.marked.link names) = ofComponent c comp := by
  have hstatements : (Node.linkAll names comp.body).filterMap Node.statement?
      = comp.body.filterMap Node.statement? := by
    rw [Node.linkAll_eq_map, List.filterMap_map]
    refine congrArg (List.filterMap · comp.body) (funext fun n => ?_)
    cases n with
    | expression e =>
      cases hreference : e.reference? names <;>
        simp only [Function.comp_apply, Node.link, Node.statement?, hreference]
    | element | letBinding | forLoop | conditional | call | slot | letReference | text | goCode =>
      rfl
  show _ ++ ((Node.linkAll names comp.body).filterMap Node.statement?).flatMap _ = _
  rw [hstatements]
  rfl

theorem PackageUse.mem_paths_iff {c : Config} {u : PackageUse} {path : String} :
    path ∈ u.paths c ↔ u.element = true ∧ path = c.elementImport
      ∨ u.layout = true ∧ path = c.layoutImport ∨ u.tui = true ∧ path = c.tuiImport := by
  have hone : ∀ {b : Bool} {p : String}, path ∈ (if b then [p] else []) ↔ b = true ∧ path = p := by
    intro b p
    cases b <;> simp
  rw [paths, List.mem_append, List.mem_append, hone, hone, hone, or_assoc]

/-- The packages that the analysis of a file says it uses. -/
theorem Analysis.uses_of_ofFile {c : Config} {f : SourceFile} {a : Analysis}
    (h : ofFile c f = .ok a) : a.uses = packageUse c f.prepare
      ((f.prepare.components.flatMap Component.sites).any fun s =>
        (Validation.findingsAt (rulesOf c f) s).2) := by
  have hfound := Validation.componentFindings_eq (checks_of_ofFile h)
  simp only [ofFile] at h
  simp only [rulesOf] at hfound
  rw [hfound] at h
  cases h
  rfl

/-- **What the analysis finds that a file requires** is what the file requires. -/
theorem Analysis.mem_paths_iff {c : Config} {f : SourceFile} {a : Analysis}
    (h : ofFile c f = .ok a) {path : String} : path ∈ a.uses.paths c ↔ f.Requires c path := by
  have hcomponent : (!f.prepare.components.isEmpty) = true ↔ f.components ≠ [] := by
    rw [SourceFile.prepare_components, List.isEmpty_map, Bool.not_eq_true', List.isEmpty_eq_false_iff]
  have hstate : (f.prepare.components.any fun comp => !(StateVar.ofComponent c comp).isEmpty) = true
      ↔ ∃ comp ∈ f.components, StateVar.ofComponent c comp ≠ [] := by
    rw [SourceFile.prepare_components, List.any_map, List.any_eq_true]
    simp only [Function.comp_apply, StateVar.ofComponent_link, Bool.not_eq_true',
      List.isEmpty_eq_false_iff]
  rw [uses_of_ofFile h, PackageUse.mem_paths_iff]
  simp only [packageUse, SourceFile.mentionedPackages, Bool.or_eq_true, hcomponent, hstate,
    SourceFile.any_fragments_prepare, Validation.any_findings_iff (checks_of_ofFile h)]
  constructor
  · rintro (⟨hne, rfl⟩ | ⟨hlayout, rfl⟩ | ⟨(htui | hclass) | ⟨comp, hcomp, hvars⟩, rfl⟩)
    · exact .component hne
    · exact .layout hlayout
    · exact .tui htui
    · exact .classes hclass
    · exact .state hcomp hvars
  · intro hrequires
    cases hrequires with
    | component hne => exact .inl ⟨hne, rfl⟩
    | layout hlayout => exact .inr (.inl ⟨hlayout, rfl⟩)
    | tui htui => exact .inr (.inr ⟨.inl (.inl htui), rfl⟩)
    | classes hclass => exact .inr (.inr ⟨.inl (.inr hclass), rfl⟩)
    | state hcomp hvars => exact .inr (.inr ⟨.inr ⟨_, hcomp, hvars⟩, rfl⟩)

/-- **A file gets the imports that it requires and lacks**, each once, behind those
that it has. It requires the element package for a component, and the two others
where it mentions them, lists a class that needs one, or has state. -/
theorem Analysis.imports_exact (c : Config) (f : SourceFile) :
    match ofFile c f with
    | .ok a => ∃ added : List String,
        a.file.imports.map (·.path) = f.imports.map (·.path) ++ added
        ∧ added.Nodup
        ∧ ∀ path, path ∈ added ↔ f.Requires c path ∧ path ∉ f.imports.map (·.path)
    | .error e => Validation.Obstructed c f e := by
  cases h : ofFile c f with
  | error e => exact Validation.obstructed_of_ofFile h
  | ok a =>
    refine ⟨PackageUse.missing (f.imports.map (·.path)) (a.uses.paths c), ?_, ?_, fun path => ?_⟩
    · rw [file_of_ofFile h, SourceFile.paths_withImports]
      rfl
    · rw [PackageUse.missing_eq]
      exact nodup_firstOccurrences _
    · rw [PackageUse.missing_eq, mem_firstOccurrences, List.mem_filter, mem_paths_iff h]
      simp

end Gsx
