import Mathlib.Data.List.Perm.Basic
import Gsx.Proofs.Numerals
import Gsx.Proofs.Reanalysis
/-!
# Components on their own

The components of a file share two tables while the file is analysed: the names
that `@let` binds anywhere in it, and which components accept children. This
module follows both. A component asks the first only for the names that it uses
as bare expressions, and the second only decides which calls are errors. So a
component that uses no binding of another one has in its file the tables that
it has alone, and the order of the components shows in nothing but the order of
what is found.
-/

namespace Gsx

/-! ## Bare names -/

/-- The name that an expression is, if it is nothing but a name. -/
def GoExpr.bareName? (e : GoExpr) : Option String :=
  let code := Text.trim e.code
  if isSimpleIdentifier code then some code else none

/-- The bare name at a site, if an expression stands there that is one. -/
def Site.bareName? (s : Site) : Option String :=
  match s.node with
  | .expression e => e.bareName?
  | _ => none

/-- The bare names among some sites. -/
def Site.bareNames (sites : List Site) : List String :=
  sites.filterMap Site.bareName?

/-- The bare names `{name}` in the body of a component. -/
def Component.bareNames (c : Component) : List String :=
  Site.bareNames c.sites

/-- Whether two lists of names agree on the names of a third one. -/
def AgreeOn (used names names' : List String) : Prop :=
  ∀ name ∈ used, name ∈ names ↔ name ∈ names'

theorem AgreeOn.mono {used more names names' : List String} (h : AgreeOn more names names')
    (hsub : used ⊆ more) : AgreeOn used names names' :=
  fun name hname => h name (hsub hname)

/-- An expression asks for the name that it is. -/
theorem GoExpr.reference?_congr {names names' : List String} {e : GoExpr}
    (h : ∀ name, e.bareName? = some name → (name ∈ names ↔ name ∈ names')) :
    e.reference? names = e.reference? names' := by
  simp only [reference?]
  by_cases hid : isSimpleIdentifier (Text.trim e.code)
  · have hmem := h (Text.trim e.code) (by simp [bareName?, hid])
    simp [hid, hmem]
  · simp [hid]

theorem Site.bareNames_cons_of_none {s : Site} (h : s.bareName? = none) (sites : List Site) :
    Site.bareNames (s :: sites) = Site.bareNames sites :=
  List.filterMap_cons_none h

theorem Site.bareNames_append (sites more : List Site) :
    Site.bareNames (sites ++ more) = Site.bareNames sites ++ Site.bareNames more :=
  List.filterMap_append

section
variable {names names' : List String}

mutual

/-- **A node asks only for its bare names**: where two lists of bound names
agree on these, they link the node alike. -/
theorem Node.link_congr (l c : Bool) :
    ∀ n : Node, AgreeOn (Site.bareNames (n.sites l c)) names names' →
      n.link names = n.link names'
  | .element h cs, hagree => by
    rw [Node.sites, Site.bareNames_cons_of_none rfl] at hagree
    rw [Node.link, Node.link, Node.linkAll_congr l c cs hagree]
  | .letBinding h e cs, hagree => by
    rw [Node.sites, Site.bareNames_cons_of_none rfl] at hagree
    rw [Node.link, Node.link, Node.linkAll_congr l c cs hagree]
  | .forLoop h b, hagree => by
    rw [Node.sites, Site.bareNames_cons_of_none rfl] at hagree
    rw [Node.link, Node.link, Node.linkAll_congr true c b hagree]
  | .conditional h t e, hagree => by
    rw [Node.sites, Site.bareNames_cons_of_none rfl, Site.bareNames_append] at hagree
    rw [Node.link, Node.link,
      Node.linkAll_congr l true t (hagree.mono (List.subset_append_left _ _)),
      Node.linkAll_congr l true e (hagree.mono (List.subset_append_right _ _))]
  | .call h cs, hagree => by
    rw [Node.sites, Site.bareNames_cons_of_none rfl] at hagree
    rw [Node.link, Node.link, Node.linkAll_congr l c cs hagree]
  | .expression e, hagree => by
    have href : e.reference? names = e.reference? names' :=
      GoExpr.reference?_congr fun name hname =>
        hagree name (List.mem_filterMap.2 ⟨_, List.mem_singleton_self _, hname⟩)
    rw [Node.link, Node.link, href]
  | .slot _, _ | .letReference _, _ | .text _, _ | .goCode _, _ => rfl

/-- And so does a body. -/
theorem Node.linkAll_congr (l c : Bool) :
    ∀ ns : List Node, AgreeOn (Site.bareNames (Node.sitesOf l c ns)) names names' →
      Node.linkAll names ns = Node.linkAll names' ns
  | [], _ => rfl
  | n :: ns, hagree => by
    rw [Node.sitesOf, Site.bareNames_append] at hagree
    rw [Node.linkAll, Node.linkAll,
      Node.link_congr l c n (hagree.mono (List.subset_append_left _ _)),
      Node.linkAll_congr l c ns (hagree.mono (List.subset_append_right _ _))]

end

theorem Component.link_congr {comp : Component} (h : AgreeOn comp.bareNames names names') :
    comp.marked.link names = comp.marked.link names' :=
  congrArg (fun body => { comp.marked with body := body })
    (Node.linkAll_congr false false comp.body h)

end

/-- A file with other components. -/
def SourceFile.withComponents (f : SourceFile) (comps : List Component) : SourceFile :=
  { f with components := comps }

theorem SourceFile.mem_letNames {f : SourceFile} {name : String} :
    name ∈ f.letNames ↔ ∃ comp ∈ f.components, ∃ h ∈ comp.lets, h.name = name := by
  simp only [letNames, mem_firstOccurrences, List.mem_flatMap, List.mem_map]

/-! ## Which components accept children -/

namespace ComponentIndex

/-- **Of components of different names** each one counts. -/
theorem accepts?_eq_some_iff {i : ComponentIndex} (h : (i.entries.map (·.1)).Nodup)
    {name : String} {accepts : Bool} :
    i.accepts? name = some accepts ↔ (name, accepts) ∈ i.entries := by
  rw [accepts?, List.lookup_eq_some_iff]
  constructor
  · rintro ⟨later, earlier, hsplit, -⟩
    rw [← List.mem_reverse, hsplit]
    exact List.mem_append_right _ List.mem_cons_self
  · intro hmem
    obtain ⟨later, earlier, hsplit⟩ := List.append_of_mem (List.mem_reverse.2 hmem)
    refine ⟨later, earlier, hsplit, fun e he => ?_⟩
    -- an entry of the same name on the left would be one of two
    have hnodup : ((later ++ (name, accepts) :: earlier).map (·.1)).Nodup := by
      rw [← hsplit, List.map_reverse]
      exact (List.reverse_perm _).nodup_iff.2 h
    rw [List.map_append, List.nodup_append] at hnodup
    exact bne_iff_ne.2
      (hnodup.2.2 e.1 (List.mem_map_of_mem he) name (by simp)).symm

/-- It does not matter in which order they stand. -/
theorem accepts?_perm {i j : ComponentIndex} (hperm : i.entries.Perm j.entries)
    (h : (i.entries.map (·.1)).Nodup) (name : String) : i.accepts? name = j.accepts? name := by
  have hj : (j.entries.map (·.1)).Nodup := (hperm.map _).nodup_iff.1 h
  ext accepts
  rw [accepts?_eq_some_iff h, accepts?_eq_some_iff hj, hperm.mem_iff]

end ComponentIndex

/-! ## Findings, site by site -/

namespace Validation

/-- The rules with another index of components. -/
def Rules.withIndex (r : Rules) (i : ComponentIndex) : Rules :=
  { r with index := i }

/-- What is found at a site, nothing where a number cannot be computed. -/
def findingsAt (r : Rules) (s : Site) : List Diagnostic × Bool :=
  match siteFindings r s with
  | .ok found => found
  | .error _ => ([], false)

/-- What is found in a class list that can be checked. -/
theorem classErrors_cases {r : Rules} {start : Position} {classes : String} {ds : List Diagnostic}
    (h : classErrors r start classes = .ok ds) :
    (r.config.validateClasses = true ∧ ∃ placed, PlacedClass.ofText classes 0 = .ok placed
        ∧ ds = (placed.filter fun c => !c.check.valid).map (classError r start))
      ∨ ¬r.config.validateClasses = true ∧ ds = [] := by
  rw [classErrors] at h
  split at h
  · next hvalidate =>
    obtain ⟨placed, hplaced, hds⟩ := bind_eq_ok_iff.1 h
    exact .inl ⟨hvalidate, placed, hplaced, (Except.ok.inj hds).symm⟩
  · next hvalidate => exact .inr ⟨hvalidate, (Except.ok.inj h).symm⟩

/-- What is found at an attribute that can be checked: it is not known, or lists no
classes, or lists some. -/
theorem attributeFindings_cases {r : Rules} {a : Attribute} {found : List Diagnostic × Bool}
    (h : attributeFindings r a = .ok found) :
    (¬r.config.isKnownAttribute a.name = true ∧ found = ([attributeError r a], false))
      ∨ (r.config.isKnownAttribute a.name = true ∧ classText? r.config a = none
        ∧ found = ([], false))
      ∨ ∃ classes translated errors, r.config.isKnownAttribute a.name = true
        ∧ classText? r.config a = some classes ∧ ClassList.ofText classes = .ok translated
        ∧ classErrors r a.valuePosition classes = .ok errors
        ∧ found = (errors, translated.needsTui) := by
  rw [attributeFindings] at h
  split at h
  · next hknown =>
    split at h
    · next classes hclasses =>
      obtain ⟨translated, htranslated, h⟩ := bind_eq_ok_iff.1 h
      obtain ⟨errors, herrors, h⟩ := bind_eq_ok_iff.1 h
      exact .inr (.inr ⟨classes, translated, errors, hknown, hclasses, htranslated, herrors,
        (Except.ok.inj h).symm⟩)
    · next hclasses => exact .inr (.inl ⟨hknown, hclasses, (Except.ok.inj h).symm⟩)
  · next hunknown => exact .inl ⟨hunknown, (Except.ok.inj h).symm⟩

/-- What is found at an element that can be checked. -/
theorem exists_of_elementFindings {r : Rules} {e : ElementHead} {cs : List Node}
    {found : List Diagnostic × Bool} (h : elementFindings r e cs = .ok found) :
    ∃ each, e.attributes.mapM (attributeFindings r) = .ok each
      ∧ found = (tagErrors r e cs ++ each.flatMap (·.1), each.any (·.2)) := by
  obtain ⟨each, heach, h⟩ := bind_eq_ok_iff.1 h
  exact ⟨each, heach, (Except.ok.inj h).symm⟩

/-- Whether all sites of some components can be checked. -/
def Checks (r : Rules) (cs : List Component) : Prop :=
  ∀ s ∈ cs.flatMap Component.sites, ∃ found, siteFindings r s = .ok found

variable {r : Rules} {cs : List Component}

/-- **The findings of components that can be checked** are those of their
sites. -/
theorem componentFindings_eq (h : Checks r cs) :
    componentFindings r cs = .ok
      ((cs.flatMap Component.sites).flatMap fun s => (findingsAt r s).1,
        (cs.flatMap Component.sites).any fun s => (findingsAt r s).2) := by
  have hwalk : (cs.flatMap Component.sites).mapM (siteFindings r)
      = .ok ((cs.flatMap Component.sites).map (findingsAt r)) := by
    refine mapM_eq_map fun s hs => ?_
    obtain ⟨found, hfound⟩ := h s hs
    rw [findingsAt, hfound]
  rw [componentFindings, hwalk]
  exact congrArg Except.ok (Prod.ext (List.flatMap_map _ _ _) List.any_map)

theorem checks_of_componentFindings {found : List Diagnostic × Bool}
    (h : componentFindings r cs = .ok found) : Checks r cs := by
  obtain ⟨ys, hwalk, -⟩ := bind_eq_ok_iff.1 h
  exact ok_of_mapM hwalk

/-- **The index decides nothing but which calls are errors**: whether a site
can be checked does not depend on it. -/
theorem ok_withIndex {s : Site} {found : List Diagnostic × Bool}
    (h : siteFindings r s = .ok found) (i : ComponentIndex) :
    ∃ found, siteFindings (r.withIndex i) s = .ok found := by
  obtain ⟨node, inLoop, inConditional⟩ := s
  cases node with
  | element | letBinding => exact ⟨found, h⟩
  | call | forLoop | conditional | slot | expression | letReference | text | goCode =>
    exact ⟨_, rfl⟩

/-- What is found at a site is read off the answers of the index. -/
theorem siteFindings_withIndex {i : ComponentIndex}
    (h : ∀ name, r.index.accepts? name = i.accepts? name) (s : Site) :
    siteFindings (r.withIndex i) s = siteFindings r s := by
  obtain ⟨node, inLoop, inConditional⟩ := s
  cases node with
  | call head children =>
    simp only [siteFindings, callErrors, Rules.withIndex, h]
    rfl
  | element | letBinding | forLoop | conditional | slot | expression | letReference | text
  | goCode => rfl

end Validation

/-! ## The analysis of a file that can be checked -/

namespace Analysis

open Validation

/-- The rules that a file is checked by. -/
def rulesOf (c : Config) (f : SourceFile) : Rules :=
  ⟨c, ComponentIndex.ofFile f.prepare, f.prepare.name⟩

/-- The diagnostics of a file that can be checked, kind by kind. -/
def diagnosticsOf (c : Config) (f : SourceFile) : List Diagnostic :=
  f.prepare.components.flatMap (Component.repeatedLets f.name)
    ++ f.prepare.components.flatMap (fun comp => (NamedRef.ofBody f.name comp.body).diagnostics)
    ++ ((f.prepare.components.flatMap Component.sites).flatMap fun s =>
        (findingsAt (rulesOf c f) s).1)
    ++ f.prepare.components.flatMap (Component.depsDiagnostics c f.name)

variable {c : Config} {f : SourceFile}

theorem checks_of_ofFile {a : Analysis} (h : ofFile c f = .ok a) :
    Checks (rulesOf c f) f.prepare.components := by
  obtain ⟨found, hfound, -⟩ := bind_eq_ok_iff.1 h
  exact checks_of_componentFindings hfound

/-- **A file that can be checked is analysed.** -/
theorem ofFile_of_checks (h : Checks (rulesOf c f) f.prepare.components) :
    ∃ a, ofFile c f = .ok a
      ∧ a.diagnostics = diagnosticsOf c f
      ∧ a.components = f.components.map fun comp =>
          (comp.marked.link f.letNames).tables c f.name := by
  have hfound := componentFindings_eq h
  simp only [rulesOf] at hfound
  simp only [ofFile, hfound]
  refine ⟨_, rfl, rfl, ?_⟩
  simp only [SourceFile.prepare_components, List.map_map]
  rfl

theorem ofFile_inv {a : Analysis} (h : ofFile c f = .ok a) :
    a.diagnostics = diagnosticsOf c f
      ∧ a.components = f.components.map fun comp =>
          (comp.marked.link f.letNames).tables c f.name := by
  obtain ⟨a', ha', hdiagnostics, hcomponents⟩ := ofFile_of_checks (checks_of_ofFile h)
  obtain rfl : a = a' := Except.ok.inj (h.symm.trans ha')
  exact ⟨hdiagnostics, hcomponents⟩

/-! ## Other components in the same file -/

/-- **Other components are checked as well** as those of the file, if they are
components of it and bind the names that they did there. -/
theorem checks_withComponents {comps : List Component} (hsub : comps ⊆ f.components)
    (hlinked : ∀ comp ∈ comps, comp.marked.link (f.withComponents comps).letNames
      = comp.marked.link f.letNames)
    (h : Checks (rulesOf c f) f.prepare.components) :
    Checks (rulesOf c (f.withComponents comps)) (f.withComponents comps).prepare.components := by
  intro s hs
  obtain ⟨prepared, hprepared, hsite⟩ := List.mem_flatMap.1 hs
  rw [SourceFile.prepare_components] at hprepared
  obtain ⟨comp, hcomp, rfl⟩ := List.mem_map.1 hprepared
  rw [hlinked comp hcomp] at hsite
  have hmem : s ∈ f.prepare.components.flatMap Component.sites := by
    rw [SourceFile.prepare_components]
    exact List.mem_flatMap.2 ⟨_, List.mem_map_of_mem (hsub hcomp), hsite⟩
  obtain ⟨found, hfound⟩ := h s hmem
  exact ok_withIndex hfound (ComponentIndex.ofFile (f.withComponents comps).prepare)

/-- **A component alone.** -/
theorem ofFile_alone {before after : List Component} {comp : Component}
    (hsplit : f.components = before ++ comp :: after)
    (hforeign : ∀ other ∈ before ++ after, ∀ h ∈ other.lets, h.name ∉ comp.bareNames)
    {a : Analysis} (ha : ofFile c f = .ok a) :
    ∃ alone, ofFile c (f.withComponents [comp]) = .ok alone
      ∧ ∃ tables, alone.components = [tables] ∧ a.components[before.length]? = some tables := by
  have hmem : comp ∈ f.components := hsplit ▸ List.mem_append_right _ List.mem_cons_self
  -- the names that the component asks for are bound by itself or not at all
  have hagree : AgreeOn comp.bareNames (f.withComponents [comp]).letNames f.letNames := by
    intro name hname
    rw [SourceFile.mem_letNames, SourceFile.mem_letNames]
    constructor
    · rintro ⟨other, hother, hbinds⟩
      obtain rfl := List.mem_singleton.1 hother
      exact ⟨other, hmem, hbinds⟩
    · rintro ⟨other, hother, h, hh, rfl⟩
      rw [hsplit] at hother
      rcases List.mem_append.1 hother with hbefore | hafter
      · exact absurd hname (hforeign other (List.mem_append_left _ hbefore) h hh)
      · rcases List.mem_cons.1 hafter with rfl | hafter
        · exact ⟨other, List.mem_singleton_self _, h, hh, rfl⟩
        · exact absurd hname (hforeign other (List.mem_append_right _ hafter) h hh)
  have hlinked := Component.link_congr hagree
  have hchecks : Checks (rulesOf c (f.withComponents [comp]))
      (f.withComponents [comp]).prepare.components :=
    checks_withComponents (fun _ h => List.mem_singleton.1 h ▸ hmem) (by simpa using hlinked)
      (checks_of_ofFile ha)
  obtain ⟨alone, halone, -, hcomponents⟩ := ofFile_of_checks hchecks
  refine ⟨alone, halone, (comp.marked.link f.letNames).tables c f.name, ?_, ?_⟩
  · rw [hcomponents, ← hlinked]
    rfl
  · rw [(ofFile_inv ha).2, hsplit]
    simp

/-- **The order of the components.** -/
theorem ofFile_perm {comps : List Component} (hperm : comps.Perm f.components)
    (hnames : (f.components.map (·.name)).Nodup) {a : Analysis} (ha : ofFile c f = .ok a) :
    ∃ a', ofFile c (f.withComponents comps) = .ok a'
      ∧ a'.diagnostics.Perm a.diagnostics
      ∧ ∃ tables : Component → ComponentTables,
          a.components = f.components.map tables ∧ a'.components = comps.map tables := by
  -- the components bind the same names, and so are linked alike
  have hlinked : ∀ comp : Component, comp.marked.link (f.withComponents comps).letNames
      = comp.marked.link f.letNames := fun comp => by
    refine Component.link_congr fun name _ => ?_
    rw [SourceFile.mem_letNames, SourceFile.mem_letNames]
    exact exists_congr fun other => and_congr_left' hperm.mem_iff
  have hprepared : (f.withComponents comps).prepare.components.Perm f.prepare.components := by
    simp only [SourceFile.prepare_components, hlinked]
    exact hperm.map _
  -- and the index gives the same answers
  have hindex : ∀ name, (rulesOf c f).index.accepts? name
      = (ComponentIndex.ofFile (f.withComponents comps).prepare).accepts? name := by
    refine fun name => ComponentIndex.accepts?_perm (hprepared.symm.map _) ?_ name
    simp only [SourceFile.prepare_components, List.map_map]
    exact hnames
  have hsite : ∀ s, findingsAt (rulesOf c (f.withComponents comps)) s
      = findingsAt (rulesOf c f) s := fun s => by
    have h := siteFindings_withIndex hindex s
    rw [findingsAt, findingsAt, ← h]
    rfl
  have hchecks := checks_withComponents (f := f) (c := c) hperm.subset (fun comp _ => hlinked comp)
    (checks_of_ofFile ha)
  obtain ⟨a', ha', hdiagnostics, hcomponents⟩ := ofFile_of_checks hchecks
  refine ⟨a', ha', ?_, fun comp => (comp.marked.link f.letNames).tables c f.name,
    (ofFile_inv ha).2, ?_⟩
  · rw [hdiagnostics, (ofFile_inv ha).1]
    simp only [diagnosticsOf, hsite]
    exact (((hprepared.flatMap_right _).append (hprepared.flatMap_right _)).append
      ((hprepared.flatMap_right _).flatMap_right _)).append (hprepared.flatMap_right _)
  · rw [hcomponents]
    simp only [hlinked]
    rfl

/-- **Components are isolated.** A component whose bare names are bound by no
other component of its file has there the tables that it has in a file of its
own. And if all components have different names, a file with the components in
another order has the same tables in that order, and the same diagnostics in
some order. -/
theorem component_isolation (c : Config) (f : SourceFile) (a : Analysis)
    (ha : ofFile c f = .ok a) :
    (∀ before comp after, f.components = before ++ comp :: after →
      (∀ other ∈ before ++ after, ∀ h ∈ other.lets, h.name ∉ comp.bareNames) →
      ∃ alone, ofFile c (f.withComponents [comp]) = .ok alone
        ∧ ∃ tables, alone.components = [tables] ∧ a.components[before.length]? = some tables)
    ∧ (∀ comps : List Component, comps.Perm f.components →
      (f.components.map (·.name)).Nodup →
      ∃ a', ofFile c (f.withComponents comps) = .ok a'
        ∧ a'.diagnostics.Perm a.diagnostics
        ∧ ∃ tables : Component → ComponentTables,
            a.components = f.components.map tables ∧ a'.components = comps.map tables) :=
  ⟨fun _ _ _ hsplit hforeign => ofFile_alone hsplit hforeign ha,
    fun _ hperm hnames => ofFile_perm hperm hnames ha⟩

/-! ### Two components in one file -/

/-- A component that binds `title` and shows it. -/
def titledPage : Component where
  name := "Page"
  params := []
  body := [
    .letBinding ⟨"title", ⟨4, 2⟩, none⟩
      ⟨"p", [], true, none, none, ⟨4, 15⟩, none, none, []⟩ [],
    .expression ⟨"title", ⟨5, 3⟩, none⟩]
  acceptsChildren := false
  position := ⟨3, 1⟩
  leading := none
  trailing := none
  orphans := []

/-- A component that shows its parameter. -/
def labelCard : Component where
  name := "Card"
  params := [⟨"label", "string", ⟨8, 17⟩⟩]
  body := [.expression ⟨" label ", ⟨9, 3⟩, none⟩]
  acceptsChildren := false
  position := ⟨8, 1⟩
  leading := none
  trailing := none
  orphans := []

/-- A file with the two of them. -/
def pageAndCard : SourceFile :=
  ⟨"views.gsx", "views", [], [], [titledPage, labelCard], [], ⟨1, 1⟩, none, []⟩

/-- The card does not see the binding of the page, and the two may trade
places. -/
theorem component_isolation_pageAndCard :
    ∃ a, ofFile .standard pageAndCard = .ok a
      ∧ labelCard.bareNames = ["label"] ∧ pageAndCard.letNames = ["title"]
      ∧ (∃ alone, ofFile .standard (pageAndCard.withComponents [labelCard]) = .ok alone
          ∧ ∃ tables, alone.components = [tables] ∧ a.components[1]? = some tables)
      ∧ ∃ a', ofFile .standard (pageAndCard.withComponents [labelCard, titledPage]) = .ok a'
          ∧ a'.diagnostics.Perm a.diagnostics := by
  have hbare : labelCard.bareNames = ["label"] := by decide +kernel
  obtain ⟨a, ha⟩ : ∃ a, ofFile .standard pageAndCard = .ok a := ⟨_, rfl⟩
  obtain ⟨halone, horder⟩ := component_isolation .standard pageAndCard a ha
  have hforeign : ∀ other ∈ [titledPage] ++ [], ∀ h ∈ other.lets, h.name ∉ labelCard.bareNames := by
    rw [hbare]
    decide
  obtain ⟨a', ha', hdiagnostics, -⟩ :=
    horder [labelCard, titledPage] (.swap titledPage labelCard []) (by decide)
  exact ⟨a, ha, hbare, by decide, halone [titledPage] labelCard [] rfl hforeign, a', ha',
    hdiagnostics⟩

end Analysis

end Gsx
