import Gsx.Proofs.Relinking
/-!
# Where references resolve

A reference resolves if its name is bound in front of it in the same component.
Linking does not ask for that: it makes a reference of every expression that is a
name bound anywhere in the file. So the references of a component resolve
exactly if each name of the file that the component shows is bound there first.
-/

namespace Gsx

namespace Component

/-- A component refers to a name at a site, by its number from the front. -/
def RefersAt (c : Component) (i : Nat) (name : String) : Prop :=
  ∃ s r, c.sites[i]? = some s ∧ s.letReference? = some r ∧ r.name = name

/-- A component has a bare name at a site. -/
def NamesAt (c : Component) (i : Nat) (name : String) : Prop :=
  ∃ s, c.sites[i]? = some s ∧ s.bareName? = some name

/-- A component binds a name in front of a site. -/
def BindsBefore (c : Component) (i : Nat) (name : String) : Prop :=
  ∃ j < i, ∃ s h, c.sites[j]? = some s ∧ s.let? = some h ∧ h.name = name

/-- All references of a component resolve. -/
def Resolves (c : Component) : Prop :=
  ∀ i name, c.RefersAt i name → c.BindsBefore i name

variable {names : List String}

/-- Linking moves no binding. -/
theorem bindsBefore_link {c : Component} {i : Nat} {name : String} :
    (c.link names).BindsBefore i name ↔ c.BindsBefore i name := by
  simp only [BindsBefore, sites_link, List.getElem?_map, Option.map_eq_some_iff]
  constructor
  · rintro ⟨j, hj, _, h, ⟨s, hs, rfl⟩, hlet, rfl⟩
    exact ⟨j, hj, s, h, hs, Site.let?_link names s ▸ hlet, rfl⟩
  · rintro ⟨j, hj, s, h, hs, hlet, rfl⟩
    exact ⟨j, hj, _, h, ⟨s, hs, rfl⟩, (Site.let?_link names s).trans hlet, rfl⟩

end Component

/-- **An expression becomes a reference** to the name that it is, if that is
bound. -/
theorem GoExpr.reference?_eq_some_iff {names : List String} {e : GoExpr} {name : String} :
    (∃ r, e.reference? names = some r ∧ r.name = name)
      ↔ e.bareName? = some name ∧ name ∈ names := by
  simp only [reference?, bareName?]
  by_cases hid : isSimpleIdentifier (Text.trim e.code)
  · by_cases hmem : Text.trim e.code ∈ names
    · simp only [hid, List.contains_iff_mem.2 hmem, Bool.and_self, if_true]
      constructor
      · rintro ⟨r, hr, rfl⟩
        cases hr
        exact ⟨rfl, hmem⟩
      · rintro ⟨hname, -⟩
        exact ⟨_, rfl, Option.some.inj hname⟩
    · have hnot : names.contains (Text.trim e.code) = false :=
        Bool.eq_false_iff.2 fun h => hmem (List.contains_iff_mem.1 h)
      simp only [hid, hnot, Bool.and_false, Bool.false_eq_true, if_false, if_true]
      constructor
      · rintro ⟨r, hr, -⟩
        cases hr
      · rintro ⟨hname, hin⟩
        exact absurd (Option.some.inj hname ▸ hin) hmem
  · simp [hid]

/-- What a linked site refers to, where there was no reference before. -/
theorem Site.letReference?_link {names : List String} {s : Site}
    (hfresh : s.letReference? = none) {name : String} :
    (∃ r, (s.link names).letReference? = some r ∧ r.name = name)
      ↔ s.bareName? = some name ∧ name ∈ names := by
  obtain ⟨n, l, c⟩ := s
  cases n with
  | expression e =>
    have hlinked : ((⟨.expression e, l, c⟩ : Site).link names).letReference?
        = e.reference? names := by
      rw [Site.link, Node.link, Site.letReference?]
      cases e.reference? names <;> rfl
    rw [hlinked]
    exact GoExpr.reference?_eq_some_iff
  | letReference r => cases hfresh
  | element | letBinding | forLoop | conditional | call | slot | text | goCode =>
    constructor
    · rintro ⟨r, hr, -⟩
      cases hr
    · rintro ⟨hbare, -⟩
      cases hbare

/-- A component that is linked refers to the names that it shows, as far as they
are bound. -/
theorem Component.refersAt_link {names : List String} {c : Component}
    (hfresh : ∀ s ∈ c.sites, s.letReference? = none) {i : Nat} {name : String} :
    (c.link names).RefersAt i name ↔ c.NamesAt i name ∧ name ∈ names := by
  simp only [RefersAt, NamesAt, sites_link, List.getElem?_map, Option.map_eq_some_iff]
  constructor
  · rintro ⟨_, r, ⟨s, hs, rfl⟩, hr, hname⟩
    obtain ⟨hbare, hmem⟩ :=
      (Site.letReference?_link (hfresh s (List.mem_of_getElem? hs))).1 ⟨r, hr, hname⟩
    exact ⟨⟨s, hs, hbare⟩, hmem⟩
  · rintro ⟨⟨s, hs, hbare⟩, hmem⟩
    obtain ⟨r, hr, hname⟩ :=
      (Site.letReference?_link (hfresh s (List.mem_of_getElem? hs))).2 ⟨hbare, hmem⟩
    exact ⟨_, r, ⟨s, hs, rfl⟩, hr, hname⟩

/-- No site of a file that was read is a reference. -/
theorem SourceFile.IsFresh.letReference?_eq_none {f : SourceFile} (h : f.IsFresh) {c : Component}
    (hc : c ∈ f.components) : ∀ s ∈ c.sites, s.letReference? = none := by
  intro s hs
  obtain ⟨p, hp⟩ := exists_place_iff.2 ⟨c, hc, s, hs, rfl⟩
  rw [Site.letReference?]
  split
  · next r heq => exact absurd (hp.trans (congrArg some heq)) (h.unlinked p r)
  · rfl

namespace Analysis

/-- **Names resolve in the file.** After the analysis of a file that was read, a
component refers to a name where it showed one that any component binds. So its
references resolve exactly if it binds, in front of where it shows it, each such
name itself. -/
theorem resolves_iff {name source : String} {r : Reading}
    (hread : SourceFile.read name source = .ok r) {f : SourceFile} (hfile : r.file = some f)
    (c : Config) {k : Nat} {comp comp' : Component} (hcomp : f.components[k]? = some comp)
    (hcomp' : (step c f).2.components[k]? = some comp') :
    (∀ i x, comp'.RefersAt i x ↔ comp.NamesAt i x ∧ f.Binds x)
      ∧ (comp'.Resolves ↔ ∀ i x, comp.NamesAt i x → f.Binds x → comp.BindsBefore i x) := by
  have hfresh := (SourceFile.isFresh_of_read hread hfile).letReference?_eq_none
    (List.mem_of_getElem? hcomp)
  rw [step_components, List.getElem?_map, hcomp] at hcomp'
  obtain rfl := Option.some.inj hcomp'
  have hrefers : ∀ i x, (comp.marked.link f.letNames).RefersAt i x
      ↔ comp.NamesAt i x ∧ f.Binds x := fun i x => by
    rw [Component.refersAt_link (c := comp.marked) hfresh, SourceFile.mem_letNames_iff]
    rfl
  refine ⟨hrefers, ?_⟩
  simp only [Component.Resolves, hrefers, Component.bindsBefore_link, and_imp]
  rfl

/-- A source with a name that one component binds and both show. -/
def sharedTitle : String :=
  "package x\n\n@component Page() \x7b\n\t@let title = <b>hi</b>\n\t\x7btitle\x7d\n\x7d\n\n@component Card(title string) \x7b\n\t\x7btitle\x7d\n\x7d\n"

/-- The card refers to the binding of the page. -/
theorem resolves_iff_sharedTitle :
    ∃ r f comp comp', SourceFile.read "" sharedTitle = .ok r ∧ r.file = some f
      ∧ f.components[1]? = some comp ∧ (step .standard f).2.components[1]? = some comp'
      ∧ (∀ i x, comp'.RefersAt i x ↔ comp.NamesAt i x ∧ f.Binds x)
      ∧ (comp'.Resolves ↔ ∀ i x, comp.NamesAt i x → f.Binds x → comp.BindsBefore i x)
      ∧ comp'.RefersAt 0 "title" ∧ ¬comp'.Resolves := by
  have hrun : (SourceFile.read "" sharedTitle).toOption.any (fun r => r.file.any fun f =>
      f.letNames == ["title"] && f.components[1]?.any fun comp =>
        comp.sites[0]?.any fun s => s.bareName? == some "title") = true := by
    decide +kernel
  cases hread : SourceFile.read "" sharedTitle with
  | error i =>
    rw [hread] at hrun
    cases hrun
  | ok r =>
    rw [hread] at hrun
    change r.file.any _ = true at hrun
    obtain ⟨f, hfile, hfound⟩ := (Option.any_eq_true _ _).1 hrun
    obtain ⟨hnames, hfound⟩ := Bool.and_eq_true_iff.1 hfound
    obtain ⟨comp, hcomp, hfound⟩ := (Option.any_eq_true _ _).1 hfound
    obtain ⟨s, hs, hbare⟩ := (Option.any_eq_true _ _).1 hfound
    have hbinds : f.Binds "title" :=
      SourceFile.mem_letNames_iff.1 (eq_of_beq hnames ▸ List.mem_singleton_self _)
    obtain ⟨comp', hcomp'⟩ : ∃ comp', (step .standard f).2.components[1]? = some comp' := by
      rw [step_components, List.getElem?_map, hcomp]
      exact ⟨_, rfl⟩
    obtain ⟨hrefers, hresolves⟩ := resolves_iff hread hfile .standard hcomp hcomp'
    have href := (hrefers 0 "title").2 ⟨⟨s, hs, eq_of_beq hbare⟩, hbinds⟩
    refine ⟨r, f, comp, comp', rfl, hfile, hcomp, hcomp', hrefers, hresolves, href, fun h => ?_⟩
    -- nothing is in front of the first site
    obtain ⟨j, hj, -⟩ := h 0 "title" href
    exact Nat.not_lt_zero j hj

end Analysis

end Gsx
