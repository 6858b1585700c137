import Gsx.Proofs.Attachment.Bodies
/-!
# The course of a file

A file tells the course of its reading: the comments that are kept are those in the
file, and the stations are those of the bodies of its components.
-/

namespace Gsx

open Blanking (held)

/-! ## Declarations -/

namespace Declaration

/-- The comments in front of a declaration. -/
def leading? : Declaration → Option CommentGroup
  | .component c => c.leading
  | .func f => f.leading
  | .decl d => d.leading

/-- The stations of a declaration, all of them in the body of a component. -/
def stations : Declaration → List Station
  | .component c => Node.stationsAll c.body
  | .func _ | .decl _ => []

/-- A declaration takes the comments in front of it. -/
theorem perm_withLeading (g : Option CommentGroup) {d : Declaration} (hbare : d.leading? = none) :
    (d.withLeading g).comments.Perm (commentsIn g ++ d.comments) := by
  cases d <;>
    simp only [leading?] at hbare <;>
    simp only [withLeading, comments, Component.comments, hbare] <;>
    rw [show commentsIn none = [] from rfl] <;>
    simp

@[simp] theorem stations_withLeading (g : Option CommentGroup) (d : Declaration) :
    (d.withLeading g).stations = d.stations := by
  cases d <;> rfl

end Declaration

namespace SourceFile

/-- The stations of a file. -/
def stations (f : SourceFile) : List Station :=
  f.components.flatMap fun c => Node.stationsAll c.body

end SourceFile

/-- Declarations have their comments, sorted by what they are. -/
theorem perm_declarations (ds : List Declaration) :
    (ds.flatMap Declaration.comments).Perm
      ((ds.filterMap Declaration.decl?).flatMap (commentsIn ·.leading)
        ++ ((ds.filterMap Declaration.component?).flatMap Component.comments
          ++ (ds.filterMap Declaration.func?).flatMap (commentsIn ·.leading))) := by
  refine List.perm_iff_count.2 fun c => ?_
  induction ds with
  | nil => rfl
  | cons d ds ih =>
    simp only [List.count_append] at ih
    cases d <;>
      simp only [List.flatMap_cons, List.filterMap_cons, Declaration.decl?, Declaration.component?,
        Declaration.func?, Declaration.comments, List.count_append, ih] <;>
      omega

theorem stations_declarations (ds : List Declaration) :
    ds.flatMap Declaration.stations
      = (ds.filterMap Declaration.component?).flatMap fun c => Node.stationsAll c.body := by
  induction ds with
  | nil => rfl
  | cons d ds ih =>
    rw [List.flatMap_cons, ih]
    cases d <;> rfl

namespace Parse

open TokenStream

variable {s : TokenStream}

/-- **A declaration is read**, without the comments in front of it. -/
structure ReadsDeclaration (ds : List Deed) (d : Declaration) : Prop where
  told : Told ds d.comments d.stations
  bare : d.leading? = none

/-- **A component is read**, without the comments in front of it. -/
structure ReadsComponent (ds : List Deed) (c : Component) : Prop where
  told : Told ds c.comments (Node.stationsAll c.body)
  bare : c.leading = none

/-- Behind what its head has gone over. -/
theorem ReadsComponent.behind {ds es : List Deed} {c : Component} (h : ReadsComponent es c)
    (hds : OverTokens ds) : ReadsComponent (ds ++ es) c :=
  ⟨(Told.tokens hds).append h.told, h.bare⟩

namespace Does

/-! ### Package and imports -/

theorem packageName : Does s Parse.packageName (Given fun ds _ => OverTokens ds) := by
  refine .ofKind <| .ite (fun _ => .advance <| .ofCurrent <| .ite (fun _ => ?_) fun _ => reportLast)
    fun _ => reportLast
  refine advanceLine.bind fun s₁ _ => .pure ?_
  rintro _ ⟨es, rfl, hes⟩
  exact (hes.cons.append .nil).cons

theorem importName : Does s Parse.importName fun ds _ => OverTokens ds :=
  .ofCurrent <| .ite (fun _ => .advance (.pure OverTokens.nil.cons)) fun _ => .pure .nil

/-- An import, and the comment behind its path. -/
theorem importEntry : Does s Parse.importEntry (Given fun ds i =>
    Told ds (commentsIn i.trailing) []) := by
  refine .ofPosition <| importName.bind fun s₁ name => .ofCurrent <| .ite (fun _ => .advance ?_)
    fun _ => reportLast
  refine (trailingComment _).bind fun s₂ g => .pure ?_
  rintro _ rfl ds hds
  exact (Told.tokens hds).append ((Told.token _).append (Told.trail _))

/-- What some imports tell of a course. -/
def ToldImports (ds : List Deed) (is : List Import) : Prop :=
  Told ds (is.flatMap (commentsIn ·.trailing)) []

theorem groupRound : Does s Parse.groupRound fun ds r => ToldImports ds r.items := by
  refine .ofKind <| .ite (fun _ => .pure .nil) fun _ => importEntry.bind fun s₁ entry => ?_
  cases entry with
  | none => exact advanceLine.bind fun _ _ => .pure fun _ _ _ h => h.elim
  | some entry =>
    refine skipNewlines.bind fun s₂ _ => .pure fun es hes ds hds => ?_
    change Told _ ([entry].flatMap _) []
    rw [List.flatMap_singleton, List.append_nil]
    exact Told.skip hds (.tokens hes)

theorem imports : Does s Parse.imports ToldImports := by
  have happend : ∀ ds es as bs, ToldImports ds as → ToldImports es bs →
      ToldImports (ds ++ es) (as ++ bs) := fun ds es as bs has hbs => by
    unfold ToldImports
    rw [List.flatMap_append]
    exact Told.append has hbs
  have hgroup : ∀ s, Does s (Parse.repeated Parse.groupRound) ToldImports := fun s =>
    repeated happend fun s => groupRound
  refine repeated happend fun s => ?_
  refine .ofKind <| .ite (fun _ => ?_) fun _ => .pure .nil
  refine advanceLine.bind fun s₁ _ => .ofKind <| .ite (fun _ => ?_) fun _ => ?_
  · refine advanceLine.bind fun s₂ _ => (hgroup s₂).bind fun s₃ group => (expect _).bind
      fun s₄ found => skipNewlines.bind fun s₅ _ => .pure ?_
    rintro hs hhs gs ⟨-, rfl⟩ fs hfs _ ⟨es, rfl, hes⟩ _ ⟨ds, rfl, hds⟩
    rw [List.append_nil]
    exact (Told.tokens hds.cons).append ((Told.tokens hes.cons).append
      (Told.skip hfs (.tokens hhs.cons)))
  · refine importEntry.bind fun s₂ entry => skipNewlines.bind fun s₃ _ => .pure ?_
    cases entry with
    | none => exact fun _ _ _ h => h.elim
    | some entry =>
      rintro fs hfs es hes _ ⟨ds, rfl, hds⟩
      change Told _ ([entry].flatMap _) []
      rw [List.flatMap_singleton, List.append_nil]
      exact (Told.tokens hds.cons).append (Told.skip hes (.tokens hfs))

/-! ### Components and functions -/

theorem param : Does s Parse.param fun ds _ => OverTokens ds :=
  .ofCurrent <| .ite (fun _ => .advance <| goType.bind fun _ _ => .ite
    (fun _ => .pure fun _ hds => (hds.append .nil).cons)
    fun _ => .pure fun _ hds => (hds.append .nil).cons) fun _ => reportLast

theorem params : Does s Parse.params (Given fun ds _ => OverTokens ds) := by
  have hround : ∀ s, Does s paramRound fun ds _ => OverTokens ds := fun s =>
    .ofKind <| .ite (fun _ => .pure .nil) fun _ => param.bind fun s₁ first => .ofKind <| .ite
      (fun _ => advanceLine.bind fun s₂ _ => .pure (by
        rintro _ ⟨es, rfl, hes⟩ ds hds
        exact hds.append (hes.cons.append .nil)))
      fun _ => .pure fun ds hds => hds.append .nil
  refine (expect _).bind fun s₁ found => .ite (fun _ => ?_) fun hno => .pure fun ds hds =>
    absurd hds.1 hno
  refine (repeated (fun _ _ _ _ h h' => OverTokens.append h h') hround).bind fun s₂ ps =>
    (expect _).bind fun s₃ found' => .ite (fun _ => .pure ?_) fun hno => .pure fun es hes =>
      absurd hes.1 hno
  rintro es ⟨-, rfl⟩ ds hds fs ⟨-, rfl⟩
  exact (hds.append OverTokens.nil.cons).cons

theorem componentBlock (name : String) (ps : List Param) (p : Position) :
    Does s (Parse.componentBlock name ps p) (Given ReadsComponent) := by
  refine .ofGet <| ((doesNest _).block s).bind fun s₁ b => ?_
  cases b with
  | none => exact .nothing
  | some b =>
    refine .pure fun ds hds => ⟨?_, rfl⟩
    rw [List.append_nil]
    refine hds.1.perm (List.perm_iff_count.2 fun c => ?_) (.refl _)
    simp only [Component.comments, Block.comments, Body.comments, List.count_append]
    rw [show commentsIn none = [] from rfl, List.count_nil]
    omega

theorem component : Does s Parse.component (Given ReadsComponent) := by
  refine .ofPosition <| .advance <| .ofCurrent <| .ite (fun _ => .advance ?_) fun _ => reportLast
  refine params.bind fun s₁ ps => ?_
  cases ps with
  | none => exact .nothing
  | some ps =>
    refine skipNewlines.bind fun s₂ _ => (componentBlock _ _ _).mono fun fs c hc es hes ds hds => ?_
    cases c with
    | none => exact hc.elim
    | some c => exact (ReadsComponent.behind hc hes).behind (OverTokens.cons (OverTokens.cons hds))

theorem resultName : Does s Parse.resultName fun ds _ => OverTokens ds :=
  .ofCurrent <| .ite (fun _ => .advance (.pure OverTokens.nil.cons)) fun _ => .pure .nil

/-- **What `func` declares**: a component, or a function that is gone over. -/
theorem funcDeclaration : Does s Parse.funcDeclaration (Given ReadsDeclaration) := by
  have hfunc : ∀ {s : TokenStream} (start : Nat) (p : Position),
      Does s (do return some (.func (← Parse.goFunc start p))) fun ds r =>
        ∀ es, OverTokens es → Given ReadsDeclaration (es ++ ds) r := fun start p =>
    (goFunc start p).bind fun s₁ f => .pure fun ds hds es hes => by
      have htokens := hes.append (hds.1.append .nil)
      refine ⟨?_, hds.2⟩
      rw [Declaration.comments, hds.2]
      exact .tokens htokens
  refine .ofCurrent <| .advance <| .ofCurrent <| .ite (fun _ => ?_) fun _ =>
    .ite (fun _ => .advance ?_) fun _ => reportLast
  · exact (hfunc _ _).mono fun ds r hr => hr _ OverTokens.nil.cons
  refine params.bind fun s₁ ps => ?_
  cases ps with
  | none => exact .nothing
  | some ps =>
    have hhead : ∀ {ds es fs gs : List Deed}, OverTokens ds → OverTokens es → OverTokens fs →
        OverTokens gs → OverTokens (.token s.current :: .token s.advanced.current
          :: (ds ++ (es ++ (fs ++ gs)))) := fun hds hes hfs hgs =>
      (hds.append (hes.append (hfs.append hgs))).cons.cons
    refine skipNewlines.bind fun s₂ _ => resultName.bind fun s₃ result => skipNewlines.bind
      fun s₄ _ => .ite (fun _ => ?_) fun _ => ?_
    · refine (componentBlock _ _ _).bind fun s₅ c => .pure ?_
      rintro gs hgs fs hfs es hes hs hhs ds hds
      cases c with
      | none => exact hgs.elim
      | some c =>
        have hread := ReadsComponent.behind hgs (hhead hds hhs hes hfs)
        rw [List.append_nil]
        simp only [List.cons_append, List.append_assoc] at hread
        exact ⟨hread.told, hread.bare⟩
    · refine (hfunc _ _).mono fun gs r hr fs hfs es hes hs hhs ds hds => ?_
      have hread := hr _ (hhead hds hhs hes hfs)
      simp only [List.cons_append, List.append_assoc] at hread
      exact hread

theorem declaration : Does s Parse.declaration (Given ReadsDeclaration) := by
  refine .ofCurrent ?_
  split
  · refine component.bind fun s₁ c => .pure fun ds hds => ?_
    cases c with
    | none => exact hds.elim
    | some c =>
      rw [List.append_nil]
      exact ⟨hds.told, hds.bare⟩
  · exact funcDeclaration
  · refine .ite (fun _ => goDecl.bind fun s₁ d => .pure fun ds hds => ⟨?_, hds.2⟩)
      fun _ => reportLast
    rw [Declaration.comments, hds.2]
    exact .tokens (hds.1.append .nil)

/-- Starting over goes on from trouble. -/
theorem recover : Does s Parse.recover fun _ _ => True :=
  .ofCurrent <| (skipWhile _).bind fun _ _ =>
    .note ⟨rfl, rfl, rfl, rfl, rfl, fun _ => .inl⟩ rfl rfl fun _ _ => trivial

/-- What declarations tell of a course. -/
def ToldDeclarations (ds : List Deed) (decls : List Declaration) : Prop :=
  Told ds (decls.flatMap Declaration.comments) (decls.flatMap Declaration.stations)

theorem declarations : Does s Parse.declarations ToldDeclarations := by
  refine repeated (fun ds es as bs has hbs => ?_) fun s => ?_
  · unfold ToldDeclarations
    rw [List.flatMap_append, List.flatMap_append]
    exact Told.append has hbs
  · refine skipNewlines.bind fun s₁ _ => .ofKind <| .ite (fun _ => .pure fun ds hds =>
      .tokens (hds.append .nil)) fun _ => leading fun s₂ g _ => declaration.bind fun s₃ d => ?_
    cases d with
    | none => exact recover.bind fun _ _ => .pure fun _ _ _ h => h.elim
    | some d =>
      refine .pure fun es hes ds hds => ?_
      change Told _ ([d.withLeading g].flatMap Declaration.comments)
        ([d.withLeading g].flatMap Declaration.stations)
      rw [List.flatMap_singleton, List.flatMap_singleton, List.append_nil,
        Declaration.stations_withLeading]
      have htake := (Told.take s₁.current (commentsIn g)).append hes.told
      exact (Told.tokens hds).append
        (htake.perm (Declaration.perm_withLeading g hes.bare).symm (.refl _))

/-! ### Files -/

/-- What a file tells of a course. At its end comments are taken. -/
structure ToldFile (ds : List Deed) (f : SourceFile) : Prop where
  told : Told ds f.comments f.stations
  last : ∃ front t cs, ds = front ++ [.take t true cs]

/-- **A file tells the course of its reading.** -/
theorem sourceFile : Does s Parse.sourceFile (Given ToldFile) := by
  refine .ofPosition <| skipNewlines.bind fun s₁ _ => leading fun s₂ g _ => packageName.bind
    fun s₃ package => ?_
  cases package with
  | none => exact .nothing
  | some package =>
    refine skipNewlines.bind fun s₄ _ => imports.bind fun s₅ imports => skipNewlines.bind
      fun s₆ _ => declarations.bind fun s₇ decls => orphanComments.bind fun s₈ orphans =>
        .ofGet <| .pure ?_
    rintro _ rfl hs hhs gs hgs fs hfs es hes ks hks ds hds
    have hlast := Told.append hhs (Told.take s₇.current (commentsAmong orphans))
    have hall := (Told.tokens hds).append ((Told.take s₁.current (commentsIn g)).append
      ((Told.tokens hks).append ((Told.tokens hes).append (Told.append hfs
        ((Told.tokens hgs).append hlast)))))
    rw [List.append_nil]
    constructor
    · refine hall.perm (List.perm_iff_count.2 fun c => ?_) ?_
      · have hdecls := (perm_declarations decls).count_eq c
        simp only [SourceFile.comments, List.count_append, List.count_nil] at hdecls ⊢
        omega
      · unfold SourceFile.stations
        simp only [List.nil_append, List.append_nil, ← stations_declarations]
        exact .refl _
    · refine ⟨ds ++ (.take s₁.current true (commentsIn g) :: (ks ++ (es ++ (fs ++ (gs ++ hs))))),
        s₇.current, commentsAmong orphans, ?_⟩
      simp only [List.append_assoc, List.cons_append]

end Does

end Parse

end Gsx
