import Gsx.Proofs.Blanking.Bodies
import Gsx.Proofs.Grammar.Appending
/-!
# Reading a file with comments made blank

The outer readers side by side: package clause and imports, parameters,
components, functions and declarations. So comments count for nothing: a file that
is read with comments made blank is the file without these comments, as long as
none of them stands in Go that is taken as text, and none misleads the search for
a closing brace.
-/

namespace Gsx

/-! ## Comments and ranges of a file -/

theorem Declaration.comments_withLeading (g : Option CommentGroup) (d : Declaration) :
    (d.withLeading g).comments ⊆ commentsIn g ++ d.comments := by
  intro c hc
  cases d with
  | component d =>
    simp only [withLeading, comments, Component.comments, List.mem_append] at hc ⊢
    tauto
  | func f => exact List.mem_append_left _ hc
  | decl d => exact List.mem_append_left _ hc

@[simp] theorem Declaration.ranges_withLeading (source : List Char) (g : Option CommentGroup)
    (d : Declaration) : (d.withLeading g).ranges source = d.ranges source := by
  cases d <;> rfl

namespace SourceFile

variable {f : SourceFile}

/-- The comments of a file are those of its parts. -/
theorem comments_subset (ds : List Declaration) (hdecls : f.decls = ds.filterMap Declaration.decl?)
    (hcomponents : f.components = ds.filterMap Declaration.component?)
    (hfuncs : f.funcs = ds.filterMap Declaration.func?) :
    f.comments ⊆ commentsIn f.leading ++ (f.imports.flatMap (commentsIn ·.trailing)
      ++ (ds.flatMap Declaration.comments ++ commentsAmong f.orphans)) := by
  intro c hc
  have hof : ∀ {γ : Type} {part : Declaration → Option γ} {g : γ → List Comment},
      (∀ d x, part d = some x → d.comments = g x) → c ∈ (ds.filterMap part).flatMap g →
        c ∈ ds.flatMap Declaration.comments := fun hpart hc => by
    obtain ⟨x, hx, hc⟩ := List.mem_flatMap.1 hc
    obtain ⟨d, hd, hdx⟩ := List.mem_filterMap.1 hx
    exact List.mem_flatMap.2 ⟨d, hd, hpart d x hdx ▸ hc⟩
  simp only [comments, hdecls, hcomponents, hfuncs, List.mem_append] at hc ⊢
  rcases hc with hc | hc | hc | hc | hc | hc
  · exact .inl hc
  · exact .inr (.inl hc)
  · exact .inr (.inr (.inl (hof (by rintro (_ | _ | _) _ ⟨⟩; rfl) hc)))
  · exact .inr (.inr (.inl (hof (by rintro (_ | _ | _) _ ⟨⟩; rfl) hc)))
  · exact .inr (.inr (.inl (hof (by rintro (_ | _ | _) _ ⟨⟩; rfl) hc)))
  · exact .inr (.inr (.inr hc))

/-- What a declaration has as text the file has. -/
theorem ranges_subset (source : List Char) (ds : List Declaration) (hdecls : f.decls = ds.filterMap Declaration.decl?)
    (hcomponents : f.components = ds.filterMap Declaration.component?)
    (hfuncs : f.funcs = ds.filterMap Declaration.func?) :
    ds.flatMap (Declaration.ranges source) ⊆ f.ranges source := by
  intro r hr
  obtain ⟨d, hd, hr⟩ := List.mem_flatMap.1 hr
  simp only [ranges, hdecls, hcomponents, hfuncs, List.mem_append]
  cases d with
  | component c => exact .inr (.inl (List.mem_flatMap.2 ⟨c, List.mem_filterMap.2 ⟨_, hd, rfl⟩, hr⟩))
  | func g =>
    obtain rfl := List.mem_singleton.1 hr
    exact .inr (.inr (List.mem_map_of_mem (List.mem_filterMap.2 ⟨_, hd, rfl⟩)))
  | decl g =>
    obtain rfl := List.mem_singleton.1 hr
    exact .inl (List.mem_map_of_mem (List.mem_filterMap.2 ⟨_, hd, rfl⟩))

end SourceFile

namespace Parse

open TokenStream Blanking

variable {α : Type} {w : Blanking} {l : Lexer} {G P : List Comment}

/-! ## What shows of declarations -/

namespace Show

def import' : Show Import :=
  of (Import.plain false) (commentsIn ·.trailing) fun _ => []

variable (w : Blanking)

def param : Show Param :=
  of Param.plain (fun _ => []) fun p => [p.range w.source]

/-- A parameter that is missing where its type is: this may be so in one of two
readings. -/
def paramOrNone : Show (Option Param) :=
  of (Option.map Param.plain) (fun _ => []) fun p => p.elim [] (param w).ranges

def component : Show Component :=
  of (Component.plain false) Component.comments (Component.ranges w.source)

def declaration : Show Declaration :=
  of (Declaration.plain false) Declaration.comments (Declaration.ranges w.source)

def file : Show SourceFile :=
  of (SourceFile.plain false) SourceFile.comments (SourceFile.ranges w.source)

end Show

namespace Parallel

/-! ## Package and imports -/

theorem packageName : Parallel w l P P .same Parse.packageName Parse.packageName :=
  kind <| ite
    (fun _ => advance.next fun _ _ => current fun _ _ => ite
      (fun _ => advanceLine.next fun _ _ => .done _) fun _ => (report _).next fun _ _ => .done _)
    fun _ => (report _).next fun _ _ => .done _

theorem importName : Parallel w l P P .same Parse.importName Parse.importName :=
  current fun _ _ => ite (fun _ => advance.next fun _ _ => .done _) fun _ => .done _

theorem importEntry :
    Parallel w l P P Show.import'.option Parse.importEntry Parse.importEntry :=
  position fun _ => importName.next fun _ _ => current fun _ _ => ite
    (fun _ => advance.next fun _ _ => (trailingComment _ _).bind fun _ _ _ _ =>
      .pure (List.subset_append_right _ _) ⟨rfl, fun _ => rfl⟩)
    fun _ => (report _).next fun _ _ => .pure (List.nil_subset _) (.refl _)

theorem groupRound :
    Parallel w l P P Show.import'.round Parse.groupRound Parse.groupRound := by
  refine kind <| ite (fun _ => .pure (List.nil_subset _) (.refl _)) fun _ => importEntry.option
    (fun _ => advanceLine.next fun _ _ => .pure (List.nil_subset _) (.refl _))
    fun _ i i' h => skipNewlines.next fun _ _ => ?_
  have hsome : Show.import'.option.Agree w (some i) (some i') :=
    ⟨rfl, fun hclear => congrArg some (h.view_eq hclear)⟩
  exact .pure (comments_round (some i) true ▸ List.subset_append_right _ _) (round_agree hsome)

theorem importRound :
    Parallel w l P P Show.import'.round Parse.importRound Parse.importRound := by
  refine kind <| ite (fun _ => advanceLine.next fun _ _ => kind <| ite (fun _ => ?_) fun _ => ?_)
    fun _ => .pure (List.nil_subset _) (.refl _)
  · exact advanceLine.next fun _ _ => (repeated fun _ _ => groupRound).bind fun _ is is' h =>
      (expect _).next fun _ _ => skipNewlines.next fun _ _ =>
        .pure (List.subset_append_right _ _) ⟨rfl, h.view_eq⟩
  · exact importEntry.bind fun _ i i' h => skipNewlines.next fun _ _ =>
      .pure (comments_round i true ▸ List.subset_append_right _ _) (round_agree h)

theorem imports : Parallel w l P P Show.import'.list Parse.imports Parse.imports :=
  repeated fun _ _ => importRound

/-! ## Components and functions -/

/-- A parameter without a type is dropped. Whether a type is nothing but comments
shows only where these are blank. -/
theorem param : Parallel w l P P (.paramOrNone w) Parse.param Parse.param := by
  refine current fun p _ => ite (fun hkind => ?_) fun _ =>
    (report _).next fun _ _ => .pure (List.nil_subset _) (.refl _)
  refine ofPlace (by simp [hkind]) fun _ hbehind => advance_bind <|
    goType_bind fun _ text text' htext => ?_
  have hparam : ∀ text p, (if text = "" then return none
        else return some ⟨(l.token 0).literal, text, p⟩ : Parse (Option Param))
      = Pure.pure (if text = "" then none else some ⟨(l.token 0).literal, text, p⟩) :=
    fun text p => by split <;> rfl
  dsimp only [Token.movedTo]
  rw [hparam, hparam]
  refine .pure (List.nil_subset _) ⟨rfl, fun hclear => ?_⟩
  by_cases hempty : text = ""
  · rw [htext (.inl hempty), hempty]
    rfl
  · rw [if_neg hempty] at hclear ⊢
    rw [htext (.inr (hbehind 1 ▸ hclear)), if_neg hempty]
    rfl

theorem paramRound : Parallel w l P P (Show.param w).round Parse.paramRound Parse.paramRound := by
  have hround : ∀ {k : Lexer} {Q : List Comment} {a a' : Option Param} (again : Bool),
      (Show.paramOrNone w).Agree w a a' → Parallel w k P Q (Show.param w).round
        (Pure.pure ⟨a.toList, again⟩) (Pure.pure ⟨a'.toList, again⟩) := fun {k Q a a'} again h => by
    refine .pure ?_ ⟨rfl, fun hclear => ?_⟩
    · cases a <;> exact List.nil_subset _
    · have hview : a'.map Param.plain = a.map Param.plain := h.view_eq <| by
        cases a with
        | none => exact clear_nil
        | some a => exact hclear
      change a'.toList.map Param.plain = a.toList.map Param.plain
      rw [← Option.toList_map, ← Option.toList_map, hview]
  exact kind <| ite (fun _ => .pure (List.nil_subset _) (.refl _)) fun _ =>
    param.bind fun _ _ _ h => kind <| ite (fun _ => advanceLine.next fun _ _ => hround true h)
      fun _ => hround false h

theorem params : Parallel w l P P (Show.param w).list.option Parse.params Parse.params :=
  (expect _).next fun _ _ => ite
    (fun _ => (repeated fun _ _ => paramRound).bind fun _ _ _ h => (expect _).next fun _ _ =>
      ite (fun _ => .pure (List.subset_append_right _ _) ⟨rfl, fun hclear =>
        congrArg some (h.view_eq hclear)⟩) fun _ => .pure (List.nil_subset _) (.refl _))
    fun _ => .pure (List.nil_subset _) (.refl _)

theorem componentBlock (name : String) {ps ps' : List Param}
    (hps : (Show.param w).list.Agree w ps ps') (p p' : Position) :
    Parallel w l P P (Show.component w).option (Parse.componentBlock name ps p)
      (Parse.componentBlock name ps' p') := by
  refine stream fun s s' _ hlength _ => ?_
  rw [TokenStream.depth, TokenStream.depth, hlength]
  refine ((parallelAt w _).block _ _).option (fun _ => .pure (List.nil_subset _) (.refl _))
    fun _ b b' hb => .pure (fun c hc => ?_) ⟨rfl, fun hclear => ?_⟩
  · change c ∈ [] ++ (commentsIn b.trailing ++ (commentsAmong b.body.orphans
      ++ Node.commentsAll b.body.nodes)) at hc
    change c ∈ P ++ (commentsIn b.trailing ++ (Node.commentsAll b.body.nodes
      ++ commentsAmong b.body.orphans))
    simp only [List.mem_append, List.not_mem_nil] at hc ⊢
    tauto
  · obtain ⟨hclear, hclear'⟩ := clear_append.1 hclear
    have hparams : ps'.map Param.plain = ps.map Param.plain :=
      hps.view_eq <| hclear.mono fun r hr => by
        obtain ⟨p, hp, hr⟩ := List.mem_flatMap.1 hr
        exact List.mem_singleton.1 hr ▸ List.mem_map_of_mem hp
    have hblock : b'.plain false = b.plain false := hb.view_eq hclear'
    exact congrArg₂ (fun ps (b : Block) => some (Component.mk name ps b.body.nodes false .nowhere
      none none [])) hparams hblock

/-- Parameters carry no comments. -/
theorem comments_params (ps : List Param) : (Show.param w).list.comments ps = [] :=
  List.flatMap_eq_nil_iff.2 fun _ _ => rfl

/-- Behind parameters, which have no comments. -/
theorem params_bind {e : Show α} {f f' : Option (List Param) → Parse (Option α)}
    (hnone : ∀ k, Parallel w k P P e.option (f none) (f' none))
    (hsome : ∀ k ps ps', (Show.param w).list.Agree w ps ps' →
      Parallel w k P P e.option (f (some ps)) (f' (some ps'))) :
    Parallel w l P P e.option (Parse.params >>= f) (Parse.params >>= f') := by
  refine params.option hnone fun k ps ps' h => ?_
  rw [comments_params, List.append_nil]
  exact hsome k ps ps' h

theorem component :
    Parallel w l P P (Show.component w).option Parse.component Parse.component :=
  position fun _ => advance.next fun _ _ => current fun _ _ => ite
    (fun _ => advance.next fun _ _ => params_bind
      (fun _ => .pure (List.nil_subset _) (.refl _)) fun _ _ _ h =>
        skipNewlines.next fun _ _ => componentBlock _ h _ _)
    fun _ => (report _).next fun _ _ => .pure (List.nil_subset _) (.refl _)

theorem resultName : Parallel w l P P .same Parse.resultName Parse.resultName :=
  current fun _ _ => ite (fun _ => advance.next fun _ _ => .done _) fun _ => .done _

theorem func {start : Nat} {p : Position} (hp : p.offset w.source = start) (p' : Position) :
    Parallel w l P P (Show.declaration w).option
      (Parse.goFunc start p >>= fun f => return some (.func f))
      (Parse.goFunc start p' >>= fun f => return some (.func f)) :=
  (goFunc hp p').bind fun _ _ _ h => .pure (List.subset_append_right _ _) ⟨rfl, fun hclear =>
    congrArg (fun f => some (Declaration.func f)) (h.view_eq hclear)⟩

/-- A component that may be missing is a declaration that may be missing. -/
theorem component_bind {m m' : Parse (Option Component)}
    (h : Parallel w l P P (Show.component w).option m m') :
    Parallel w l P P (Show.declaration w).option (m >>= fun c => return c.map .component)
      (m' >>= fun c => return c.map .component) :=
  h.option (fun _ => .pure (List.nil_subset _) (.refl _)) fun _ _ _ hc =>
    .pure (List.subset_append_right _ _) ⟨rfl, fun hclear =>
      congrArg (fun c => some (Declaration.component c)) (hc.view_eq hclear)⟩

theorem funcDeclaration (hthere : (l.token 0).kind ≠ .endOfInput) :
    Parallel w l P P (Show.declaration w).option Parse.funcDeclaration Parse.funcDeclaration := by
  refine ofPlace hthere fun hplace _ => current fun p _ => advance.next fun _ _ =>
    current fun _ _ => ite (fun _ => func hplace p) fun _ => ite (fun _ => ?_) fun _ =>
      (report _).next fun _ _ => .pure (List.nil_subset _) (.refl _)
  refine advance.next fun _ _ => params_bind (fun _ => .pure (List.nil_subset _) (.refl _))
    fun _ ps ps' hps => skipNewlines.next fun _ _ => resultName.next fun _ _ =>
      skipNewlines.next fun _ _ => ite (fun _ => ?_) fun _ => func hplace p
  exact component_bind (componentBlock _ hps _ _)

/-! ## Declarations -/

theorem kind_of_isDeclWord {t : Token} (h : t.isDeclWord) : t.kind ≠ .endOfInput := by
  intro hend
  simp [Token.isDeclWord, hend] at h

theorem declaration :
    Parallel w l P P (Show.declaration w).option Parse.declaration Parse.declaration := by
  refine current fun p _ => ?_
  dsimp only [Token.movedTo]
  split
  · exact component_bind component
  · next hkind => exact funcDeclaration (by simp [hkind])
  · refine ite (fun hword => ?_) fun _ =>
      (report _).next fun _ _ => .pure (List.nil_subset _) (.refl _)
    exact (goDecl (kind_of_isDeclWord hword)).bind fun _ _ _ h =>
      .pure (List.subset_append_right _ _) ⟨rfl, fun hclear =>
        congrArg (fun d => some (Declaration.decl d)) (h.view_eq hclear)⟩

theorem recover : Parallel w l P P .same Parse.recover Parse.recover := by
  refine current fun p _ => (skipWhile fun _ _ => rfl).next fun k _ => ?_
  intro _ s hs hstands
  have hheld : (P ++ []) ++ held s ⊆ P ++ held s := by
    rw [List.append_nil]
    exact List.Subset.refl _
  exact ⟨⟨k, hs.of_eq rfl rfl rfl rfl⟩, hstands.of_held rfl rfl hheld,
    fun hk => hk.of_held rfl (List.Subset.refl _) hheld, fun _ s' hs' => ⟨.refl _,
      ⟨hs'.beside, hs'.current, hs'.peek, hs'.whole, hs'.whole_peek, hs'.said_eq, hs'.goes_iff⟩⟩⟩

theorem declarationRound :
    Parallel w l P P (Show.declaration w).round Parse.declarationRound Parse.declarationRound := by
  refine skipNewlines.next fun _ _ => kind <| ite
    (fun _ => .pure (List.nil_subset _) (.refl _)) fun _ => leadingComments.bind fun _ g g' _ =>
      declaration.option (fun _ => recover.next fun _ _ => .pure (List.nil_subset _) (.refl _))
        fun _ d d' hd => .pure ?_ ⟨rfl, fun hclear => ?_⟩
  · change (d.withLeading g).comments ++ [] ⊆ (P ++ commentsIn g) ++ d.comments
    rw [List.append_nil, List.append_assoc]
    exact List.subset_append_of_subset_right _ (d.comments_withLeading g)
  · change w.Clear ((d.withLeading g).ranges w.source ++ []) at hclear
    rw [Declaration.ranges_withLeading, List.append_nil] at hclear
    have hdeclaration : d'.plain false = d.plain false := hd.view_eq hclear
    change [(d'.withLeading g').plain false] = [(d.withLeading g).plain false]
    rw [Declaration.plain_withLeading, Declaration.plain_withLeading, hdeclaration]
    rfl

theorem declarations :
    Parallel w l P P (Show.declaration w).list Parse.declarations Parse.declarations :=
  repeated fun _ _ => declarationRound

theorem sourceFile :
    Parallel w l P P (Show.file w).option Parse.sourceFile Parse.sourceFile := by
  refine position fun p => skipNewlines.next fun _ _ => leadingComments.bind fun _ g g' _ =>
    packageName.next fun _ package => ?_
  cases package with
  | none => exact .pure (List.nil_subset _) (.refl _)
  | some package =>
    refine skipNewlines.next fun _ _ => imports.bind fun _ is is' his =>
      skipNewlines.next fun _ _ => declarations.bind fun _ ds ds' hds =>
        orphanComments.bind fun _ gs gs' _ => stream fun s s' hname _ _ =>
          .pure ?_ ⟨rfl, fun hclear => ?_⟩
    · refine List.Subset.trans (SourceFile.comments_subset ds rfl rfl rfl) ?_
      change commentsIn g ++ (is.flatMap (commentsIn ·.trailing)
          ++ (ds.flatMap Declaration.comments ++ commentsAmong gs))
        ⊆ (((P ++ commentsIn g) ++ is.flatMap (commentsIn ·.trailing))
          ++ ds.flatMap Declaration.comments) ++ commentsAmong gs
      simp only [List.append_assoc]
      exact List.subset_append_right _ _
    · have himports : is'.map (Import.plain false) = is.map (Import.plain false) :=
        his.view_eq fun r hr => by
          obtain ⟨i, -, hr⟩ := List.mem_flatMap.1 hr
          cases hr
      have hdeclarations : ds'.map (Declaration.plain false) = ds.map (Declaration.plain false) :=
        hds.view_eq (hclear.mono (SourceFile.ranges_subset w.source ds rfl rfl rfl))
      have hparts : ∀ {γ : Type} {part : Declaration → Option γ} {g : γ → γ},
          (∀ d : Declaration, part (d.plain false) = (part d).map g) →
            (ds'.filterMap part).map g = (ds.filterMap part).map g := fun hpart => by
        rw [filterMap_plain hpart, filterMap_plain hpart, hdeclarations]
      simp only [Show.option, Show.file, Show.of, Option.map_some, SourceFile.plain, hname, himports,
        hparts (Declaration.decl?_plain false), hparts (Declaration.component?_plain false),
        hparts (Declaration.func?_plain false), plainGroup_false, plainGroups, Bool.false_eq_true,
        if_false]

end Parallel

end Parse

/-! ## The start of a source -/

namespace Blanking

open TokenStream

variable {w : Blanking}

section Start

variable {s : TokenStream} {l : Lexer} (hin : l.cursor.IsIn l.source) (hpending : l.pending = [])
  (hcomments : s.comments = []) (hlexer : s.lexer = l.next.2.next.2)

include hin hpending hcomments hlexer

/-! A stream that has read two tokens, from a lexer that has no comments yet. -/

theorem Stands.of_next (hsource : l.source = w.source) : w.Stands [] s := by
  have hone := Lexer.Finds.next hin
  have hin' : l.next.2.cursor.IsIn l.next.2.source := hone.source_eq.symm ▸ hone.cursor
  have htwo := Lexer.Finds.next hin'
  have hsource' : l.next.2.source = w.source := hone.source_eq.trans hsource
  have hnone : ∀ {c : Comment}, c ∉ l.pending := hpending ▸ List.not_mem_nil
  have hheld : [] ++ held s = l.next.2.next.2.pending := by
    rw [held, hcomments, hlexer]
    rfl
  refine ⟨?_, ?_, fun c hc => ?_, fun c _ hc => ?_⟩
  · exact hlexer ▸ htwo.source_eq.trans hsource'
  · exact hlexer ▸ hsource' ▸ htwo.cursor
  · rw [hheld] at hc
    rcases Lexer.isMarked_next hin' c hc with hc | hmarked
    · exact hsource ▸ (Lexer.isMarked_next hin c hc).resolve_left hnone
    · exact hsource' ▸ hmarked
  · rw [hheld] at hc
    rw [hlexer]
    rcases htwo.pending c hc with hc | hlt
    · exact ((hone.pending c hc).resolve_left hnone).2.trans_le htwo.le_offset
    · exact hlt.2

theorem Kept.found_twice (hkept : w.Kept [] s) : w.Found l ∧ w.Found l.next.2 := by
  refine Found.twice hin (fun c _ hc => ?_) fun c hc _ hlt => ?_
  · rw [hpending] at hc
    exact absurd hc List.not_mem_nil
  · have hmem := hkept.found c hc (hlexer ▸ hlt)
    rw [held, hcomments, hlexer] at hmem
    exact hmem

end Start

variable {name source : String}

theorem Stands.ofSource (h : source.toList = w.source) :
    w.Stands [] (TokenStream.ofSource name source) := by
  rw [TokenStream.ofSource_eq]
  exact .of_next (l := Lexer.ofSource name source) (.start _) rfl rfl rfl h

/-- **Both sources start side by side**, where nothing is lost. -/
theorem Twins.ofSource (h : source.toList = w.source)
    (hkept : w.Kept [] (TokenStream.ofSource name source)) :
    w.Twins (TokenStream.ofSource name source)
      (TokenStream.ofSource name (String.ofList w.result)) := by
  have hcursor : ∀ (text : String) cs, text.toList = cs →
      (Lexer.ofSource name text).cursor.IsIn cs := by
    rintro text _ rfl
    exact .start _
  have hbeside : w.Beside (Lexer.ofSource name source)
      (Lexer.ofSource name (String.ofList w.result)) :=
    { name_eq := rfl
      source_eq := h
      source_eq' := String.toList_ofList
      cursor := hcursor _ _ h
      cursor' := hcursor _ _ String.toList_ofList
      offset_eq := rfl
      whole := fun c _ hlt => absurd hlt (Nat.not_lt_zero _)
      said_eq := rfl }
  rw [TokenStream.ofSource_eq] at hkept
  rw [TokenStream.ofSource_eq, TokenStream.ofSource_eq]
  obtain ⟨hfound, hfound'⟩ := hkept.found_twice (l := Lexer.ofSource name source) (.start _) rfl
    rfl rfl
  exact .of_next hbeside hfound hfound' rfl rfl rfl rfl rfl rfl rfl (iff_of_true rfl rfl)

end Blanking

/-! ## Files -/

open Parse TokenStream Blanking

/-- **Comments that count for nothing in a reading.** They are attached in its
file and stand outside the Go that it has as text. Since the search for a closing
brace knows no comments, it must not be misled by these, neither where it finds a
brace nor where it reports that it finds none. -/
structure Reading.Spares (source : List Char) (r : Reading) (cs : List Comment) : Prop where
  attached : ∀ c ∈ cs, c ∈ r.file.elim [] SourceFile.comments
  outside : ∀ c ∈ cs, ∀ g ∈ r.file.elim [] (SourceFile.ranges source),
    c.endOffset ≤ g.start ∨ g.stop ≤ c.offset
  closings : FindsClosing cs source
  unclosed : ∀ d ∈ r.diagnostics, d.message = neverClosed → ∀ o, d.position = .ofOffset source o →
    Braces.closing? ((blanked cs source).drop (o + 1)) = none

namespace Parse

variable {w : Blanking} {m : Parse (Option SourceFile)} {s s' : TokenStream} {r : Reading}

/-- The comments of a file are such as a lexer finds. -/
theorem marked_of_told (hgoes : Goes w [] [] (Show.file w).option m m s)
    (hread : told (m.run s) = .ok r) :
    ∀ c ∈ r.file.elim [] SourceFile.comments, c.IsMarked w.source := by
  obtain ⟨hfile, -, -⟩ := of_told hread
  rw [hfile]
  exact fun c hc => hgoes.stands.marked c (List.mem_append_left _ hc)

/-- What two streams tell that go side by side. -/
theorem told_of_goes (hgoes : Goes w [] [] (Show.file w).option m m s)
    (hs' : w.Kept [] s → w.Twins s s') (hread : told (m.run s) = .ok r)
    (hcs : r.Spares w.source w.comments) :
    ∃ r', told (m.run s') = .ok r'
      ∧ r'.file.map (SourceFile.plain false) = r.file.map (SourceFile.plain false)
      ∧ r'.diagnostics.map Diagnostic.plain = r.diagnostics.map Diagnostic.plain := by
  obtain ⟨hfile, hdiagnostics, hnone⟩ := of_told hread
  have hkept : w.Kept ([] ++ (Show.file w).option.comments (m.run s).1) (m.run s).2 :=
    { found := fun c hc _ => List.mem_append_left _ (hfile ▸ hcs.attached c hc)
      unclosed := fun d hd => hcs.unclosed d (hdiagnostics ▸ List.mem_append_left _ hd) }
  have hclear : w.Clear ((Show.file w).option.ranges (m.run s).1) := by
    rintro g hg i hle hlt ⟨c, hc, hcovers⟩
    obtain ⟨hfrom, hto⟩ := Comment.covers_iff.1 hcovers
    have hapart := hcs.outside c hc g (hfile ▸ hg)
    omega
  obtain ⟨hagree, htwins⟩ := hgoes.agrees hkept s' (hs' (hgoes.kept hkept))
  have hnone' := htwins.goes_iff.2 hnone
  refine ⟨_, by rw [told, hnone'], ?_, ?_⟩
  · rw [hfile]
    exact hagree.view_eq hclear
  · rw [hdiagnostics, List.map_append, List.map_append, htwins.said_eq, htwins.beside.said_eq]
    rfl

end Parse

/-- **Comments never change the parse**, unless they mislead the search for a
closing brace: a source in which some comments are made blank gives the same file,
up to places and comments, and the same diagnostics, up to places. -/
theorem SourceFile.read_blanked {name source : String} {r : Reading} {cs : List Comment}
    (hread : SourceFile.read name source = .ok r) (hcs : r.Spares source.toList cs) :
    ∃ r', SourceFile.read name (String.ofList (blanked cs source.toList)) = .ok r'
      ∧ r'.file.map (SourceFile.plain false) = r.file.map (SourceFile.plain false)
      ∧ r'.diagnostics.map Diagnostic.plain = r.diagnostics.map Diagnostic.plain := by
  rw [read_eq] at hread ⊢
  have hgoes : ∀ w : Blanking, source.toList = w.source →
      Goes w [] [] (Show.file w).option sourceFile sourceFile (ofSource name source) :=
    fun w hw => Parallel.sourceFile (List.Subset.refl _) _ (.ofSource name source) (.ofSource hw)
  -- a first reading in which nothing is made blank shows what the comments are
  have hmarked := marked_of_told (hgoes ⟨source.toList, [], nofun,
    fun _ _ _ _ _ _ hc => absurd hc List.not_mem_nil⟩ rfl) hread
  exact told_of_goes (hgoes ⟨source.toList, cs, fun c hc => hmarked c (hcs.attached c hc),
    hcs.closings⟩ rfl) (Twins.ofSource rfl) hread hcs

/-- A component with a comment behind its brace. -/
def notedCard : String :=
  "package a\n\n@component A() \x7b // note\n\t<p>\x7bx\x7d</p>\n\x7d\n"

/-- Its comment can be made blank. -/
theorem SourceFile.read_blanked_notedCard :
    ∃ r r' c, SourceFile.read "" notedCard = .ok r ∧ r.file.elim [] SourceFile.comments = [c]
      ∧ SourceFile.read "" (String.ofList (blanked [c] notedCard.toList)) = .ok r'
      ∧ r'.file.map (SourceFile.plain false) = r.file.map (SourceFile.plain false)
      ∧ r'.diagnostics.map Diagnostic.plain = r.diagnostics.map Diagnostic.plain := by
  have hrun : (SourceFile.read "" notedCard).toOption.any (fun r => r.diagnostics.isEmpty
      && decide (∃ c ∈ r.file.elim [] SourceFile.comments,
        r.file.elim [] SourceFile.comments = [c] ∧ FindsClosing [c] notedCard.toList
        ∧ ∀ g ∈ r.file.elim [] (SourceFile.ranges notedCard.toList),
          c.endOffset ≤ g.start ∨ g.stop ≤ c.offset)) = true := by
    decide +kernel
  cases hread : SourceFile.read "" notedCard with
  | error i =>
    rw [hread] at hrun
    cases hrun
  | ok r =>
    rw [hread] at hrun
    obtain ⟨hclean, hcomment⟩ := Bool.and_eq_true_iff.1 hrun
    obtain ⟨c, hc, hall, hclosings, houtside⟩ := of_decide_eq_true hcomment
    have hspares : r.Spares notedCard.toList [c] :=
      { attached := fun d hd => List.mem_singleton.1 hd ▸ hc
        outside := fun d hd => List.mem_singleton.1 hd ▸ houtside
        closings := hclosings
        unclosed := fun d hd => by
          rw [List.isEmpty_iff.1 hclean] at hd
          cases hd }
    obtain ⟨r', hread', hfile, hdiagnostics⟩ := read_blanked hread hspares
    exact ⟨r, r', c, rfl, hall, hread', hfile, hdiagnostics⟩

end Gsx
