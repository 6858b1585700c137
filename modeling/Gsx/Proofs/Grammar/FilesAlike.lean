import Gsx.Proofs.Grammar.BodiesAlike
/-!
# Declarations go alike

The outer readers: package clause and imports, parameters, components, functions
and declarations, with the restarts after an error. So the declarations of a text that goes up to the end
of a source are the same wherever the text stands.
-/

namespace Gsx.Parse

open TokenStream

variable {o : Window}

namespace Alike

/-! ## Package and imports -/

theorem packageName : Alike o id Parse.packageName Parse.packageName :=
  kind fun _ => ite
    (fun _ => advance.next fun _ => current fun _ => ite
      (fun _ => advanceLine.next fun _ => .pure rfl)
      fun _ => (report _).next fun _ => .pure rfl)
    fun _ => (report _).next fun _ => .pure rfl

theorem importName : Alike o id Parse.importName Parse.importName :=
  current fun _ => ite (fun _ => advance.next fun _ => .pure rfl) fun _ => .pure rfl

/-- What shows of an import. -/
abbrev showImport (i : Import) : String × String :=
  (i.localName, i.path)

theorem importEntry : Alike o (Option.map showImport) Parse.importEntry Parse.importEntry :=
  position fun _ => importName.next fun _ => current fun t => ite
    (fun _ => advance.next fun _ => (trailingComment t.position.line).bind fun _ _ _ => .pure rfl)
    fun _ => (report _).next fun _ => .pure rfl

theorem groupRound : Alike o (showRound showImport) Parse.groupRound Parse.groupRound :=
  kind fun _ => ite (fun _ => .pure rfl) fun _ => importEntry.option
    (advanceLine.next fun _ => .pure rfl)
    fun _ _ h => skipNewlines.next fun _ => .pure (congrArg (fun i => ([i], true)) h)

theorem importRound : Alike o (showRound showImport) Parse.importRound Parse.importRound := by
  refine kind fun _ => ite (fun _ => advanceLine.next fun _ => kind fun _ => ite (fun _ => ?_)
    fun _ => ?_) fun _ => .pure rfl
  · exact advanceLine.next fun _ => (repeated groupRound).bind fun _ _ h => (expect _).next fun _ =>
      skipNewlines.next fun _ => .pure (congrArg (·, true) h)
  · exact importEntry.bind fun _ _ h => skipNewlines.next fun _ =>
      .pure (congrArg (·, true) (toList_map_eq h))

/-! ## Components and functions -/

theorem param : Alike o (Option.map Param.plain) Parse.param Parse.param :=
  current fun _ => ite
    (fun _ => advance.next fun _ => goType.next fun _ => ite (fun _ => .pure rfl)
      fun _ => .pure rfl)
    fun _ => (report _).next fun _ => .pure rfl

theorem paramRound : Alike o (showRound Param.plain) Parse.paramRound Parse.paramRound :=
  kind fun _ => ite (fun _ => .pure rfl) fun _ => param.bind fun _ _ h => kind fun _ =>
    ite (fun _ => advanceLine.next fun _ => .pure (congrArg (·, true) (toList_map_eq h)))
      fun _ => .pure (congrArg (·, false) (toList_map_eq h))

theorem params : Alike o (Option.map (List.map Param.plain)) Parse.params Parse.params :=
  (expect _).next fun _ => ite
    (fun _ => (repeated paramRound).bind fun _ _ h => (expect _).next fun _ =>
      ite (fun _ => .pure (congrArg some h)) fun _ => .pure rfl)
    fun _ => .pure rfl

/-- What shows of a component that may be missing. -/
abbrev showComponent (o : Window) : Option Component → Option Component :=
  Option.map (Component.plain o.tidy)

/-- What shows of a declaration that may be missing. -/
abbrev showDeclaration (o : Window) : Option Declaration → Option Declaration :=
  Option.map (Declaration.plain o.tidy)

theorem componentBlock (name : String) {ps ps' : List Param}
    (hps : ps.map Param.plain = ps'.map Param.plain) (p p' : Position) :
    Alike o (showComponent o) (Parse.componentBlock name ps p)
      (Parse.componentBlock name ps' p') := by
  refine depth fun _ _ hle => ?_
  refine (alikeAt o hle).block.option (.pure rfl) fun b b' hb => .pure ?_
  exact congrArg₂ (fun ps (b : Block) => some (Component.mk name ps b.body.nodes false .nowhere
    (plainGroup o.tidy none) b.trailing b.body.orphans)) hps hb

theorem component : Alike o (showComponent o) Parse.component Parse.component :=
  position fun _ => advance.next fun _ => current fun _ => ite
    (fun _ => advance.next fun _ => params.option (.pure rfl) fun _ _ h =>
      skipNewlines.next fun _ => componentBlock _ h _ _)
    fun _ => (report _).next fun _ => .pure rfl

theorem resultName : Alike o id Parse.resultName Parse.resultName :=
  current fun _ => ite (fun _ => advance.next fun _ => .pure rfl) fun _ => .pure rfl

theorem func (start : Nat) (p p' : Position) :
    Alike o (showDeclaration o)
      (Parse.goFunc start p >>= fun f => return some (.func f))
      (Parse.goFunc (o.before.length + start) p' >>= fun f => return some (.func f)) :=
  (goFunc start p p').bind fun _ _ h =>
    .pure (congrArg (fun f => some (Declaration.func f)) h)

theorem map_component_eq {c c' : Option Component}
    (h : showComponent o c = showComponent o c') :
    showDeclaration o (c.map .component) = showDeclaration o (c'.map .component) := by
  have hmap := congrArg (Option.map Declaration.component) h
  cases c <;> cases c' <;> exact hmap

theorem funcDeclaration :
    Alike o (showDeclaration o) Parse.funcDeclaration Parse.funcDeclaration := by
  refine current fun f => advance.next fun _ => current fun t => ite (fun _ => func _ _ _)
    fun _ => ite (fun _ => ?_) fun _ => (report _).next fun _ => .pure rfl
  refine advance.next fun _ => params.option (.pure rfl) fun ps ps' hps =>
    skipNewlines.next fun _ => resultName.next fun _ => skipNewlines.next fun _ =>
      ite (fun _ => ?_) fun _ => func _ _ _
  exact (componentBlock _ hps _ _).bind fun _ _ h => .pure (map_component_eq h)

/-! ## Declarations -/

theorem declaration : Alike o (showDeclaration o) Parse.declaration Parse.declaration := by
  refine current fun t => ?_
  simp only [Window.token]
  split
  · exact component.bind fun _ _ h => .pure (map_component_eq h)
  · exact funcDeclaration
  · refine ite (fun _ => ?_) fun _ => (report _).next fun _ => .pure rfl
    exact goDecl.bind fun _ _ h => .pure (congrArg (fun d => some (Declaration.decl d)) h)

theorem recover : Alike o id Parse.recover Parse.recover := by
  refine current fun _ => (skipWhile fun _ => rfl).next fun _ => ⟨fun s => ?_, fun s s' hs _ => ?_⟩
  · exact .of_note rfl rfl rfl id id id
  · exact ⟨rfl, hs.recovered _ _⟩

theorem declarationRound :
    Alike o (showRound (Declaration.plain o.tidy)) Parse.declarationRound
      Parse.declarationRound := by
  refine skipNewlines.next fun _ => kind fun _ => ite (fun _ => .pure rfl) fun _ =>
    leadingComments.bind fun g g' hg => declaration.option (recover.next fun _ => .pure rfl)
      fun d d' hd => .pure ?_
  simp only [showRound, Round.more, List.map_cons, Declaration.plain_withLeading, hd, hg,
    List.map_nil]

theorem declarations :
    Alike o (List.map (Declaration.plain o.tidy)) Parse.declarations Parse.declarations :=
  repeated declarationRound

end Alike

end Gsx.Parse
