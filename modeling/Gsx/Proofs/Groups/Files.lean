import Gsx.Proofs.Attachment.Balance
import Gsx.Proofs.Groups.Bodies
/-!
# The groups of a file

Imports have only the comment behind them. A declaration has those in front of it, and a
component those of its body too. The first group of a file is taken in front of the
package word; without this word there is no file. What is left when the input ends is
split at blank lines.
-/

namespace Gsx

namespace Parse

open TokenStream
open Holding (AllOn before behind)

variable {s : TokenStream}

/-! ## Package and imports -/

namespace GoesOn

theorem importName : GoesOn Parse.importName :=
  .next .current fun _ => .ite (.next .advance fun _ => .pure) .pure

theorem param : GoesOn Parse.param :=
  .next .current fun _ => .ite (.next .advance fun _ => .next .goType fun _ => .ite .pure .pure)
    (.next (.report _) fun _ => .pure)

theorem params : GoesOn Parse.params := by
  have hround : GoesOn paramRound := .next .kind fun _ => .ite .pure <| .next .param fun _ =>
    .next .kind fun _ => .ite (.next .advanceLine fun _ => .pure) .pure
  exact .next (.expect _) fun _ => .ite (.next (.repeated hround) fun _ => .next (.expect _)
    fun _ => .ite .pure .pure) .pure

theorem resultName : GoesOn Parse.resultName :=
  .next .current fun _ => .ite (.next .advance fun _ => .pure) .pure

end GoesOn

namespace Acts

/-- The package clause starts with its word. -/
theorem packageName : Acts s Parse.packageName (Perhaps fun _ _ =>
    s.current.kind = .packageWord) :=
  .ofKind <| .ite (fun hkind => .next .advance fun _ _ => .ofCurrent <| .ite
    (fun _ => .next .advanceLine fun _ _ => .something fun _ => hkind)
    fun _ => .next (.report _) fun _ _ => .nothing) fun _ => .next (.report _) fun _ _ => .nothing

theorem importEntry : Acts s Parse.importEntry (Perhaps fun _ i =>
    ∀ g ∈ i.trailing, ∃ c, g.comments = [c]) :=
  .next .position fun _ _ => .next .importName fun _ _ => .next .current fun _ _ => .ite
    (fun _ => .next .advance fun _ _ => (trailingComment _).bind fun _ _ =>
      .pure fun _ hg => .some hg)
    fun _ => .next (.report _) fun _ _ => .nothing

/-- **Behind an import** there is at most one comment. -/
theorem imports : Acts s Parse.imports fun _ is =>
    ∀ i ∈ is, ∀ g ∈ i.trailing, ∃ c, g.comments = [c] := by
  have hgroup : ∀ s, Acts s groupRound fun _ r => ∀ i ∈ r.items,
      ∀ g ∈ i.trailing, ∃ c, g.comments = [c] := fun s =>
    .ofKind <| .ite (fun _ => .pure fun _ _ h => absurd h List.not_mem_nil) fun _ =>
      importEntry.option (fun _ => .next .advanceLine fun _ _ => .pure fun _ _ h =>
        absurd h List.not_mem_nil) fun _ i => .next .skipNewlines fun _ _ => .pure fun _ hi j hj =>
          List.mem_singleton.1 hj ▸ hi
  refine repeated fun s => ?_
  refine .ofKind <| .ite (fun _ => .next .advanceLine fun _ _ => .ofKind <| .ite (fun _ => ?_)
    fun _ => ?_) fun _ => .pure fun _ _ h => absurd h List.not_mem_nil
  · exact .next .advanceLine fun _ _ => (repeated hgroup).bind fun _ _ => .next (.expect _)
      fun _ _ => .next .skipNewlines fun _ _ => .pure fun _ h => h
  · exact importEntry.bind fun _ _ => .next .skipNewlines fun _ _ => .pure fun _ h i hi =>
      h i (Option.mem_toList.1 hi)

/-! ## Declarations -/

/-- A declaration is read, with the groups in it. -/
def AtDeclaration (s : TokenStream) (D : Deed → Prop) (d : Declaration) : Prop :=
  d.position = s.current.position ∧ AllOn D d.holdings

theorem componentBlock (name : String) (ps : List Param) (p : Position) :
    Acts s (Parse.componentBlock name ps p) (Perhaps fun D c =>
      c.position = p ∧ AllOn D c.holdings) := by
  refine .ofGet <| ((actsNest _).block s).option (fun _ => .nothing) fun _ b => .pure ?_
  intro D hb
  simp only [AllOn, Block.holdings, Body.holdings, List.forall_mem_append] at hb
  refine .some ⟨rfl, ?_⟩
  simp only [AllOn, Component.holdings, List.forall_mem_append]
  exact ⟨ActsNest.allOn_before rfl, hb.1, hb.2.2, hb.2.1⟩

theorem component : Acts s Parse.component (Perhaps fun D c =>
    c.position = s.current.position ∧ AllOn D c.holdings) := by
  refine .ofPosition <| .next .advance fun _ _ => .ofCurrent <| .ite (fun _ => .next .advance
    fun _ _ => .next .params fun _ ps => ?_) fun _ => .next (.report _) fun _ _ => .nothing
  cases ps with
  | none => exact .nothing
  | some ps => exact .next .skipNewlines fun _ _ => componentBlock _ _ _

/-- **What `func` declares.** -/
theorem funcDeclaration : Acts s Parse.funcDeclaration (Perhaps (AtDeclaration s)) := by
  have hfunc : ∀ {s₁ : TokenStream}, Acts s₁
      (do return some (.func (← Parse.goFunc s.current.start s.current.position)))
      (Perhaps (AtDeclaration s)) :=
    (goFunc _ _).bind fun _ f => .pure fun _ hf => .some ⟨hf.1, ActsNest.allOn_before hf.2⟩
  refine .ofCurrent <| .next .advance fun _ _ => .ofCurrent <| .ite (fun _ => hfunc) fun _ =>
    .ite (fun _ => .next .advance fun _ _ => .next .params fun _ ps => ?_)
      fun _ => .next (.report _) fun _ _ => .nothing
  cases ps with
  | none => exact .nothing
  | some ps =>
    refine .next .skipNewlines fun _ _ => .next .resultName fun _ _ => .next .skipNewlines
      fun _ _ => .ite (fun _ => ?_) fun _ => hfunc
    exact (componentBlock _ _ _).option (fun _ => .nothing) fun _ c => .pure fun _ hc => .some hc

theorem declaration : Acts s Parse.declaration (Perhaps (AtDeclaration s)) := by
  refine .ofCurrent ?_
  split
  · exact component.option (fun _ => .nothing) fun _ c => .pure fun _ hc => .some hc
  · exact funcDeclaration
  · exact .ite (fun _ => goDecl.bind fun _ d => .pure fun _ hd =>
      .some ⟨hd.1, ActsNest.allOn_before hd.2⟩) fun _ => .next (.report _) fun _ _ => .nothing

/-- **The declarations of a file** have the comments in front of them, whole. -/
theorem declarations : Acts s Parse.declarations fun D ds =>
    ∀ d ∈ ds, AllOn D (.start d.position :: d.holdings) := by
  refine repeated fun s => .next .skipNewlines fun s₁ _ => .ofKind <| .ite
    (fun _ => .pure fun _ _ h => absurd h List.not_mem_nil) fun hthere =>
      .leading fun s₂ g hcurrent => declaration.option (fun _ => .next .recover fun _ _ => .pure fun _ _ _ h =>
        absurd h List.not_mem_nil) fun _ d => .pure fun D hd htake d' hd' => ?_
  obtain rfl := List.mem_singleton.1 hd'
  obtain ⟨hposition, hall⟩ := hd
  rw [hcurrent] at hposition
  rw [Declaration.position_withLeading]
  refine List.forall_mem_cons.2 ⟨⟨s₁.current, _, htake, hthere, hposition.symm⟩, fun x hx => ?_⟩
  rcases Declaration.mem_holdings_withLeading hx with hx | hx
  · obtain ⟨g, hg, rfl⟩ := List.mem_map.1 hx
    rw [Option.mem_toList.1 hg] at htake
    exact ⟨s₁.current, htake, hthere, hposition.symm⟩
  · exact hall x hx

theorem allOn_declarations {D : Deed → Prop} {ds : List Declaration}
    (h : ∀ d ∈ ds, AllOn D (.start d.position :: d.holdings)) :
    (∀ d ∈ ds.filterMap Declaration.decl?,
        AllOn D (.start d.position :: before d.position d.leading))
      ∧ (∀ c ∈ ds.filterMap Declaration.component?, AllOn D (.start c.position :: c.holdings))
      ∧ ∀ f ∈ ds.filterMap Declaration.func?,
        AllOn D (.start f.position :: before f.position f.leading) := by
  refine ⟨fun d hd => ?_, fun c hc => ?_, fun f hf => ?_⟩
  · obtain ⟨x, hx, heq⟩ := List.mem_filterMap.1 hd
    cases x <;> cases heq
    exact h _ hx
  · obtain ⟨x, hx, heq⟩ := List.mem_filterMap.1 hc
    cases x <;> cases heq
    exact h _ hx
  · obtain ⟨x, hx, heq⟩ := List.mem_filterMap.1 hf
    cases x <;> cases heq
    exact h _ hx

/-- **The groups of a file come from a course**, and those at its end are unbroken. -/
theorem sourceFile : Acts s Parse.sourceFile (Perhaps fun D f =>
    AllOn D (f.holdings (Parse.skipNewlines.run s).2.current.position)
      ∧ ∀ g ∈ f.orphans, g.IsUnbroken) := by
  refine .ofPosition <| (GoesOn.skipNewlines s).bindAt ?_
  refine .leading fun s₂ g hcurrent => packageName.option (fun _ => .pure fun _ _ _ => .none)
    fun _ package => .next .skipNewlines fun _ _ => imports.bind fun _ is =>
      .next .skipNewlines fun _ _ => declarations.bind fun _ ds => orphanComments.bind
        fun _ orphans => .next .get fun _ _ => .pure ?_
  intro D horphans hds his hpackage htake _
  obtain ⟨hdecls, hcomponents, hfuncs⟩ := allOn_declarations hds
  -- Comments are taken before the package word is looked for, but at the same token.
  have hthere : (Parse.skipNewlines.run s).2.current.kind ≠ .endOfInput := by
    rw [← hcurrent, hpackage]
    exact nofun
  refine .some ⟨List.forall_mem_cons.2 ⟨⟨_, _, htake, hthere, rfl⟩, ?_⟩, horphans⟩
  simp only [List.forall_mem_append, List.forall_mem_flatMap]
  refine ⟨fun x hx => ?_, fun i hi => Holding.allOn_behind (his i hi), hdecls, hcomponents, hfuncs,
    Holding.allOn_orphans horphans⟩
  obtain ⟨g, hg, rfl⟩ := List.mem_map.1 hx
  rw [Option.mem_toList.1 hg] at htake
  exact ⟨_, htake, hthere, rfl⟩

end Acts

end Parse

end Gsx
