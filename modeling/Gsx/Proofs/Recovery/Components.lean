import Gsx.Proofs.Recovery.Torn
/-!
# Components with notes

A component is read from its head to the brace that closes its block. What its head is
can be told from the head alone, as with the pieces of a body. Over the lines of its
block messages are noted; the brace behind them ends the component all the same.
-/

namespace Gsx.Recovery

open Parse TokenStream

variable {o : Window} {p : Token → Prop} {s x : TokenStream} {source inner head tail : List Char}
  {ms ns : List String} {name : String} {ps : List Param}

/-! ## Heads -/

/-- Reads a name and parameters, behind the word in front of them. -/
def title : Parse (Option (String × List Param)) := do
  advance
  let t ← current
  if t.kind = .identifier then
    advance
    match ← params with
    | some ps =>
      skipNewlines
      return some (t.literal, ps)
    | none => return none
  else return none

/-- Reads a component up to its block: with the directive for components, or as a
function with the result `Element`. -/
def componentHead : Parse (Option (String × List Param)) := do
  match ← kind with
  | .atComponent => title
  | .funcWord =>
    match ← title with
    | some r =>
      let result ← resultName
      skipNewlines
      if result = "Element" then return some r else return none
    | none => return none
  | _ => return none

/-- Reads a component up to the lines of its block. -/
def componentStart : Parse (Option (String × List Param)) := do
  match ← componentHead with
  | some r => if ← blockStart then return some r else return none
  | none => return none

/-- What shows of the head of a component. -/
def showTitle (r : String × List Param) : String × List Param :=
  (r.1, r.2.map Param.plain)

/-- **The head of a component**, with the brace that opens its block. -/
abbrev IsHead (name : String) (ps : List Param) (text : List Char) : Prop :=
  Alone componentStart (fun r => r.map showTitle = some (name, ps)) text

/-- Whether a component has a name and parameters, wherever these stand. -/
def IsTitled (name : String) (ps : List Param) (c : Component) : Prop :=
  c.name = name ∧ c.params.map Param.plain = ps

theorem alike_title : Alike o (Option.map showTitle) title title :=
  Alike.advance.next fun _ => .current fun t => .ite
    (fun _ => Alike.advance.next fun _ => Alike.params.option (.pure rfl) fun _ _ h =>
      Alike.skipNewlines.next fun _ => .pure (congrArg (fun ps => some (t.literal, ps)) h))
    fun _ => .pure rfl

theorem alike_componentHead : Alike o (Option.map showTitle) componentHead componentHead := by
  refine .kind fun k => ?_
  split
  · exact alike_title
  · exact alike_title.option (.pure rfl) fun _ _ h => Alike.resultName.next fun _ =>
      Alike.skipNewlines.next fun _ => .ite (fun _ => .pure (congrArg some h)) fun _ => .pure rfl
  · exact .pure rfl

theorem crosses_componentStart (hcut : o.whole = false) (htidy : o.tidy = false) :
    Crosses o p (·.isSome) (Option.map showTitle) componentStart componentStart := by
  refine .option alike_componentHead (fun _ => .pure_of_not Bool.false_ne_true) fun r r' h => ?_
  refine .andThen (crosses_blockStart hcut htidy) (fun _ => .ite (.pure _) (.pure _))
    (fun s _ hsome => ?_) fun found found' hfound heq => ?_
  · cases hfound : (blockStart.run s).1 with
    | true => rfl
    | false =>
      rw [run_bind_eq hfound] at hsome
      cases hsome
  · cases (show found = found' from heq)
    rw [if_pos hfound, if_pos hfound]
    exact ⟨_, _, rfl, rfl, congrArg some h⟩

theorem leading_componentStart : Leading componentStart :=
  (crosses_componentStart (o := lineWindow) (p := fun _ => True) rfl rfl).leads

/-! ### Behind a head -/

theorem run_title (h : (title.run s).1 = some (name, ps)) :
    s.advanced.current.kind = .identifier ∧ s.advanced.current.literal = name
      ∧ (params.run s.advanced.advanced).1 = some ps
      ∧ (title.run s).2 = (skipNewlines.run (params.run s.advanced.advanced).2).2 := by
  rw [title, run_advance_bind, run_current_bind] at h ⊢
  by_cases hkind : s.advanced.current.kind = .identifier
  · rw [if_pos hkind, run_advance_bind] at h ⊢
    cases hparams : (params.run s.advanced.advanced).1 with
    | none =>
      rw [run_bind_eq hparams] at h
      cases h
    | some qs =>
      rw [run_bind_eq hparams] at h ⊢
      cases h
      exact ⟨hkind, rfl, rfl, rfl⟩
  · rw [if_neg hkind] at h
    cases h

/-- Behind the head of a component its block is read. -/
theorem run_component (h : (title.run s).1 = some (name, ps)) :
    component.run s = (componentBlock name ps s.current.position).run (title.run s).2 := by
  obtain ⟨hkind, rfl, hparams, hbehind⟩ := run_title h
  rw [hbehind, component, run_bind_eq (m := position) rfl, run_position, run_advance_bind,
    run_current_bind, if_pos hkind, run_advance_bind, run_bind_eq hparams]
  rfl

theorem run_funcDeclaration (h : (title.run s).1 = some (name, ps))
    (hresult : (resultName.run (title.run s).2).1 = "Element") :
    funcDeclaration.run s
      = (componentBlock name ps s.current.position >>= fun c => pure (c.map Declaration.component)).run
          (skipNewlines.run (resultName.run (title.run s).2).2).2 := by
  obtain ⟨hkind, rfl, hparams, hbehind⟩ := run_title h
  rw [hbehind] at hresult ⊢
  rw [funcDeclaration, run_current_bind, run_advance_bind, run_current_bind,
    if_neg (by rw [hkind]; decide), if_pos hkind, run_advance_bind, run_bind_eq hparams]
  simp only
  rw [run_bind_eq rfl, run_bind_eq hresult, run_bind_eq rfl, if_pos rfl]

theorem kind_of_componentHead {r : String × List Param}
    (h : (componentHead.run s).1 = some r) :
    s.current.kind = .atComponent ∨ s.current.kind = .funcWord := by
  rw [componentHead, run_kind_bind] at h
  split at h
  · next hkind => exact .inl hkind
  · next hkind => exact .inr hkind
  · cases h

theorem run_declaration (h : (componentHead.run s).1 = some (name, ps)) :
    ∃ place, declaration.run s
      = (componentBlock name ps place >>= fun c => pure (c.map Declaration.component)).run
          (componentHead.run s).2 := by
  rcases kind_of_componentHead h with hkind | hkind
  · have hdeclaration : declaration.run s
        = (component >>= fun c => pure (c.map Declaration.component)).run s := by
      rw [declaration, run_current_bind]
      simp only [hkind]
    rw [componentHead, run_kind_bind, hkind] at h ⊢
    rw [hdeclaration]
    exact ⟨_, by rw [StateT.run_bind, run_component h, StateT.run_bind]⟩
  · have hdeclaration : declaration.run s = funcDeclaration.run s := by
      rw [declaration, run_current_bind]
      simp only [hkind]
    rw [componentHead, run_kind_bind, hkind] at h ⊢
    rw [hdeclaration]
    cases htitle : (title.run s).1 with
    | none =>
      rw [run_bind_eq htitle] at h
      cases h
    | some r =>
      rw [run_bind_eq htitle, run_bind_eq rfl, run_bind_eq rfl] at h ⊢
      by_cases hresult : (resultName.run (title.run s).2).1 = "Element"
      · rw [if_pos hresult] at h ⊢
        cases h
        exact ⟨_, run_funcDeclaration htitle hresult⟩
      · rw [if_neg hresult] at h
        cases h

theorem run_componentStart {r : String × List Param} (h : (componentStart.run s).1 = some r) :
    (componentHead.run s).1 = some r ∧ (blockStart.run (componentHead.run s).2).1 = true
      ∧ (componentStart.run s).2 = (blockStart.run (componentHead.run s).2).2 := by
  rw [componentStart] at h ⊢
  cases hhead : (componentHead.run s).1 with
  | none =>
    rw [run_bind_eq hhead] at h
    cases h
  | some r' =>
    rw [run_bind_eq hhead] at h ⊢
    simp only at h ⊢
    cases hfound : (blockStart.run (componentHead.run s).2).1 with
    | false =>
      rw [run_bind_eq hfound] at h
      cases h
    | true =>
      rw [run_bind_eq hfound] at h ⊢
      cases h
      exact ⟨rfl, rfl, rfl⟩

/-! ## Components -/

theorem run_componentBlock {b : Block} (hb : ((block s.depth).run s).1 = some b)
    (place : Position) : (componentBlock name ps place).run s
      = (some ⟨name, ps, b.body.nodes, false, place, none, b.trailing, b.body.orphans⟩,
          ((block s.depth).run s).2) := by
  rw [componentBlock, StateT.run_bind, StateT.run_get, pure_bind, run_bind_eq hb]
  rfl

/-- **A component** is its head, the body of its block and the brace that closes it. -/
theorem exists_component {d : Nat} (h : (componentStart.run s).1 = some (name, ps))
    (hdepth : (componentHead.run s).2.depth = d + 2) {u : TokenStream}
    (hu : u = ((body (d + 1)).run (componentStart.run s).2).2)
    (hbrace : u.current.kind = .rightBrace) :
    ∃ c, c.name = name ∧ c.params = ps
      ∧ declaration.run s = (some (.component c), ((expectLine .rightBrace).run u).2) := by
  obtain ⟨hhead, hstart, hbehind⟩ := run_componentStart h
  obtain ⟨place, hrun⟩ := run_declaration hhead
  rw [hbehind] at hu
  obtain ⟨hsome, hblock⟩ := run_block hstart hu
  have hfound : ((expectLine .rightBrace).run u).1 = true := by
    rw [expectLine, StateT.run_bind, run_expect hbrace]
    rfl
  obtain ⟨b, hb⟩ := Option.isSome_iff_exists.1 (hsome.trans hfound)
  rw [← hdepth] at hb hblock
  refine ⟨⟨name, ps, b.body.nodes, false, place, none, b.trailing, b.body.orphans⟩, rfl, rfl, ?_⟩
  rw [hrun, ← hblock, StateT.run_bind, run_componentBlock hb]
  rfl

theorem IsHead.kind_eq (h : IsHead name ps head) :
    (entry head).current.kind = .atComponent ∨ (entry head).current.kind = .funcWord := by
  obtain ⟨r, hstart, -⟩ := Option.map_eq_some_iff.1 h.gives
  exact kind_of_componentHead (run_componentStart hstart).1

theorem IsHead.begins (h : IsHead name ps head) : Begins head := by
  refine Alone.begins h leading_componentStart ?_
  rcases h.kind_eq with hkind | hkind <;> rw [hkind] <;> decide

/-- With the head of a component a file goes on, and not with an import. -/
theorem IsHead.kind_ne_import (h : IsHead name ps head) (rest : List Char) :
    (entry (head ++ rest)).current.kind ≠ .importWord := by
  rw [h.begins.kind_eq]
  rcases h.kind_eq with hkind | hkind <;> rw [hkind] <;> decide

/-- The depth for the body of a component is enough for what is left. -/
theorem IsHead.le_depth (h : IsHead name ps head) (hs : Holds source ns (head ++ inner) s) :
    4 * left inner + 5 ≤ (componentHead.run s).2.depth := by
  have hleads : Leading componentHead := (alike_componentHead (o := lineWindow)).leads
  have hdepth : (componentHead.run s).2.depth = s.depth := by
    rw [depth, depth, (hleads s).source_eq hs.lined]
  have hle := hs.depth_le
  have hleft := h.begins.left_append inner
  have htwo := h.begins.two_le_left
  have hinner := left_le inner
  omega

/-- **A component is found** in the round that comes to it, whatever is noted over its
lines. -/
theorem IsHead.exists_declarationRound (h : IsHead name ps head)
    (hs : Holds source ns (head ++ (inner ++ tail)) x) (htail : Stops false tail)
    (hinner : ∀ d, 4 * left (inner ++ tail) + 3 ≤ d →
      NotesNodes source false d (inner ++ tail) ms tail) :
    ∃ c t, IsTitled name ps c ∧ Holds source (ns ++ ms) tail t
      ∧ declarationRound.run x
          = (.more [.component c], ((expectLine .rightBrace).run (orphanComments.run t).2).2) := by
  have hy := hs.leadingComments
  have hsome : ∀ r : Option (String × List Param), r.map showTitle = some (name, ps) → r.isSome :=
    fun r hr => by rw [← Option.isSome_map, hr]; rfl
  obtain ⟨heq, hbehind⟩ := hy.run h h.begins.there leading_componentStart fun o hcut htidy _ =>
    (crosses_componentStart hcut htidy).of (fun _ => id) hsome
  rw [h.gives] at heq
  obtain ⟨⟨name', ps'⟩, hstart, htitle⟩ := Option.map_eq_some_iff.1 heq.symm
  obtain ⟨rfl, rfl⟩ := Prod.mk.inj htitle
  have henough := h.le_depth hy
  obtain ⟨d, hd⟩ : ∃ d, (componentHead.run (leadingComments.run x).2).2.depth = d + 2 :=
    ⟨(componentHead.run (leadingComments.run x).2).2.depth - 2, by omega⟩
  obtain ⟨t, ht, hbody⟩ := (hinner d (by omega)).exists_readBody hbehind
  have hbrace : (orphanComments.run t).2.current.kind = .rightBrace :=
    ht.orphanComments.kind_eq.trans (htail.resolve_right fun hc => absurd hc.1 Bool.false_ne_true)
  obtain ⟨c, rfl, hps, hrun⟩ := exists_component hstart hd hbody.symm hbrace
  refine ⟨{ c with leading := (leadingComments.run x).1 }, t, ⟨rfl, congrArg _ hps⟩, ht, ?_⟩
  have hthere : ¬ (skipNewlines.run x).2.current.kind = .endOfInput := by
    rw [skipNewlines_eq hs.kind_ne, hs.kind_eq, h.begins.kind_eq]
    exact h.begins.there
  rw [declarationRound, run_bind_eq rfl, run_kind_bind, if_neg hthere, run_bind_eq rfl,
    skipNewlines_eq hs.kind_ne, run_bind_eq (congrArg Prod.fst hrun), hrun]
  rfl

end Gsx.Recovery
