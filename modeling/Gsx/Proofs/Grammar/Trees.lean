import Gsx.Proofs.Attributes
import Gsx.Proofs.Grammar.Invariant
/-!
# Trees under an invariant

What the readers of the grammar give, one by one, from attributes up to the
file: under an invariant of reading, every value of an attribute in the tree
and every Go statement in it are such as the invariant says.
-/

namespace Gsx

/-! ## The statements of a body -/

mutual

/-- The Go statements in a node. -/
def Node.statements : Node → List GoCode
  | .element _ cs => Node.statementsOf cs
  | .letBinding _ _ cs => Node.statementsOf cs
  | .forLoop _ b => Node.statementsOf b
  | .conditional _ t e => Node.statementsOf t ++ Node.statementsOf e
  | .call _ cs => Node.statementsOf cs
  | .goCode c => [c]
  | .slot _ | .expression _ | .letReference _ | .text _ => []

/-- The Go statements in a body, at any depth. -/
def Node.statementsOf : List Node → List GoCode
  | [] => []
  | n :: ns => n.statements ++ Node.statementsOf ns

end

/-- The Go statements in the components of a file. -/
def SourceFile.statements (f : SourceFile) : List GoCode :=
  f.components.flatMap fun c => Node.statementsOf c.body

namespace Parse

/-! ## Leaves -/

/-- **Leaves under an invariant**: attributes and statements such as it says. -/
structure Invariant.Leaves (I : Invariant) (as : List Attribute) (cs : List GoCode) : Prop where
  values : ∀ a ∈ as, I.value a.value a.valuePosition
  statements : ∀ c ∈ cs, I.statement c.code c.position

namespace Invariant

variable {I : Invariant} {as bs : List Attribute} {cs ds : List GoCode}

theorem Leaves.nil : I.Leaves [] [] :=
  ⟨fun _ ha => absurd ha List.not_mem_nil, fun _ hc => absurd hc List.not_mem_nil⟩

theorem Leaves.append (h : I.Leaves as cs) (h' : I.Leaves bs ds) :
    I.Leaves (as ++ bs) (cs ++ ds) :=
  ⟨fun a ha => (List.mem_append.1 ha).elim (h.values a) (h'.values a),
    fun c hc => (List.mem_append.1 hc).elim (h.statements c) (h'.statements c)⟩

theorem Leaves.of_attributes (h : ∀ a ∈ as, I.value a.value a.valuePosition) :
    I.Leaves as [] :=
  ⟨h, fun _ hc => absurd hc List.not_mem_nil⟩

theorem Leaves.of_statement {c : GoCode} (h : I.statement c.code c.position) : I.Leaves [] [c] :=
  ⟨fun _ ha => absurd ha List.not_mem_nil, fun _ hc => List.mem_singleton.1 hc ▸ h⟩

/-- A node with such leaves. -/
abbrev IsNode (I : Invariant) (n : Node) : Prop :=
  I.Leaves n.attributes n.statements

/-- A body with such leaves. -/
abbrev IsBody (I : Invariant) (ns : List Node) : Prop :=
  I.Leaves (Node.attributesOf ns) (Node.statementsOf ns)

theorem IsNode.withLeading {n : Node} (h : I.IsNode n) (g : CommentGroup) :
    I.IsNode (n.withLeading g) := by
  refine ⟨?_, ?_⟩
  · rw [Node.attributes_withLeading]
    exact h.values
  · cases n with
    | goCode c => exact fun c' hc' => List.mem_singleton.1 hc' ▸ h.statements c (List.mem_singleton_self c)
    | element | letBinding | forLoop | conditional | call | slot | expression | letReference
    | text => exact h.statements

end Invariant

variable {I : Invariant}

/-! ## Attributes -/

namespace Sound

theorem floatValue (literal : String) : Safe I (floatValue literal) := by
  rw [Parse.floatValue]
  cases FloatLiteral.value? literal with
  | some x => exact .safe
  | none => exact .next (.report _) fun _ => .safe

theorem attributeValue : Sound I attributeValue fun r => ∀ v ∈ r, I.value v.1 v.2 := by
  have hvalue : ∀ {v : AttributeValue} {p : Position}, I.value v p →
      Sound I (Pure.pure (some (v, p)) : Parse (Option (AttributeValue × Position)))
        fun r => ∀ v ∈ r, I.value v.1 v.2 := fun h => .something h
  refine .ofCurrent fun s hs => ?_
  split
  · next hkind => exact Sound.next .advance (fun _ => hvalue (I.quoted hkind hs)) s hs
  · next hkind =>
    -- the conversion keeps the invariant at this token
    have hconverted : SoundAt I s (intValue s.current.literal) fun _ => True :=
      ⟨I.converted hkind hs, trivial⟩
    exact bindAt hconverted fun _ _ => .next .advance fun _ => hvalue (I.plain rfl)
  · exact Sound.next (.floatValue _) (fun _ => .next .advance fun _ => hvalue (I.plain rfl)) s hs
  · refine Sound.next .goExpr (fun e => ?_) s hs
    cases e with
    | some e => exact hvalue (I.plain rfl)
    | none => exact .nothing
  · exact Sound.next .advance (fun _ => .ite (hvalue (I.plain rfl))
      (.ite (hvalue (I.plain rfl)) (hvalue (I.plain rfl)))) s hs
  · exact Sound.next (.report _) (fun _ => .nothing) s hs

theorem attr : Sound I attr fun r => ∀ a ∈ r, I.value a.value a.valuePosition := by
  refine .next .current fun t => .next .advance fun _ => .next .kind fun _ => .ite ?_
    (.something (I.plain rfl))
  refine .next .advance fun _ => .bind .attributeValue fun v hv => ?_
  cases v with
  | some v => exact .something (hv v rfl)
  | none => exact .nothing

theorem attributes :
    Sound I attributes fun as => ∀ a ∈ as, I.value a.value a.valuePosition := by
  refine .repeated (.next .skipNewlines fun _ => .next .kind fun _ => .ite ?_ (.pure nofun))
  exact .bind .attr fun a ha => .pure fun b hb => ha b (Option.mem_toList.1 hb)

/-- Taking out the key takes away at most an attribute. -/
theorem splitKey_subset (as : List Attribute) : (splitKey as).2 ⊆ as := by
  induction as with
  | nil => exact List.Subset.refl _
  | cons a rest ih =>
    rw [splitKey]
    split
    · exact List.subset_cons_self _ _
    · exact List.cons_subset_cons _ ih

theorem text : Safe I text :=
  .next .position fun _ => .next (.scan _ _) fun _ => .safe

/-! ## Nodes -/

theorem expressionNode : Sound I expressionNode fun r => ∀ n ∈ r, I.IsNode n := by
  refine .next .goExpr fun e => ?_
  cases e with
  | none => exact .nothing
  | some e => exact .ite (.something .nil) (.something .nil)

theorem loopVariable (f : GrammarFault) : Safe I (loopVariable f) :=
  .next .current fun _ => .ite (.next .advance fun _ => .safe) (.next (.report _) fun _ => .safe)

theorem loopVariables : Safe I loopVariables := by
  refine .next (.loopVariable _) fun first => ?_
  cases first with
  | none => exact .safe
  | some first =>
    refine .next .kind fun _ => .ite (.next .advance fun _ => .next (.loopVariable _) fun second => ?_)
      .safe
    cases second <;> exact .safe

theorem forHead : Safe I forHead := by
  refine .next .position fun _ => .next .advance fun _ => .next .loopVariables fun v => ?_
  cases v with
  | none => exact .safe
  | some v =>
    exact .next (.expect _) fun _ => .ite (.next .kind fun _ => .ite
      (.next .advance fun _ => .next .goHeader fun _ => .next .skipNewlines fun _ => .safe)
      (.next (.report _) fun _ => .safe)) .safe

theorem callHead : Safe I callHead :=
  .next .current fun _ => .next .advance fun _ => .next (.expect _) fun _ => .ite
    (.next .goArguments fun _ => .next (.expect _) fun _ => .ite
      (.next .skipNewlines fun _ => .safe) .safe) .safe

theorem letHead : Safe I letHead :=
  .next .position fun _ => .next .advance fun _ => .next .current fun _ => .ite
    (.next .advance fun _ => .next (.expectLine _) fun _ => .ite .safe .safe)
    (.next (.report _) fun _ => .safe)

theorem refName : Safe I refName :=
  .next .kind fun _ => .ite (.next .advance fun _ => .next .current fun _ => .ite
    (.next .advance fun _ => .safe) (.next (.report _) fun _ => .safe)) .safe

theorem elementHead :
    Sound I elementHead
      fun r => ∀ h ∈ r, ∀ a ∈ h.attributes, I.value a.value a.valuePosition := by
  refine .next .position fun _ => .next .advance fun _ => .next .current fun _ => .ite
    (.next .advance fun _ => .next .refName fun ref => ?_) (.next (.report _) fun _ => .nothing)
  cases ref with
  | none => exact .nothing
  | some ref =>
    exact .bind .attributes fun as has => .something fun a ha => has a (splitKey_subset as ha)

theorem closingName (tag : String) : Safe I (closingName tag) :=
  .next .current fun _ => .ite .advance (.next (.report _) fun _ => .ite .advance .safe)

theorem closingTag (tag : String) : Safe I (closingTag tag) :=
  .next .kind fun _ => .ite (.next .advance fun _ => .next (.closingName _) fun _ =>
    .next .position fun _ => .next (.expect _) fun _ => .ite
      (.next (.trailingComment _) fun _ => .next .skipNewlines fun _ => .safe) .safe)
    (.next (.report _) fun _ => .safe)

end Sound

/-! ## Bodies -/

/-- A part of a body under an invariant. -/
def Invariant.IsPart (I : Invariant) (p : Body.Part) : Prop :=
  ∀ n ∈ p.node, I.IsNode n

theorem Invariant.IsPart.push {p : Body.Part} {b : Body} (hp : I.IsPart p)
    (hb : I.IsBody b.nodes) : I.IsBody (Body.push p b).nodes := by
  obtain ⟨leading, node⟩ := p
  cases node with
  | none => cases leading <;> exact hb
  | some n =>
    have hn : I.IsNode n := hp n rfl
    cases leading with
    | none => exact hn.append hb
    | some g => exact (hn.withLeading g).append hb

theorem Invariant.isBody_ofParts {ps : List Body.Part} (orphans : List CommentGroup)
    (h : ∀ p ∈ ps, I.IsPart p) : I.IsBody (Body.ofParts ps orphans).nodes := by
  induction ps with
  | nil => exact .nil
  | cons p ps ih =>
    obtain ⟨hp, hps⟩ := List.forall_mem_cons.1 h
    exact hp.push (ih hps)

namespace Sound

theorem nodes (ends : Token → Bool) {node : Parse (Option Node)}
    (h : Sound I node fun r => ∀ n ∈ r, I.IsNode n) :
    Sound I (nodes ends node) fun b => I.IsBody b.nodes := by
  have hround : Sound I (bodyRound ends node) fun r => ∀ p ∈ r.items, I.IsPart p :=
    .next .skipNewlines fun _ => .next .current fun _ => .ite (.pure nofun)
      (.next .leadingComments fun leading => .bind h fun n hn => .pure fun p hp => by
        rw [List.mem_singleton.1 hp]
        exact hn)
  exact .bind (.repeated hround) fun parts hparts => .next .orphanComments fun orphans =>
    .pure (Invariant.isBody_ofParts orphans hparts)

theorem tooDeep {α : Type} {p : α → Prop} {a : α} (h : p a) : Sound I (tooDeep a) p :=
  .next .exhaust fun _ => .pure h

end Sound

/-- **The nested readers at a depth** are sound for an invariant. -/
structure SoundNest (I : Invariant) (d : Nat) : Prop where
  body : Sound I (body d) fun b => I.IsBody b.nodes
  bodyNode : Sound I (bodyNode d) fun r => ∀ n ∈ r, I.IsNode n
  markup : Sound I (markup d) fun r => ∀ n ∈ r, I.IsNode n
  content : Sound I (content d) fun b => I.IsBody b.nodes
  contentNode : Sound I (contentNode d) fun r => ∀ n ∈ r, I.IsNode n
  element : Sound I (element d) fun r => ∀ e ∈ r, I.Leaves e.1.attributes [] ∧ I.IsBody e.2
  block : Sound I (block d) fun r => ∀ b ∈ r, I.IsBody b.body.nodes
  forLoop : Sound I (forLoop d) fun r => ∀ n ∈ r, I.IsNode n
  conditional : Sound I (conditional d) fun r => ∀ n ∈ r, I.IsNode n
  elseBranch : Sound I (elseBranch d) fun b => I.IsBody b.nodes
  call : Sound I (call d) fun r => ∀ n ∈ r, I.IsNode n

namespace SoundNest

theorem zero : SoundNest I 0 where
  body := .tooDeep .nil
  bodyNode := .tooDeep nofun
  markup := .tooDeep nofun
  content := .tooDeep .nil
  contentNode := .tooDeep nofun
  element := .tooDeep nofun
  block := .tooDeep nofun
  forLoop := .tooDeep nofun
  conditional := .tooDeep nofun
  elseBranch := .tooDeep .nil
  call := .tooDeep nofun

variable {d : Nat} (ih : SoundNest I d)

include ih

/-- **A statement comes into the tree** here, and only here. -/
theorem succ_bodyNode : Sound I (Parse.bodyNode (d + 1)) fun r => ∀ n ∈ r, I.IsNode n := by
  rw [Parse.bodyNode]
  refine .ofKind fun s hs => ?_
  split
  case h_7 =>
    split
    · next hstart =>
      have hcapture : SoundAt I s goStatement fun c => I.statement c.code c.position :=
        ⟨(Sound.goStatement s hs).1, I.captured hstart hs⟩
      exact Sound.bindAt hcapture fun c hc => .something (.of_statement hc)
    · exact Sound.next (.report _) (fun _ => .next .advance fun _ => .nothing) s hs
  all_goals exact ih.markup s hs

theorem succ_contentNode : Sound I (Parse.contentNode (d + 1)) fun r => ∀ n ∈ r, I.IsNode n := by
  rw [Parse.contentNode]
  refine .next .kind fun k => ?_
  split
  case h_7 =>
    exact .ite (.next .text fun t => .something .nil) (.next .advance fun _ => .nothing)
  all_goals exact ih.markup

theorem succ_markup : Sound I (Parse.markup (d + 1)) fun r => ∀ n ∈ r, I.IsNode n := by
  rw [Parse.markup]
  refine .next .kind fun k => ?_
  split
  · refine .bind ih.element fun e he => ?_
    cases e with
    | none => exact .nothing
    | some e => exact .something ((he e rfl).1.append (he e rfl).2)
  · refine .next .letHead fun h => ?_
    cases h with
    | none => exact .nothing
    | some h =>
      refine .next .kind fun _ => .ite (.bind ih.element fun e he => ?_)
        (.next (.report _) fun _ => .nothing)
      cases e with
      | none => exact .nothing
      | some e => exact .something ((he e rfl).1.append (he e rfl).2)
  · exact ih.forLoop
  · exact ih.conditional
  · exact ih.call
  · exact .expressionNode

theorem succ_element : Sound I (Parse.element (d + 1))
    fun r => ∀ e ∈ r, I.Leaves e.1.attributes [] ∧ I.IsBody e.2 := by
  rw [Parse.element]
  refine .bind .elementHead fun h hh => ?_
  cases h with
  | none => exact .nothing
  | some h =>
    have hleaves : I.Leaves h.attributes [] := .of_attributes (hh h rfl)
    exact .next .current fun t => .ite
      (.next .advanceLine fun _ => .next (.trailingComment _) fun _ => .something ⟨hleaves, .nil⟩)
      (.next (.expect _) fun _ => .ite
        (.bind ih.content fun b hb => .next (.closingTag _) fun _ => .something ⟨hleaves, hb⟩)
        .nothing)

theorem succ_block : Sound I (Parse.block (d + 1)) fun r => ∀ b ∈ r, I.IsBody b.body.nodes := by
  rw [Parse.block]
  exact .next .position fun _ => .next (.expect _) fun _ => .ite
    (.next (.trailingComment _) fun _ => .next .skipNewlines fun _ => .bind ih.body fun b hb =>
      .next (.expectLine _) fun _ => .ite (.something hb) .nothing) .nothing

theorem succ_forLoop : Sound I (Parse.forLoop (d + 1)) fun r => ∀ n ∈ r, I.IsNode n := by
  rw [Parse.forLoop]
  refine .next .forHead fun h => ?_
  cases h with
  | none => exact .nothing
  | some h =>
    refine .bind ih.block fun b hb => ?_
    cases b with
    | none => exact .nothing
    | some b => exact .something (hb b rfl)

theorem succ_conditional :
    Sound I (Parse.conditional (d + 1)) fun r => ∀ n ∈ r, I.IsNode n := by
  rw [Parse.conditional]
  refine .next .position fun _ => .next .advance fun _ => .next .goHeader fun _ =>
    .next .skipNewlines fun _ => .bind ih.block fun b hb => ?_
  cases b with
  | none => exact .nothing
  | some b => exact .bind ih.elseBranch fun x hx => .something ((hb b rfl).append hx)

theorem succ_elseBranch : Sound I (Parse.elseBranch (d + 1)) fun b => I.IsBody b.nodes := by
  rw [Parse.elseBranch]
  refine .next .kind fun _ => .ite (.next .advanceLine fun _ => .next .kind fun _ => .ite
    (.bind ih.conditional fun n hn => .pure ?_) (.next (.expect _) fun _ => .ite
      (.next .skipNewlines fun _ => .bind ih.body fun b hb => .next (.expectLine _) fun _ =>
        .pure hb) (.pure .nil))) (.pure .nil)
  cases n with
  | none => exact .nil
  | some n => exact (hn n rfl).append .nil

theorem succ_call : Sound I (Parse.call (d + 1)) fun r => ∀ n ∈ r, I.IsNode n := by
  rw [Parse.call]
  refine .next .callHead fun h => ?_
  cases h with
  | none => exact .nothing
  | some h =>
    exact .next .kind fun _ => .ite (.next .advanceLine fun _ => .bind ih.body fun b hb =>
      .next (.expectLine _) fun _ => .ite (.something hb) .nothing) (.something .nil)

end SoundNest

/-- **The nested readers are sound** for every invariant, one depth after the
other. -/
theorem soundNest (d : Nat) : SoundNest I d := by
  induction d with
  | zero => exact .zero
  | succ d ih =>
    exact
      { body := by
          rw [body]
          exact .nodes _ ih.bodyNode
        bodyNode := ih.succ_bodyNode
        markup := ih.succ_markup
        content := by
          rw [content]
          exact .nodes _ ih.contentNode
        contentNode := ih.succ_contentNode
        element := ih.succ_element
        block := ih.succ_block
        forLoop := ih.succ_forLoop
        conditional := ih.succ_conditional
        elseBranch := ih.succ_elseBranch
        call := ih.succ_call }

/-! ## Files -/

namespace Sound

theorem importName : Safe I importName :=
  .next .current fun _ => .ite (.next .advance fun _ => .safe) .safe

theorem importEntry : Safe I importEntry :=
  .next .position fun _ => .next .importName fun _ => .next .current fun _ => .ite
    (.next .advance fun _ => .next (.trailingComment _) fun _ => .safe)
    (.next (.report _) fun _ => .safe)

theorem groupRound : Safe I groupRound := by
  refine .next .kind fun _ => .ite .safe (.next .importEntry fun entry => ?_)
  cases entry with
  | some entry => exact .next .skipNewlines fun _ => .safe
  | none => exact .next .advanceLine fun _ => .safe

theorem importRound : Safe I importRound :=
  .next .kind fun _ => .ite (.next .advanceLine fun _ => .next .kind fun _ => .ite
    (.next .advanceLine fun _ => .next (.safeRepeated .groupRound) fun _ =>
      .next (.expect _) fun _ => .next .skipNewlines fun _ => .safe)
    (.next .importEntry fun _ => .next .skipNewlines fun _ => .safe)) .safe

theorem imports : Safe I imports :=
  .safeRepeated .importRound

theorem param : Safe I param :=
  .next .current fun _ => .ite (.next .advance fun _ => .next .goType fun _ =>
    .ite .safe .safe) (.next (.report _) fun _ => .safe)

theorem paramRound : Safe I paramRound :=
  .next .kind fun _ => .ite .safe (.next .param fun _ =>
    .next .kind fun _ => .ite (.next .advanceLine fun _ => .safe) .safe)

theorem params : Safe I params :=
  .next (.expect _) fun _ => .ite (.next (.safeRepeated .paramRound) fun _ =>
    .next (.expect _) fun _ => .ite .safe .safe) .safe

theorem componentBlock (name : String) (ps : List Param) (p : Position) :
    Sound I (componentBlock name ps p) fun r => ∀ c ∈ r, I.IsBody c.body := by
  refine .bind .get fun s _ => .bind (soundNest s.depth).block fun b hb => ?_
  cases b with
  | none => exact .nothing
  | some b => exact .something (hb b rfl)

theorem component : Sound I component fun r => ∀ c ∈ r, I.IsBody c.body := by
  refine .next .position fun _ => .next .advance fun _ => .next .current fun t => .ite
    (.next .advance fun _ => .next .params fun ps => ?_) (.next (.report _) fun _ => .nothing)
  cases ps with
  | none => exact .nothing
  | some ps => exact .next .skipNewlines fun _ => .componentBlock _ _ _

theorem resultName : Safe I resultName :=
  .next .current fun _ => .ite (.next .advance fun _ => .safe) .safe

end Sound

/-- A declaration under an invariant: of a component the body is. -/
def Invariant.IsDeclaration (I : Invariant) (d : Declaration) : Prop :=
  ∀ c ∈ d.component?, I.IsBody c.body

namespace Sound

/-- A component as a declaration. -/
theorem map_component {r : Parse (Option Component)}
    (h : Sound I r fun r => ∀ c ∈ r, I.IsBody c.body) :
    Sound I (do return (← r).map Declaration.component) fun r => ∀ d ∈ r, I.IsDeclaration d := by
  refine .bind h fun r hr => .pure fun d hd c' hc' => ?_
  cases r with
  | none => cases hd
  | some c =>
    cases hd
    cases hc'
    exact hr _ rfl

theorem funcDeclaration : Sound I funcDeclaration fun r => ∀ d ∈ r, I.IsDeclaration d := by
  have hfunc : ∀ start p, Sound I (do return some (Declaration.func (← Parse.goFunc start p)))
      fun r => ∀ d ∈ r, I.IsDeclaration d :=
    fun start p => .next (.goFunc _ _) fun f => .something nofun
  refine .next .current fun f => .next .advance fun _ => .next .current fun t =>
    .ite (hfunc _ _) (.ite (.next .advance fun _ => .next .params fun ps => ?_)
      (.next (.report _) fun _ => .nothing))
  cases ps with
  | none => exact .nothing
  | some ps =>
    exact .next .skipNewlines fun _ => .next .resultName fun _ => .next .skipNewlines fun _ =>
      .ite (.map_component (.componentBlock _ _ _)) (hfunc _ _)

theorem declaration : Sound I declaration fun r => ∀ d ∈ r, I.IsDeclaration d := by
  refine .next .current fun t => ?_
  split
  · exact .map_component .component
  · exact .funcDeclaration
  · exact .ite (.next .goDecl fun g => .something nofun) (.next (.report _) fun _ => .nothing)

/-- What holds of each declaration that is read holds of all. -/
theorem declarations_of {Q : Declaration → Prop} (hleading : ∀ d g, Q d → Q (d.withLeading g))
    (h : Sound I Parse.declaration fun r => ∀ d ∈ r, Q d) :
    Sound I declarations fun ds => ∀ d ∈ ds, Q d := by
  refine .repeated (.next .skipNewlines fun _ => .next .kind fun _ => .ite (.pure nofun)
    (.next .leadingComments fun g => .bind h fun d hd => ?_))
  cases d with
  | none => exact .next .recover fun _ => .pure nofun
  | some d =>
    refine .pure fun d' hd' => ?_
    rw [List.mem_singleton.1 hd']
    exact hleading d g (hd d rfl)

theorem packageName : Safe I packageName :=
  .next .kind fun _ => .ite (.next .advance fun _ => .next .current fun _ => .ite
    (.next .advanceLine fun _ => .safe) (.next (.report _) fun _ => .safe))
    (.next (.report _) fun _ => .safe)

/-- And so it holds of what the components of a file come from. -/
theorem sourceFile_of {Q : Declaration → Prop} (hleading : ∀ d g, Q d → Q (d.withLeading g))
    (h : Sound I Parse.declaration fun r => ∀ d ∈ r, Q d) :
    Sound I sourceFile fun r => ∀ f ∈ r, ∀ c ∈ f.components, ∃ d, Q d ∧ d.component? = some c := by
  refine .next .position fun _ => .next .skipNewlines fun _ => .next .leadingComments fun _ =>
    .next .packageName fun package => ?_
  cases package with
  | none => exact .nothing
  | some package =>
    refine .next .skipNewlines fun _ => .next .imports fun _ => .next .skipNewlines fun _ =>
      .bind (.declarations_of hleading h) fun ds hds => .next .orphanComments fun _ =>
        .bind .get fun s _ => .something fun c hc => ?_
    obtain ⟨d, hd, hdc⟩ := List.mem_filterMap.1 hc
    exact ⟨d, hds d hd, hdc⟩

/-- **Every component of a file** is under the invariant. -/
theorem sourceFile : Sound I sourceFile fun r => ∀ f ∈ r, ∀ c ∈ f.components, I.IsBody c.body := by
  refine (sourceFile_of (Q := I.IsDeclaration) (fun d g hd => ?_) declaration).mono fun r hr f hf c hc => ?_
  · cases d with
    | component c =>
      intro c' hc'
      cases hc'
      exact hd c rfl
    | func f => exact nofun
    | decl g => exact nofun
  · obtain ⟨d, hd, hdc⟩ := hr f hf c hc
    exact hd c hdc

end Sound

end Parse

/-- What holds of the file that a sound reading gives holds of one that is read. -/
theorem SourceFile.of_read {I : Parse.Invariant} {p : Option SourceFile → Prop}
    {name source : String} {r : Reading} (hread : read name source = .ok r)
    (hsound : Parse.Sound I Parse.sourceFile p) (hstart : I.stream (.ofSource name source)) :
    p r.file := by
  obtain ⟨-, hfile⟩ := hsound (.ofSource name source) hstart
  rcases hrun : Parse.sourceFile.run (.ofSource name source) with ⟨file, s⟩
  rw [hrun] at hfile
  rw [read, hrun] at hread
  cases hi : s.interruption with
  | some i => simp only [hi, reduceCtorEq] at hread
  | none =>
    simp only [hi, Except.ok.injEq] at hread
    rw [← hread]
    exact hfile

/-- **Every component of a file that is read** is under an invariant that holds
at the start. -/
theorem SourceFile.isBody_of_read {I : Parse.Invariant} {name source : String} {r : Reading}
    (hread : read name source = .ok r) {f : SourceFile} (hfile : r.file = some f)
    (hstart : I.stream (.ofSource name source)) : ∀ c ∈ f.components, I.IsBody c.body :=
  of_read hread .sourceFile hstart f hfile

end Gsx
