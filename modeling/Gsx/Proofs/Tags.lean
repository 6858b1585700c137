import Gsx.Proofs.Grammar.AccountedFiles
/-!
# The elements and the tags

Where nothing was found wrong with a source, its elements are its tags. The
opening tags that stand in no Go are, from the front, those of the elements in
the order in which these open; the closing tags are those of the elements with
content, in the order in which these end. So the tags are nested, and a tag that
is left open, or closed by another name, is reported.
-/

namespace Gsx

open Lexer

/-! ## Tags of a source -/

namespace Tag

/-- An opening tag: the place of its angle, and its name. -/
def opening? : Tag → Option (Position × String)
  | .opening p name => some (p, name)
  | .closing _ => none

/-- The name of a closing tag. -/
def closing? : Tag → Option String
  | .opening _ _ => none
  | .closing name => some name

/-- **Tags that are nested**: each closing tag ends the last element that is
still open. An opening tag may do without, if it closes itself. -/
inductive Nested : List Tag → Prop
  | nil : Nested []
  | single {p : Position} {name : String} {ts : List Tag} :
      Nested ts → Nested (.opening p name :: ts)
  | pair {p : Position} {name : String} {ts us : List Tag} :
      Nested ts → Nested us → Nested (.opening p name :: (ts ++ .closing name :: us))

theorem Nested.append {ts us : List Tag} (h : Nested ts) (h' : Nested us) : Nested (ts ++ us) := by
  induction h with
  | nil => exact h'
  | single _ ih => exact .single ih
  | pair hinner _ _ ih =>
    rw [List.cons_append, List.append_assoc, List.cons_append]
    exact .pair hinner ih

end Tag

/-! ## Elements of a file -/

/-- The elements of a component in the order in which they open, those bound by
`@let` included. -/
def Component.opened (c : Component) : List ElementHead :=
  c.sites.filterMap Site.head?

mutual

/-- The elements in a node in the order in which they end: each behind all that
is inside it. -/
def Node.ended : Node → List ElementHead
  | .element h cs => Node.endedOf cs ++ [h]
  | .letBinding _ e cs => Node.endedOf cs ++ [e]
  | .forLoop _ b => Node.endedOf b
  | .conditional _ t e => Node.endedOf t ++ Node.endedOf e
  | .call _ cs => Node.endedOf cs
  | .slot _ | .expression _ | .letReference _ | .text _ | .goCode _ => []

/-- The elements in a body in the order in which they end. -/
def Node.endedOf : List Node → List ElementHead
  | [] => []
  | n :: ns => n.ended ++ Node.endedOf ns

end

/-- The elements of a component in the order in which they end. -/
def Component.ended (c : Component) : List ElementHead :=
  Node.endedOf c.body

/-- The Go that a file keeps as text: functions, declarations, statements, types,
conditions, iterables, arguments and expressions, all without blank ends. -/
def SourceFile.codes (f : SourceFile) : List String :=
  f.funcs.map (fun g => Text.trim g.code) ++ f.decls.map (fun d => Text.trim d.code)
    ++ f.components.flatMap fun c => c.outline.filterMap Event.code?

/-! ## Tags of an outline -/

/-- The tags in an outline. -/
def Event.tags (es : List Event) : List Tag :=
  es.filterMap Event.tag?

section
variable (es fs : List Event)

theorem Event.tags_append : Event.tags (es ++ fs) = Event.tags es ++ Event.tags fs :=
  List.filterMap_append

/-- The tags of an element are around those of what is inside it. -/
theorem ElementHead.tags_outline (h : ElementHead) :
    Event.tags (h.opening ++ es ++ h.closing)
      = .opening h.position h.tag
        :: (Event.tags es ++ if h.selfClosing then [] else [.closing h.tag]) := by
  have hopening : Event.tags h.opening = [.opening h.position h.tag] := by
    refine (List.filterMap_cons_some (by rfl)).trans (congrArg _ ?_)
    refine List.filterMap_eq_nil_iff.2 fun e he => ?_
    obtain ⟨v, -, rfl⟩ := List.mem_map.1 he
    rfl
  have hclosing : Event.tags h.closing = if h.selfClosing then [] else [.closing h.tag] := by
    rw [closing]
    cases h.selfClosing <;> rfl
  rw [Event.tags_append, Event.tags_append, hopening, hclosing]
  rfl

end

/-- The place and the name of an element. -/
def ElementHead.start (h : ElementHead) : Position × String :=
  (h.position, h.tag)

mutual

/-- **The opening tags** of a node are its elements as they open. -/
theorem Node.opening_outline (l c : Bool) : ∀ n : Node,
    (Event.tags n.outline).filterMap Tag.opening?
      = ((n.sites l c).filterMap Site.head?).map ElementHead.start
  | .element h cs => by
    rw [Node.outline, ElementHead.tags_outline, Node.sites, List.filterMap_cons_some (by rfl),
      List.filterMap_append, Node.opening_outlineOf l c cs, List.filterMap_cons_some (by rfl)]
    cases h.selfClosing <;> exact congrArg (_ :: ·) (List.append_nil _)
  | .letBinding h e cs => by
    rw [Node.outline, Event.tags, List.filterMap_cons_none (by rfl), ← Event.tags,
      ElementHead.tags_outline, Node.sites, List.filterMap_cons_some (by rfl),
      List.filterMap_append, Node.opening_outlineOf l c cs, List.filterMap_cons_some (by rfl)]
    cases e.selfClosing <;> exact congrArg (_ :: ·) (List.append_nil _)
  | .forLoop h b => Node.opening_outlineOf true c b
  | .conditional h t e => by
    rw [Node.outline, Node.sites, List.filterMap_cons_none (by rfl), List.filterMap_append,
      List.map_append, ← Node.opening_outlineOf l true t, ← Node.opening_outlineOf l true e,
      ← List.filterMap_append, ← Event.tags_append]
    rfl
  | .call h cs => Node.opening_outlineOf l c cs
  | .slot _ | .expression _ | .letReference _ | .text _ | .goCode _ => rfl

theorem Node.opening_outlineOf (l c : Bool) : ∀ ns : List Node,
    (Event.tags (Node.outlineOf ns)).filterMap Tag.opening?
      = ((Node.sitesOf l c ns).filterMap Site.head?).map ElementHead.start
  | [] => rfl
  | n :: ns => by
    rw [Node.outlineOf, Event.tags_append, List.filterMap_append, Node.opening_outline l c n,
      Node.opening_outlineOf l c ns, Node.sitesOf, List.filterMap_append, List.map_append]

end

/-- The names by which elements are closed, of those that have content. -/
def ElementHead.closingNames (hs : List ElementHead) : List String :=
  (hs.filter fun h => !h.selfClosing).map ElementHead.tag

theorem ElementHead.closingNames_append (hs hs' : List ElementHead) :
    closingNames (hs ++ hs') = closingNames hs ++ closingNames hs' := by
  rw [closingNames, List.filter_append, List.map_append]
  rfl

/-- An element is closed behind what is inside it. -/
theorem ElementHead.closing_tags (h : ElementHead) (ts : List Tag) :
    (Tag.opening h.position h.tag :: (ts ++ if h.selfClosing then [] else [.closing h.tag])).filterMap
      Tag.closing? = ts.filterMap Tag.closing? ++ closingNames [h] := by
  rw [List.filterMap_cons_none (by rfl), List.filterMap_append, closingNames, List.filter_cons]
  cases h.selfClosing <;> rfl

mutual

/-- **The closing tags** of a node are its elements with content as they end. -/
theorem Node.closing_outline : ∀ n : Node,
    (Event.tags n.outline).filterMap Tag.closing? = ElementHead.closingNames n.ended
  | .element h cs => by
    rw [Node.outline, ElementHead.tags_outline, ElementHead.closing_tags,
      Node.closing_outlineOf cs, Node.ended, ElementHead.closingNames_append]
  | .letBinding h e cs => by
    rw [Node.outline, Event.tags, List.filterMap_cons_none (by rfl), ← Event.tags,
      ElementHead.tags_outline, ElementHead.closing_tags, Node.closing_outlineOf cs, Node.ended,
      ElementHead.closingNames_append]
  | .forLoop h b => Node.closing_outlineOf b
  | .conditional h t e => by
    rw [Node.ended, ElementHead.closingNames_append, ← Node.closing_outlineOf t,
      ← Node.closing_outlineOf e, ← List.filterMap_append, ← Event.tags_append]
    rfl
  | .call h cs => Node.closing_outlineOf cs
  | .slot _ | .expression _ | .letReference _ | .text _ | .goCode _ => rfl

theorem Node.closing_outlineOf : ∀ ns : List Node,
    (Event.tags (Node.outlineOf ns)).filterMap Tag.closing?
      = ElementHead.closingNames (Node.endedOf ns)
  | [] => rfl
  | n :: ns => by
    rw [Node.outlineOf, Event.tags_append, List.filterMap_append, Node.closing_outline n,
      Node.closing_outlineOf ns, Node.endedOf, ElementHead.closingNames_append]

end

/-- Around nested tags an element puts its own. -/
theorem ElementHead.nested_tags (h : ElementHead) {ts : List Tag} (hts : Tag.Nested ts) :
    Tag.Nested (.opening h.position h.tag
      :: (ts ++ if h.selfClosing then [] else [.closing h.tag])) := by
  cases h.selfClosing with
  | false => exact .pair hts .nil
  | true => exact .single (hts.append .nil)

mutual

/-- **The tags of a node are nested.** -/
theorem Node.nested_outline : ∀ n : Node, Tag.Nested (Event.tags n.outline)
  | .element h cs => by
    rw [Node.outline, ElementHead.tags_outline]
    exact h.nested_tags (Node.nested_outlineOf cs)
  | .letBinding h e cs => by
    rw [Node.outline, Event.tags, List.filterMap_cons_none (by rfl), ← Event.tags,
      ElementHead.tags_outline]
    exact e.nested_tags (Node.nested_outlineOf cs)
  | .forLoop h b => Node.nested_outlineOf b
  | .conditional h t e => by
    have hboth := (Node.nested_outlineOf t).append (Node.nested_outlineOf e)
    rwa [← Event.tags_append] at hboth
  | .call h cs => Node.nested_outlineOf cs
  | .slot _ | .expression _ | .letReference _ | .text _ | .goCode _ => .nil

theorem Node.nested_outlineOf : ∀ ns : List Node, Tag.Nested (Event.tags (Node.outlineOf ns))
  | [] => .nil
  | n :: ns => by
    rw [Node.outlineOf, Event.tags_append]
    exact (Node.nested_outline n).append (Node.nested_outlineOf ns)

end

/-! ## Tags of components and files -/

/-- The tags of a component are those in its body. -/
theorem Component.tags_outline (c : Component) :
    Event.tags c.outline = Event.tags (Node.outlineOf c.body) := by
  have hparams : Event.tags (c.params.map fun p => Event.header p.type) = [] :=
    List.filterMap_eq_nil_iff.2 fun e he => by
      obtain ⟨p, -, rfl⟩ := List.mem_map.1 he
      rfl
  rw [outline, Event.tags, List.filterMap_cons_none (by rfl), ← Event.tags, Event.tags_append,
    hparams]
  rfl

/-- Only components have tags. -/
theorem tags_declarations (ds : List Declaration) :
    Event.tags (ds.flatMap Declaration.outline)
      = (ds.filterMap Declaration.component?).flatMap fun c => Event.tags c.outline := by
  induction ds with
  | nil => rfl
  | cons d ds ih =>
    rw [List.flatMap_cons, Event.tags_append, ih]
    cases d <;> rfl

/-- What declarations keep of Go, sorted by what they are. -/
theorem codes_declarations {f : SourceFile} {ds : List Declaration}
    (hcomponents : f.components = ds.filterMap Declaration.component?)
    (hfuncs : f.funcs = ds.filterMap Declaration.func?)
    (hdecls : f.decls = ds.filterMap Declaration.decl?) :
    ((ds.flatMap Declaration.outline).filterMap Event.code?).Perm f.codes := by
  rw [SourceFile.codes, hcomponents, hfuncs, hdecls]
  clear hcomponents hfuncs hdecls
  induction ds with
  | nil => exact .nil
  | cons d ds ih =>
    rw [List.flatMap_cons, List.filterMap_append]
    cases d with
    | component c =>
      refine (ih.append_left _).trans ?_
      exact List.perm_append_comm_assoc _ _ _
    | func g => exact ih.cons _
    | decl d =>
      refine (ih.cons _).trans ?_
      rw [List.append_assoc, List.append_assoc]
      exact List.perm_middle.symm

/-- **The elements of a file are the tags of its source**, where nothing was
found wrong. Along the source, up to its end, Go is taken as it stands only
where it is kept in the file; of the tags outside it, the opening ones are those
of the elements as they open, at their places and with their names, and the
closing ones are those of the elements with content as they end. The tags are
nested. -/
theorem SourceFile.elements_are_tags {name source : String} {r : Reading}
    (hread : SourceFile.read name source = .ok r) (hclean : r.diagnostics = []) :
    ∃ f is m, r.file = some f ∧ Route (Lexer.ofSource name source) is m
      ∧ (m.token 0).kind = .endOfInput ∧ .fault ∉ is
      ∧ (is.filterMap Item.code?).Subperm f.codes
      ∧ (is.filterMap Item.tag?).filterMap Tag.opening?
          = (f.components.flatMap Component.opened).map ElementHead.start
      ∧ (is.filterMap Item.tag?).filterMap Tag.closing?
          = ElementHead.closingNames (f.components.flatMap Component.ended)
      ∧ Tag.Nested (is.filterMap Item.tag?) := by
  obtain ⟨is, m, hroute, haccounts, hnoted⟩ := exists_route hread
  obtain ⟨hfault, hsome, hend⟩ := hnoted hclean
  obtain ⟨f, hfile⟩ := Option.isSome_iff_exists.1 hsome
  obtain ⟨ds, hds, hcomponents, hfuncs, hdecls⟩ := haccounts f hfile
  have htags : is.filterMap Item.tag? = f.components.flatMap fun c => Event.tags c.outline := by
    rw [hds.tags hfault, hcomponents]
    exact tags_declarations ds
  refine ⟨f, is, m, hfile, hroute, hend, hfault,
    (hds.codes hfault).trans (codes_declarations hcomponents hfuncs hdecls).subperm, ?_⟩
  rw [htags]
  generalize f.components = cs
  induction cs with
  | nil => exact ⟨rfl, rfl, .nil⟩
  | cons c cs ih =>
    obtain ⟨hopening, hclosing, hnested⟩ := ih
    simp only [List.flatMap_cons, List.filterMap_append, List.map_append, c.tags_outline,
      ElementHead.closingNames_append]
    rw [hopening, hclosing, Node.opening_outlineOf false false c.body,
      Node.closing_outlineOf c.body]
    exact ⟨rfl, rfl, (Node.nested_outlineOf c.body).append hnested⟩

/-- A source with elements of many kinds, and with angles in its Go. -/
def angledCard : String :=
  "package x\n\nfunc less() bool \x7b\n\treturn 1 < 2\n\x7d\n\n@component Card(n int) \x7b\n\t@let a = <b><i/></b>\n\t@if n < 3 \x7b\n\t\t<p k=\x7bn < 4\x7d>\n\t\t\t\x7ba\x7d<br/>\n\t\t</p>\n\t\x7d\n\x7d\n"

/-- Its elements are its tags. -/
theorem SourceFile.elements_are_tags_angledCard :
    ∃ r, SourceFile.read "" angledCard = .ok r ∧ r.diagnostics = []
      ∧ ∃ f is m, r.file = some f ∧ Route (Lexer.ofSource "" angledCard) is m
      ∧ (m.token 0).kind = .endOfInput ∧ .fault ∉ is
      ∧ (is.filterMap Item.code?).Subperm f.codes
      ∧ (is.filterMap Item.tag?).filterMap Tag.opening?
          = (f.components.flatMap Component.opened).map ElementHead.start
      ∧ (is.filterMap Item.tag?).filterMap Tag.closing?
          = ElementHead.closingNames (f.components.flatMap Component.ended)
      ∧ Tag.Nested (is.filterMap Item.tag?) := by
  have hrun : (SourceFile.read "" angledCard).toOption.any (·.diagnostics.isEmpty) = true := by
    decide +kernel
  cases hread : SourceFile.read "" angledCard with
  | error i =>
    rw [hread] at hrun
    cases hrun
  | ok r =>
    rw [hread] at hrun
    have hclean : r.diagnostics = [] := List.isEmpty_iff.1 hrun
    exact ⟨r, rfl, hclean, elements_are_tags hread hclean⟩

end Gsx
