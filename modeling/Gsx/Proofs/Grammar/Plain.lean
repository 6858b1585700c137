import Gsx.Grammar.SourceFile
/-!
# Trees without places

`plain` takes the positions out of a tree, those of its comments included. The
comments themselves stay or go: they stay where two readings of one text agree
on them, and go where they may not. What readers build from parts commutes with
taking out the places.
-/

namespace Gsx

/-! ## Comments -/

/-- A comment without its place. -/
def Comment.plain (c : Comment) : Comment :=
  ⟨c.text, .nowhere, .nowhere, c.isBlock, c.blankBefore, 0⟩

/-- A comment group without its place. -/
def CommentGroup.plain (g : CommentGroup) : CommentGroup :=
  ⟨g.comments.map Comment.plain⟩

/-- The comments before or behind a node, without their places, if they are to
be kept. -/
def plainGroup (keep : Bool) (g : Option CommentGroup) : Option CommentGroup :=
  if keep then g.map CommentGroup.plain else none

/-- Comments that belong to no node, without their places, if they are to be
kept. -/
def plainGroups (keep : Bool) (gs : List CommentGroup) : List CommentGroup :=
  if keep then gs.map CommentGroup.plain else []

variable (keep : Bool)

@[simp] theorem plainGroup_none : plainGroup keep none = none := by
  cases keep <;> rfl

@[simp] theorem plainGroup_false (g : Option CommentGroup) : plainGroup false g = none := rfl

@[simp] theorem plainGroups_nil : plainGroups keep [] = [] := by
  cases keep <;> rfl

@[simp] theorem plainGroups_append (gs hs : List CommentGroup) :
    plainGroups keep (gs ++ hs) = plainGroups keep gs ++ plainGroups keep hs := by
  cases keep
  · rfl
  · exact List.map_append

/-! ## Nodes -/

/-- An expression without its place. -/
def GoExpr.plain (e : GoExpr) : GoExpr :=
  ⟨e.code, .nowhere, plainGroup keep e.leading⟩

/-- The value of an attribute without its place. -/
def AttributeValue.plain : AttributeValue → AttributeValue
  | .string v _ => .string v .nowhere
  | .int v _ => .int v .nowhere
  | .float v _ => .float v .nowhere
  | .bool v _ => .bool v .nowhere
  | .expression e => .expression (e.plain keep)

/-- An attribute without its place. -/
def Attribute.plain (a : Attribute) : Attribute :=
  ⟨a.name, a.value.plain keep, .nowhere, .nowhere⟩

/-- The head of an element without its place. -/
def ElementHead.plain (h : ElementHead) : ElementHead :=
  ⟨h.tag, h.attributes.map (·.plain keep), h.selfClosing, h.ref, h.key.map (·.plain keep),
    .nowhere, plainGroup keep h.leading, plainGroup keep h.trailing, plainGroups keep h.orphans⟩

/-- The head of a binding without its place. -/
def LetHead.plain (h : LetHead) : LetHead :=
  ⟨h.name, .nowhere, plainGroup keep h.leading⟩

/-- The head of a loop without its place. -/
def ForHead.plain (h : ForHead) : ForHead :=
  ⟨h.index, h.value, h.iterable, .nowhere, plainGroup keep h.leading, plainGroup keep h.trailing,
    plainGroups keep h.orphans⟩

/-- The head of a conditional without its place. -/
def IfHead.plain (h : IfHead) : IfHead :=
  ⟨h.condition, .nowhere, plainGroup keep h.leading, plainGroup keep h.trailing,
    plainGroups keep h.orphans⟩

/-- The head of a call without its place. -/
def CallHead.plain (h : CallHead) : CallHead :=
  ⟨h.name, h.args, .nowhere, plainGroup keep h.leading, plainGroups keep h.orphans⟩

/-- A children slot without its place. -/
def ChildrenSlot.plain (s : ChildrenSlot) : ChildrenSlot :=
  ⟨.nowhere, plainGroup keep s.leading⟩

/-- A statement without its place. -/
def GoCode.plain (c : GoCode) : GoCode :=
  ⟨c.code, .nowhere, plainGroup keep c.leading⟩

mutual

/-- A node without its place. -/
def Node.plain : Node → Node
  | .element h cs => .element (h.plain keep) (Node.plainAll cs)
  | .letBinding h e cs => .letBinding (h.plain keep) (e.plain keep) (Node.plainAll cs)
  | .forLoop h b => .forLoop (h.plain keep) (Node.plainAll b)
  | .conditional h t e => .conditional (h.plain keep) (Node.plainAll t) (Node.plainAll e)
  | .call h cs => .call (h.plain keep) (Node.plainAll cs)
  | .slot s => .slot (s.plain keep)
  | .expression e => .expression (e.plain keep)
  | .letReference r => .letReference ⟨r.name, .nowhere⟩
  | .text t => .text ⟨t.text, .nowhere⟩
  | .goCode c => .goCode (c.plain keep)

/-- Nodes without their places. -/
def Node.plainAll : List Node → List Node
  | [] => []
  | n :: ns => n.plain :: Node.plainAll ns

end

@[simp] theorem Node.plainAll_nil : Node.plainAll keep [] = [] := rfl

@[simp] theorem Node.plainAll_cons (n : Node) (ns : List Node) :
    Node.plainAll keep (n :: ns) = n.plain keep :: Node.plainAll keep ns := rfl

/-- The comments before a node are a part of it that is kept or not. -/
theorem Node.plain_withLeading (g : CommentGroup) (n : Node) :
    (n.withLeading g).plain keep
      = if keep then (n.plain keep).withLeading g.plain else n.plain keep := by
  cases keep
  -- without its comments a node shows nothing of those it is given
  · cases n <;> rfl
  · cases n <;> rfl

/-! ## Bodies -/

namespace Body

/-- A body without its places. -/
def plain (b : Body) : Body :=
  ⟨Node.plainAll keep b.nodes, plainGroups keep b.orphans⟩

/-- A part of a body without its place. -/
def Part.plain (p : Part) : Part :=
  ⟨plainGroup keep p.leading, p.node.map (·.plain keep)⟩

theorem plain_push (p : Part) (b : Body) :
    (push p b).plain keep = push (p.plain keep) (b.plain keep) := by
  obtain ⟨leading, node⟩ := p
  cases node with
  | some n =>
    cases leading with
    | some g => cases keep <;> simp [push, plain, Part.plain, Node.plain_withLeading, plainGroup]
    | none => simp [push, plain, Part.plain]
  | none =>
    cases leading with
    | some g => cases keep <;> simp [push, plain, Part.plain, plainGroup, plainGroups]
    | none => simp [push, plain, Part.plain]

theorem plain_ofParts (parts : List Part) (orphans : List CommentGroup) :
    (ofParts parts orphans).plain keep
      = ofParts (parts.map (·.plain keep)) (plainGroups keep orphans) := by
  induction parts with
  | nil => rfl
  | cons p parts ih =>
    rw [List.map_cons]
    change (push p (ofParts parts orphans)).plain keep = push (p.plain keep) (ofParts _ _)
    rw [plain_push, ih]

end Body

/-- A block without its place. -/
def Block.plain (b : Block) : Block :=
  ⟨plainGroup keep b.trailing, b.body.plain keep⟩

/-! ## Declarations -/

/-- A parameter without its place. -/
def Param.plain (p : Param) : Param :=
  ⟨p.name, p.type, .nowhere⟩

/-- A component without its place. -/
def Component.plain (c : Component) : Component :=
  ⟨c.name, c.params.map Param.plain, Node.plainAll keep c.body, c.acceptsChildren, .nowhere,
    plainGroup keep c.leading, plainGroup keep c.trailing, plainGroups keep c.orphans⟩

/-- A Go declaration without its place. -/
def GoDecl.plain (d : GoDecl) : GoDecl :=
  ⟨d.kind, d.code, .nowhere, plainGroup keep d.leading⟩

/-- A Go function without its place. -/
def GoFunc.plain (f : GoFunc) : GoFunc :=
  ⟨f.code, .nowhere, plainGroup keep f.leading⟩

namespace Declaration

/-- A declaration without its place. -/
def plain : Declaration → Declaration
  | .component c => .component (c.plain keep)
  | .func f => .func (f.plain keep)
  | .decl d => .decl (d.plain keep)

theorem plain_withLeading (g : Option CommentGroup) (d : Declaration) :
    (d.withLeading g).plain keep = (d.plain keep).withLeading (plainGroup keep g) := by
  cases d <;> rfl

theorem component?_plain (d : Declaration) :
    (d.plain keep).component? = d.component?.map (·.plain keep) := by
  cases d <;> rfl

theorem func?_plain (d : Declaration) : (d.plain keep).func? = d.func?.map (·.plain keep) := by
  cases d <;> rfl

theorem decl?_plain (d : Declaration) : (d.plain keep).decl? = d.decl?.map (·.plain keep) := by
  cases d <;> rfl

end Declaration

/-! ## Files -/

/-- An import without its place. -/
def Import.plain (i : Import) : Import :=
  ⟨i.localName, i.path, .nowhere, plainGroup keep i.trailing⟩

/-- A file without its places. -/
def SourceFile.plain (f : SourceFile) : SourceFile :=
  ⟨f.name, f.package, f.imports.map (·.plain keep), f.decls.map (·.plain keep),
    f.components.map (·.plain keep), f.funcs.map (·.plain keep), .nowhere,
    plainGroup keep f.leading, plainGroups keep f.orphans⟩

/-! ## Attributes -/

namespace Parse

/-- An attribute that is not the key expression stays among the others. -/
theorem splitKey_cons {a : Attribute} (h : ∀ e, a.value = .expression e → a.name ≠ "key")
    (rest : List Attribute) :
    splitKey (a :: rest) = ((splitKey rest).1, a :: (splitKey rest).2) := by
  rw [splitKey]
  split
  · next e hname hvalue => exact absurd hname (h e hvalue)
  · rfl

theorem splitKey_plain (as : List Attribute) :
    splitKey (as.map (·.plain keep))
      = ((splitKey as).1.map (·.plain keep), (splitKey as).2.map (·.plain keep)) := by
  induction as with
  | nil => rfl
  | cons a as ih =>
    by_cases hkey : ∃ e, a.value = .expression e ∧ a.name = "key"
    · obtain ⟨name, value, p, v⟩ := a
      obtain ⟨e, rfl, rfl⟩ := hkey
      rfl
    · have hother : ∀ e, a.value = .expression e → a.name ≠ "key" :=
        fun e hvalue hname => hkey ⟨e, hvalue, hname⟩
      have hplain : ∀ e, (a.plain keep).value = .expression e → (a.plain keep).name ≠ "key" := by
        intro e hvalue
        cases hv : a.value with
        | expression e => exact hother e hv
        | _ => simp [Attribute.plain, AttributeValue.plain, hv] at hvalue
      rw [List.map_cons, splitKey_cons hplain, splitKey_cons hother, ih]
      rfl

end Parse

end Gsx
