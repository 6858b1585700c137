import Mathlib.Data.List.Basic
import Mathlib.Data.List.Forall2
import Mathlib.Data.List.Perm.Subperm
import Gsx.Proofs.Attributes
import Gsx.Proofs.Grammar.Touring
/-!
# Outlines

A tree in the order of its source: where each node starts and what it is, where
elements close, the expressions in attributes, and the Go that nodes keep as
text. A list of items accounts for an outline where each node starts with an
item of its own, in the same order; and where no fault is among the items, the
tags on the way are those of the outline, and all Go that was taken as it stands
is kept in it.
-/

namespace Gsx

/-! ## What a tree says of its source -/

/-- What a node or a declaration is. -/
inductive Sign where
  | component | function | declaration
  | element | binding | loop | conditional | call
  | slot | expression | text | statement | reference
  deriving DecidableEq, Repr

/-- A node where it starts, with its name, its text or its code. -/
structure Mark where
  sign : Sign
  position : Position
  text : String
  deriving DecidableEq, Repr

/-- An opening tag, with the place of its angle, or a closing one. -/
inductive Tag where
  | opening (position : Position) (name : String)
  | closing (name : String)
  deriving DecidableEq, Repr

/-- One event of an outline. -/
inductive Event where
  /-- A node starts. -/
  | node (mark : Mark)
  /-- An element closes that has content. -/
  | close (name : String)
  /-- An expression as the value of an attribute. -/
  | value (code : String) (position : Position)
  /-- A type, a condition, an iterable or the arguments of a call. -/
  | header (code : String)
  deriving DecidableEq, Repr

namespace Event

/-- The node that starts at an event. -/
def mark? : Event → Option Mark
  | .node mark => some mark
  | _ => none

/-- The tag at an event. -/
def tag? : Event → Option Tag
  | .node mark => if mark.sign = .element then some (.opening mark.position mark.text) else none
  | .close name => some (.closing name)
  | _ => none

/-- The expression in an attribute. -/
def value? : Event → Option (String × Position)
  | .value code p => some (code, p)
  | _ => none

/-- The Go that is kept as text, without blank ends. -/
def code? : Event → Option String
  | .node mark =>
    match mark.sign with
    | .function | .declaration => some (Text.trim mark.text)
    | .statement | .expression | .slot => some mark.text
    | _ => none
  | .value code _ => some code
  | .header code => some code
  | .close _ => none

end Event

/-- The expression that a value is, if it is one. -/
def AttributeValue.expression? : AttributeValue → Option GoExpr
  | .expression e => some e
  | _ => none

/-- The expressions in the attributes of an element, that of its key first. -/
def ElementHead.expressions (h : ElementHead) : List GoExpr :=
  h.key.toList ++ h.attributes.filterMap (·.value.expression?)

/-- An expression in an attribute. -/
def GoExpr.value (e : GoExpr) : Event := .value e.code e.position

/-- An opening tag. -/
def ElementHead.opening (h : ElementHead) : List Event :=
  .node ⟨.element, h.position, h.tag⟩ :: h.expressions.map GoExpr.value

/-- A closing tag, which only an element with content has. -/
def ElementHead.closing (h : ElementHead) : List Event :=
  if h.selfClosing then [] else [.close h.tag]

mutual

/-- The outline of a node. -/
def Node.outline : Node → List Event
  | .element h cs => h.opening ++ Node.outlineOf cs ++ h.closing
  | .letBinding h e cs =>
    .node ⟨.binding, h.position, h.name⟩ :: (e.opening ++ Node.outlineOf cs ++ e.closing)
  | .forLoop h b =>
    .node ⟨.loop, h.position, h.value⟩ :: .header h.iterable :: Node.outlineOf b
  | .conditional h t e =>
    .node ⟨.conditional, h.position, h.condition⟩ :: .header h.condition
      :: (Node.outlineOf t ++ Node.outlineOf e)
  | .call h cs => .node ⟨.call, h.position, h.name⟩ :: .header h.args :: Node.outlineOf cs
  | .slot s => [.node ⟨.slot, s.position, "children..."⟩]
  | .expression e => [.node ⟨.expression, e.position, e.code⟩]
  | .letReference r => [.node ⟨.reference, r.position, r.name⟩]
  | .text t => [.node ⟨.text, t.position, t.text⟩]
  | .goCode c => [.node ⟨.statement, c.position, c.code⟩]

/-- The outline of a body. -/
def Node.outlineOf : List Node → List Event
  | [] => []
  | n :: ns => n.outline ++ Node.outlineOf ns

end

/-- The outline of a component. -/
def Component.outline (c : Component) : List Event :=
  .node ⟨.component, c.position, c.name⟩
    :: (c.params.map (fun p => .header p.type) ++ Node.outlineOf c.body)

/-- The outline of a declaration. -/
def Declaration.outline : Declaration → List Event
  | .component c => c.outline
  | .func f => [.node ⟨.function, f.position, f.code⟩]
  | .decl d => [.node ⟨.declaration, d.position, d.code⟩]

@[simp] theorem Node.outline_withLeading (g : CommentGroup) (n : Node) :
    (n.withLeading g).outline = n.outline := by
  cases n <;> simp only [Node.withLeading, Node.outline, ElementHead.opening,
    ElementHead.closing, ElementHead.expressions]

@[simp] theorem Node.outlineOf_singleton (n : Node) : Node.outlineOf [n] = n.outline := by
  rw [Node.outlineOf, Node.outlineOf, List.append_nil]

@[simp] theorem Declaration.outline_withLeading (g : Option CommentGroup) (d : Declaration) :
    (d.withLeading g).outline = d.outline := by
  cases d <;> rfl

/-! ## What items say of a tree -/

/-- A token that starts what a sign says. -/
def Sign.Opens (sign : Sign) (text : String) (t : Token) : Prop :=
  match sign with
  | .component => t.kind = .atComponent ∨ t.kind = .funcWord
  | .element => t.kind = .leftAngle
  | .binding => t.kind = .atLet
  | .loop => t.kind = .atFor
  | .conditional => t.kind = .atIf
  | .call => t.kind = .atCall ∧ t.literal = text
  | .text => t.kind.isText ∧ t.literal.toList <+: text.toList
  | .function | .declaration | .slot | .expression | .statement | .reference => False

namespace Item

/-- **An item with which a node starts.** -/
def Bears (i : Item) (mark : Mark) : Prop :=
  match i with
  | .token t _ => t.position = mark.position ∧ mark.sign.Opens mark.text t
  | .capture first code => first.position = mark.position ∧ code ≠ [] ∧
    match mark.sign with
    | .function => first.kind = .funcWord ∧ mark.text = String.ofList code
    | .declaration => first.isDeclWord ∧ mark.text = String.ofList code
    | .statement => first.kind.startsStatement ∧ mark.text = Text.trim (String.ofList code)
    | _ => False
  | .braces first code => first.position = mark.position
    ∧ (mark.sign = .expression ∨ mark.sign = .slot) ∧ mark.text = Text.trim (String.ofList code)
  | .fault => False

/-- **An item that holds the value of an attribute**: braces, or a bare name. -/
def Gives (i : Item) (code : String) (p : Position) : Prop :=
  match i with
  | .token t _ => t.kind = .identifier ∧ t.literal = code ∧ t.position = p
  | .braces first text => first.position = p ∧ code = Text.trim (String.ofList text)
  | .capture _ _ | .fault => False

/-- The tag at an item. -/
def tag? : Item → Option Tag
  | .token t next =>
    if t.kind = .leftAngle then some (.opening t.position next.literal)
    else if t.kind = .angleSlash then some (.closing next.literal)
    else none
  | _ => none

/-- The Go that an item takes as it stands, without blank ends and if it is more
than blanks. -/
def code? : Item → Option String
  | .capture _ text | .braces _ text =>
    let code := Text.trim (String.ofList text)
    if code = "" then none else some code
  | _ => none

end Item

/-- Whether a kind starts a tag. -/
def TokenKind.startsTag (k : TokenKind) : Bool :=
  k == .leftAngle || k == .angleSlash

theorem Item.tag?_token {t next : Token} (h : t.kind.startsTag = false) :
    (Item.token t next).tag? = none := by
  rw [TokenKind.startsTag, Bool.or_eq_false_iff, beq_eq_false_iff_ne, beq_eq_false_iff_ne] at h
  rw [Item.tag?, if_neg h.1, if_neg h.2]

/-- **Items account for an outline.** -/
structure Accounts (is : List Item) (es : List Event) : Prop where
  marks : ∃ js, js.Sublist is ∧ List.Forall₂ Item.Bears js (es.filterMap Event.mark?)
  values : ∀ v ∈ es.filterMap Event.value?, ∃ i ∈ is, i.Gives v.1 v.2
  tags : .fault ∉ is → is.filterMap Item.tag? = es.filterMap Event.tag?
  codes : .fault ∉ is → (is.filterMap Item.code?).Subperm (es.filterMap Event.code?)

namespace Accounts

variable {is js : List Item} {es fs : List Event} {t next : Token} {name : String}

theorem nil : Accounts [] [] :=
  ⟨⟨[], .slnil, .nil⟩, nofun, fun _ => rfl, fun _ => List.Subperm.refl _⟩

theorem append (h : Accounts is es) (h' : Accounts js fs) : Accounts (is ++ js) (es ++ fs) := by
  obtain ⟨ks, hks, hmarks⟩ := h.marks
  obtain ⟨ks', hks', hmarks'⟩ := h'.marks
  have hclean : .fault ∉ is ++ js → .fault ∉ is ∧ .fault ∉ js := fun hfault =>
    ⟨fun hin => hfault (List.mem_append_left _ hin), fun hin => hfault (List.mem_append_right _ hin)⟩
  refine ⟨⟨ks ++ ks', hks.append hks', ?_⟩, fun v hv => ?_, fun hfault => ?_, fun hfault => ?_⟩
  · rw [List.filterMap_append]
    exact List.rel_append hmarks hmarks'
  · rw [List.filterMap_append] at hv
    rcases List.mem_append.1 hv with hv | hv
    · obtain ⟨i, hi, hgives⟩ := h.values v hv
      exact ⟨i, List.mem_append_left _ hi, hgives⟩
    · obtain ⟨i, hi, hgives⟩ := h'.values v hv
      exact ⟨i, List.mem_append_right _ hi, hgives⟩
  · rw [List.filterMap_append, List.filterMap_append, h.tags (hclean hfault).1,
      h'.tags (hclean hfault).2]
  · rw [List.filterMap_append, List.filterMap_append]
    exact ((h.codes (hclean hfault).1).append (h'.codes (hclean hfault).2))

/-- Items that nothing in the tree comes from. -/
theorem skip (h : Accounts is es) (h' : Accounts js []) : Accounts (is ++ js) es := by
  have hboth := h.append h'
  rwa [List.append_nil] at hboth

/-- Behind a fault nothing is said of tags and captures. -/
theorem of_fault (hfault : .fault ∈ is) (hmarks : es.filterMap Event.mark? = [])
    (hvalues : es.filterMap Event.value? = []) : Accounts is es := by
  refine ⟨⟨[], List.nil_sublist _, ?_⟩, ?_, (absurd hfault ·), (absurd hfault ·)⟩
  · rw [hmarks]
    exact .nil
  · rw [hvalues]
    exact fun _ hv => absurd hv List.not_mem_nil

theorem fault (hfault : .fault ∈ is) : Accounts is [] :=
  of_fault hfault rfl rfl

/-- Items without tags and captures. -/
theorem quiet (htags : ∀ i ∈ is, i.tag? = none) (hcodes : ∀ i ∈ is, i.code? = none) :
    Accounts is [] := by
  have htags' := List.filterMap_eq_nil_iff.2 htags
  have hcodes' := List.filterMap_eq_nil_iff.2 hcodes
  refine ⟨⟨[], List.nil_sublist _, .nil⟩, fun _ hv => absurd hv List.not_mem_nil, fun _ => htags',
    fun _ => ?_⟩
  rw [hcodes']
  exact List.nil_subperm

/-- Tokens that start no tag. -/
theorem tokens (h : Parse.TokensOf (·.startsTag = false) is) : Accounts is [] := by
  refine quiet (fun i hi => ?_) fun i hi => ?_
  · obtain ⟨t, next, rfl, ht⟩ := h i hi
    exact Item.tag?_token ht
  · obtain ⟨t, next, rfl, -⟩ := h i hi
    rfl

theorem token (h : t.kind.startsTag = false) : Accounts [.token t next] [] :=
  tokens (.token h)

/-- Line ends. -/
theorem lines (h : Parse.TokensOf (· = .newline) is) : Accounts is [] :=
  tokens fun i hi => by
    obtain ⟨t, next, hi, ht⟩ := h i hi
    exact ⟨t, next, hi, ht ▸ rfl⟩

/-- One item for one event. -/
theorem single {i : Item} {e : Event} (hmark : ∀ mark ∈ e.mark?, i.Bears mark)
    (hvalue : ∀ v ∈ e.value?, i.Gives v.1 v.2) (htag : i.tag? = e.tag?)
    (hcode : ∀ c ∈ i.code?, c ∈ e.code?) : Accounts [i] [e] := by
  refine ⟨?_, fun v hv => ?_, fun _ => ?_, fun _ => ?_⟩
  · cases he : e.mark? with
    | none =>
      refine ⟨[], List.nil_sublist _, ?_⟩
      rw [List.filterMap_cons_none he]
      exact .nil
    | some mark =>
      refine ⟨[i], List.Sublist.refl _, ?_⟩
      rw [List.filterMap_cons_some he]
      exact .cons (hmark mark he) .nil
  · obtain ⟨e', he', hv⟩ := List.mem_filterMap.1 hv
    rw [List.mem_singleton.1 he'] at hv
    exact ⟨i, List.mem_singleton_self _, hvalue v hv⟩
  · simp only [List.filterMap_cons, List.filterMap_nil, htag]
  · cases hi : i.code? with
    | none =>
      rw [List.filterMap_cons_none hi]
      exact List.nil_subperm
    | some c =>
      rw [List.filterMap_cons_some hi, List.filterMap_cons_some (hcode c hi)]
      exact List.Subperm.refl _

/-- A token with which a node starts that is no element. -/
theorem node {mark : Mark} (hsign : mark.sign ≠ .element) (hkind : t.kind.startsTag = false)
    (h : (Item.token t next).Bears mark) : Accounts [.token t next] [.node mark] := by
  refine single (fun mark' hmark => ?_) nofun ?_ nofun
  · cases hmark
    exact h
  · rw [Item.tag?_token hkind, Event.tag?, if_neg hsign]

/-- An opening tag. -/
theorem opening {p : Position} (hkind : t.kind = .leftAngle) (hp : t.position = p)
    (hname : next.literal = name) :
    Accounts [.token t next] [.node ⟨.element, p, name⟩] := by
  refine single (fun mark hmark => ?_) nofun ?_ nofun
  · cases hmark
    exact ⟨hp, hkind⟩
  · rw [Item.tag?, if_pos hkind, hname, hp]
    rfl

/-- A closing tag. -/
theorem closing (hkind : t.kind = .angleSlash) (hname : next.literal = name) :
    Accounts [.token t next] [.close name] := by
  refine single nofun nofun ?_ nofun
  rw [Item.tag?, hkind, if_neg nofun, if_pos rfl, hname]
  rfl

/-- Go that is taken as it stands and kept in a header. -/
theorem header {text : List Char} {code : String} (h : code = Text.trim (String.ofList text)) :
    Accounts [.capture t text] [.header code] := by
  refine single nofun nofun rfl fun c hc => ?_
  rw [Item.code?] at hc
  split at hc
  · cases hc
  · cases hc
    exact congrArg some h

/-- Go that is taken as it stands and is a node. -/
theorem captured {text : List Char} {mark : Mark} (h : (Item.capture t text).Bears mark) :
    Accounts [.capture t text] [.node mark] := by
  obtain ⟨sign, p, code⟩ := mark
  refine single (fun mark' hmark => ?_) nofun ?_ fun c hc => ?_
  · cases hmark
    exact h
  · obtain ⟨-, -, hsign⟩ := h
    cases sign <;> first | rfl | exact hsign.elim
  · obtain ⟨-, -, hsign⟩ := h
    rw [Item.code?] at hc
    split at hc
    · cases hc
    · cases hc
      cases sign
      case function | declaration => exact congrArg (fun c => some (Text.trim c)) hsign.2
      case statement => exact congrArg some hsign.2
      all_goals exact hsign.elim

/-- Text between braces that is a node. -/
theorem embedded {text : List Char} {mark : Mark} (h : (Item.braces t text).Bears mark) :
    Accounts [.braces t text] [.node mark] := by
  obtain ⟨sign, p, code⟩ := mark
  refine single (fun mark' hmark => ?_) nofun ?_ fun c hc => ?_
  · cases hmark
    exact h
  · obtain ⟨-, rfl | rfl, -⟩ := h <;> rfl
  · obtain ⟨-, hsign, hcode⟩ := h
    rw [Item.code?] at hc
    split at hc
    · cases hc
    · cases hc
      obtain rfl | rfl := hsign <;> exact congrArg some hcode

/-- Text between braces that is the value of an attribute. -/
theorem bracedValue {text : List Char} {e : GoExpr} (h : (Item.braces t text).Gives e.code e.position) :
    Accounts [.braces t text] [e.value] := by
  refine single nofun (fun v hv => ?_) rfl fun c hc => ?_
  · cases hv
    exact h
  · rw [Item.code?] at hc
    split at hc
    · cases hc
    · cases hc
      exact congrArg some h.2

/-- A bare name that is the value of an attribute. -/
theorem namedValue {e : GoExpr} (h : (Item.token t next).Gives e.code e.position) :
    Accounts [.token t next] [e.value] := by
  refine single nofun (fun v hv => ?_) (Item.tag?_token ?_) nofun
  · cases hv
    exact h
  · rw [h.1]
    rfl

/-- The expressions of the attributes may be told in any order. -/
theorem perm_values {vs ws : List GoExpr} (h : Accounts is (vs.map GoExpr.value))
    (hperm : vs.Perm ws) : Accounts is (ws.map GoExpr.value) := by
  have hnode : ∀ us : List GoExpr, (us.map GoExpr.value).filterMap Event.mark? = []
      ∧ (us.map GoExpr.value).filterMap Event.tag? = [] := fun us => by
    constructor <;> exact List.filterMap_eq_nil_iff.2 fun e he => by
      obtain ⟨v, -, rfl⟩ := List.mem_map.1 he
      rfl
  have hmap := hperm.map GoExpr.value
  refine ⟨?_, fun v hv => h.values v ((hmap.filterMap _).mem_iff.2 hv), fun hfault => ?_,
    fun hfault => (h.codes hfault).trans (hmap.filterMap _).subperm⟩
  · obtain ⟨js, hjs, hmarks⟩ := h.marks
    rw [(hnode vs).1] at hmarks
    rw [(hnode ws).1]
    exact ⟨js, hjs, hmarks⟩
  · rw [h.tags hfault, (hnode vs).2, (hnode ws).2]

end Accounts

end Gsx
