import Gsx.Comment
import Gsx.Number.Binary64
/-!
# The tree of a source file

What a GSX source means: a package with imports, Go declarations and functions
kept as text, and components, whose bodies are trees of elements, loops,
conditions, calls and Go fragments. Nodes carry their positions and the
comments around them.

The recursive part of the tree is one type, `Node`: a node is a head, which
holds everything but its bodies, and its bodies.
-/

namespace Gsx

/-- A Go expression, as text. -/
structure GoExpr where
  code : String
  position : Position
  leading : Option CommentGroup
  deriving DecidableEq, Repr

/-- The value of an attribute. -/
inductive AttributeValue where
  | string (value : String) (position : Position)
  | int (value : Nat) (position : Position)
  | float (value : Binary64) (position : Position)
  | bool (value : Bool) (position : Position)
  | expression (value : GoExpr)
  deriving DecidableEq, Repr

/-- An attribute of an element. -/
structure Attribute where
  name : String
  value : AttributeValue
  position : Position
  /-- Where the text of the value starts; inside the quote for a string. -/
  valuePosition : Position
  deriving DecidableEq, Repr

/-- An element without its children. -/
structure ElementHead where
  tag : String
  attributes : List Attribute
  selfClosing : Bool
  /-- The name after `#`. -/
  ref : Option String
  /-- The expression of a `key` attribute. -/
  key : Option GoExpr
  position : Position
  leading : Option CommentGroup
  trailing : Option CommentGroup
  orphans : List CommentGroup
  deriving DecidableEq, Repr

/-- The first attribute of a given name. -/
def ElementHead.attribute? (e : ElementHead) (name : String) : Option Attribute :=
  e.attributes.find? (·.name = name)

/-- A `@let` binding without its element. -/
structure LetHead where
  name : String
  position : Position
  leading : Option CommentGroup
  deriving DecidableEq, Repr

/-- A `@for` loop without its body. -/
structure ForHead where
  index : String
  value : String
  iterable : String
  position : Position
  leading : Option CommentGroup
  trailing : Option CommentGroup
  orphans : List CommentGroup
  deriving DecidableEq, Repr

/-- A conditional without its branches. -/
structure IfHead where
  condition : String
  position : Position
  leading : Option CommentGroup
  trailing : Option CommentGroup
  orphans : List CommentGroup
  deriving DecidableEq, Repr

/-- A component call without the children it passes on. -/
structure CallHead where
  name : String
  args : String
  position : Position
  leading : Option CommentGroup
  orphans : List CommentGroup
  deriving DecidableEq, Repr

/-- The place where a component puts the children passed to it. -/
structure ChildrenSlot where
  position : Position
  leading : Option CommentGroup
  deriving DecidableEq, Repr

/-- A use of the value that a `@let` has bound. -/
structure LetReference where
  name : String
  position : Position
  deriving DecidableEq, Repr

/-- Free text. -/
structure TextContent where
  text : String
  position : Position
  deriving DecidableEq, Repr

/-- A Go statement, as text. -/
structure GoCode where
  code : String
  position : Position
  leading : Option CommentGroup
  deriving DecidableEq, Repr

/-- A node of a body. A conditional whose else branch is another `@if` has that
one as the only node of the branch. -/
inductive Node where
  | element (head : ElementHead) (children : List Node)
  | letBinding (head : LetHead) (element : ElementHead) (children : List Node)
  | forLoop (head : ForHead) (body : List Node)
  | conditional (head : IfHead) (thenBody elseBody : List Node)
  | call (head : CallHead) (children : List Node)
  | slot (slot : ChildrenSlot)
  | expression (expression : GoExpr)
  | letReference (reference : LetReference)
  | text (content : TextContent)
  | goCode (code : GoCode)
  deriving Repr

namespace Node

/-- Whether a node is shown as text inside its element. -/
def isTextual : Node → Bool
  | .expression _ | .text _ => true
  | _ => false

/-- Sets the comments before a node. Text and references carry none. -/
def withLeading (g : CommentGroup) : Node → Node
  | .element h cs => .element { h with leading := some g } cs
  | .letBinding h e cs => .letBinding { h with leading := some g } e cs
  | .forLoop h b => .forLoop { h with leading := some g } b
  | .conditional h t e => .conditional { h with leading := some g } t e
  | .call h cs => .call { h with leading := some g } cs
  | .slot s => .slot { s with leading := some g }
  | .expression e => .expression { e with leading := some g }
  | .goCode c => .goCode { c with leading := some g }
  | .letReference r => .letReference r
  | .text t => .text t

end Node

/-- A parameter of a component. -/
structure Param where
  name : String
  type : String
  position : Position
  deriving DecidableEq, Repr

/-- A component. -/
structure Component where
  name : String
  params : List Param
  body : List Node
  /-- Whether the body has a children slot, once that is known. -/
  acceptsChildren : Bool
  position : Position
  leading : Option CommentGroup
  trailing : Option CommentGroup
  orphans : List CommentGroup
  deriving Repr

/-- The Go type that a component returns. -/
def Component.returnType : String := "*element.Element"

/-- An import. -/
structure Import where
  localName : String
  path : String
  position : Position
  trailing : Option CommentGroup
  deriving DecidableEq, Repr

/-- A `type`, `const` or `var` declaration, as text. -/
structure GoDecl where
  kind : String
  code : String
  position : Position
  leading : Option CommentGroup
  deriving DecidableEq, Repr

/-- A Go function, as text. -/
structure GoFunc where
  code : String
  position : Position
  leading : Option CommentGroup
  deriving DecidableEq, Repr

/-- A source file. -/
structure SourceFile where
  /-- The file name that diagnostics show. -/
  name : String
  package : String
  imports : List Import
  decls : List GoDecl
  components : List Component
  funcs : List GoFunc
  position : Position
  leading : Option CommentGroup
  orphans : List CommentGroup
  deriving Repr

namespace SourceFile

/-- Whether a file imports a path. -/
def importsPath (f : SourceFile) (path : String) : Bool :=
  f.imports.any (·.path = path)

end SourceFile

end Gsx
