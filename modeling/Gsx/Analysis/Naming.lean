import Gsx.Config
import Gsx.Tree.Site
/-!
# Naming elements

Every element gets the name of a Go variable. An element with a reference
outside loops is named after it, any other one by a counter. Text children of
an element are elements of their own and take further numbers, unless the
element shows its single text child itself.
-/

namespace Gsx

/-- The name of an element, and the names of its text children. -/
structure ElementName where
  site : ElementSite
  name : String
  usesCounter : Bool
  targets : List String
  deriving Repr

namespace Config

/-- The name with a number. -/
def numberedName (c : Config) (n : Nat) : String :=
  c.nameStem ++ toString n

/-- A number of names from a number on. -/
def numberedNames (c : Config) (first count : Nat) : List String :=
  (List.range count).map fun i => c.numberedName (first + i)

/-- Whether an element shows its text itself: its tag allows it, and it has
exactly one child. -/
def showsTextItself (c : Config) (e : ElementSite) : Bool :=
  c.inlineTextTags.contains e.head.tag && e.children.length == 1

/-- The number of text children of an element that are elements of their
own. -/
def textCount (c : Config) (e : ElementSite) : Nat :=
  if c.showsTextItself e then 0 else e.children.countP Node.isTextual

end Config

/-- The name that an element has by its reference, if that fixes it. -/
def ElementSite.fixedName? (e : ElementSite) : Option String :=
  if e.inLoop then none else e.head.ref

namespace ElementName

/-- The name of an element, given the next free number. -/
def assign (c : Config) (next : Nat) (e : ElementSite) : ElementName :=
  match e.fixedName? with
  | some name => ⟨e, name, false, c.numberedNames next (c.textCount e)⟩
  | none => ⟨e, c.numberedName next, true, c.numberedNames (next + 1) (c.textCount e)⟩

/-- How many numbers a name and its text children take. -/
def size (n : ElementName) : Nat :=
  (if n.usesCounter then 1 else 0) + n.targets.length

/-- Names elements in order, from a number on. -/
def assignFrom (c : Config) (next : Nat) : List ElementSite → List ElementName
  | [] => []
  | e :: rest =>
    let n := assign c next e
    n :: assignFrom c (next + n.size) rest

/-- The names of all elements of a body. -/
def ofBody (c : Config) (body : List Node) : List ElementName :=
  assignFrom c 0 (elementSites body)

end ElementName

end Gsx
