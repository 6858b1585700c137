import Gsx.Class.ClassList
import Gsx.Config
import Gsx.Diagnostic
import Gsx.Tree.Site
/-!
# Validation

The check of elements, attributes, classes and calls. Each site is checked on
its own, so the findings of a component are those of its sites in document
order.
-/

namespace Gsx

/-- Which components of a file accept children, by name. Of two components of
one name the later one counts. -/
structure ComponentIndex where
  entries : List (String × Bool)
  deriving DecidableEq, Repr

namespace ComponentIndex

/-- Whether a component accepts children; none for components of other
files. -/
def accepts? (i : ComponentIndex) (name : String) : Option Bool :=
  i.entries.reverse.lookup name

/-- Sets the entry of a name, in its old place if it has one. -/
def setEntry (entries : List (String × Bool)) (e : String × Bool) : List (String × Bool) :=
  if entries.any (·.1 = e.1) then entries.map fun old => if old.1 = e.1 then e else old
  else entries ++ [e]

/-- The index with one entry for each name. -/
def distinct (i : ComponentIndex) : List (String × Bool) :=
  i.entries.foldl setEntry []

/-- The index of a file whose components know whether they accept children. -/
def ofFile (f : SourceFile) : ComponentIndex :=
  ⟨f.components.map fun c => (c.name, c.acceptsChildren)⟩

end ComponentIndex

/-- Whether a slot stands at a site. -/
def Site.isSlot (s : Site) : Bool :=
  match s.node with
  | .slot _ => true
  | _ => false

/-- Whether the body of a component has a children slot. -/
def Component.hasSlot (c : Component) : Bool :=
  c.sites.any Site.isSlot

/-- A file in which every component knows whether it accepts children. -/
def SourceFile.markSlots (f : SourceFile) : SourceFile :=
  { f with components := f.components.map fun c => { c with acceptsChildren := c.hasSlot } }

namespace Validation

/-- What the checks of a file go by. -/
structure Rules where
  config : Config
  index : ComponentIndex
  fileName : String

/-- A class error, which marks the class itself. -/
def classError (r : Rules) (start : Position) (c : PlacedClass) : Diagnostic :=
  { severity := .error
    file := r.fileName
    position := start.shifted c.start
    stop := some (start.shifted c.stop)
    message := "unknown Tailwind class \"" ++ c.check.cls ++ "\""
    hint :=
      if c.check.suggestion = "" then "" else "did you mean \"" ++ c.check.suggestion ++ "\"?" }

/-- The errors in a class list. -/
def classErrors (r : Rules) (start : Position) (classes : String) :
    Except NumberError (List Diagnostic) := do
  if r.config.validateClasses then
    let placed ← PlacedClass.ofText classes 0
    return (placed.filter fun c => !c.check.valid).map (classError r start)
  else return []

/-- The error for an unknown attribute. -/
def attributeError (r : Rules) (a : Attribute) : Diagnostic :=
  let suggestion := r.config.suggestAttribute a.name
  { Diagnostic.error r.fileName a.position ("unknown attribute " ++ a.name) with
    hint := if suggestion = "" then "" else "did you mean " ++ suggestion ++ "?" }

/-- The classes that an attribute lists, if it is a known `class` attribute
with a literal value. -/
def classText? (c : Config) (a : Attribute) : Option String :=
  if c.isKnownAttribute a.name && a.name = "class" then
    match a.value with
    | .string v _ => some v
    | _ => none
  else none

/-- What the check of an attribute finds, and whether its classes need the
`tui` package. -/
def attributeFindings (r : Rules) (a : Attribute) : Except NumberError (List Diagnostic × Bool) := do
  if r.config.isKnownAttribute a.name then
    match classText? r.config a with
    | some classes =>
      let translated ← ClassList.ofText classes
      let errors ← classErrors r a.valuePosition classes
      return (errors, translated.needsTui)
    | none => return ([], false)
  else return ([attributeError r a], false)

/-- What the check of the tag of an element finds. -/
def tagErrors (r : Rules) (e : ElementHead) (children : List Node) : List Diagnostic :=
  (if r.config.isKnownTag e.tag then []
    else [.error r.fileName e.position ("unknown element tag <" ++ e.tag ++ ">")])
  ++ (if r.config.isVoidTag e.tag && !children.isEmpty then
      [.error r.fileName e.position
        ("<" ++ e.tag ++ "> is a void element and cannot have children")]
    else [])

/-- What the check of an element finds, its children apart. -/
def elementFindings (r : Rules) (e : ElementHead) (children : List Node) :
    Except NumberError (List Diagnostic × Bool) := do
  let attributes ← e.attributes.mapM (attributeFindings r)
  return (tagErrors r e children ++ attributes.flatMap (·.1), attributes.any (·.2))

/-- What the check of a call finds, the children passed on apart. -/
def callErrors (r : Rules) (h : CallHead) (children : List Node) : List Diagnostic :=
  if !children.isEmpty && r.index.accepts? h.name = some false then
    [.error r.fileName h.position ("component " ++ h.name
      ++ " does not accept children (no \x7bchildren...\x7d slot in definition)")]
  else []

/-- What the check of a site finds. -/
def siteFindings (r : Rules) (s : Site) : Except NumberError (List Diagnostic × Bool) :=
  match s.node with
  | .element h cs => elementFindings r h cs
  | .letBinding _ e cs => elementFindings r e cs
  | .call h cs => pure (callErrors r h cs, false)
  | _ => pure ([], false)

/-- What the check of all components finds. -/
def componentFindings (r : Rules) (cs : List Component) : Except NumberError (List Diagnostic × Bool) := do
  let found ← (cs.flatMap Component.sites).mapM (siteFindings r)
  return (found.flatMap (·.1), found.any (·.2))

end Validation

end Gsx
