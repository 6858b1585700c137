import Gsx.Diagnostic
import Gsx.Identifier
import Gsx.Text.Search
import Gsx.Tree.Site
/-!
# Named references

A reference names one element, or a list of elements in a loop, or a map in a
loop with a key. A name must be valid, free and not reserved, and a key makes
sense only in a loop.
-/

namespace Gsx

/-- How a reference is exposed. -/
inductive RefKind where
  | single
  | list
  | map (key : String)
  deriving DecidableEq, Repr

/-- The word for a kind of reference. -/
def RefKind.text : RefKind → String
  | .single => "single"
  | .list => "list"
  | .map _ => "map"

/-- The key expression of a reference, where there is one. -/
def RefKind.key? : RefKind → Option String
  | .map "" => none
  | .map key => some key
  | _ => none

/-- A reference to an element of a component. -/
structure NamedRef where
  name : String
  site : ElementSite
  kind : RefKind
  deriving Repr

/-- The Go type of the keys that an expression gives. -/
def inferKeyType (key : String) : String :=
  let cs := key.toList
  if Text.endsWith ".ID".toList cs || Text.endsWith ".Id".toList cs then "string"
  else if Text.occursIn "int".toList cs || Text.occursIn "Int".toList cs then "int"
  else "string"

/-- Why a reference is refused. -/
inductive RefFault where
  | invalidName (name : String)
  | reserved (name : String)
  | duplicate (name : String) (first : Position)
  | keyOutsideLoop (name : String)
  deriving DecidableEq, Repr

/-- The message for a refused reference. -/
def RefFault.message (file : String) : RefFault → String
  | .invalidName name =>
    "invalid ref name \"" ++ name
      ++ "\" - must be valid Go identifier starting with uppercase letter"
  | .reserved name => "ref name '" ++ name ++ "' is reserved"
  | .duplicate name first =>
    "duplicate ref name \"" ++ name ++ "\" (first defined at " ++ first.describe file ++ ")"
  | .keyOutsideLoop name =>
    "key attribute on ref \"" ++ name ++ "\" only valid inside @for loop"

namespace NamedRef

/-- The name that the root element of every component has. -/
def reservedNames : List String := ["Root"]

/-- The kind of reference that an element makes. -/
def kindOf (e : ElementSite) : RefKind :=
  if e.inLoop then
    match e.head.key with
    | some key => .map key.code
    | none => .list
  else .single

/-- Accepts a reference after the ones accepted before, or says why not. -/
def check (accepted : List NamedRef) (name : String) (e : ElementSite) :
    Except RefFault NamedRef :=
  if !isValidRefName name then .error (.invalidName name)
  else if reservedNames.contains name then .error (.reserved name)
  else
    match accepted.find? (·.name = name) with
    | some first => .error (.duplicate name first.site.head.position)
    | none =>
      if e.head.key.isSome && !e.inLoop then .error (.keyOutsideLoop name)
      else .ok ⟨name, e, kindOf e⟩

/-- The references accepted and the errors found so far. -/
structure Table where
  refs : List NamedRef
  diagnostics : List Diagnostic
  deriving Repr

/-- Adds the reference of an element, if it has one. -/
def Table.add (file : String) (t : Table) (e : ElementSite) : Table :=
  match e.head.ref with
  | none => t
  | some name =>
    match check t.refs name e with
    | .ok ref => { t with refs := t.refs ++ [ref] }
    | .error fault =>
      { t with
        diagnostics := t.diagnostics ++ [.error file e.head.position (fault.message file)] }

/-- The references of a body, in document order. -/
def ofBody (file : String) (body : List Node) : Table :=
  (elementSites body).foldl (Table.add file) ⟨[], []⟩

end NamedRef

end Gsx
