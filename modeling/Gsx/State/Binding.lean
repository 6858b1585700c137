import Gsx.Analysis.LetBinding
import Gsx.Analysis.Naming
import Gsx.State.Declaration
import Gsx.State.GoType
/-!
# State variables and bindings

The state variables of a component, and the properties of its elements that
show them. Outside loops, a text child or a class expression is bound to the
variables it reads, or to those that the element's `deps` attribute lists.
-/

namespace Gsx

/-- A state variable. A parameter has no initial value. -/
structure StateVar where
  name : String
  type : String
  init : String
  isParameter : Bool
  deriving DecidableEq, Repr

/-- The property of an element that shows state. -/
inductive BoundProperty where
  | text
  | cls
  deriving DecidableEq, Repr

/-- The name of a property. -/
def BoundProperty.name : BoundProperty → String
  | .text => "text"
  | .cls => "class"

/-- A property that has to be refreshed when state changes. -/
structure StateBinding where
  vars : List String
  site : ElementSite
  elementName : String
  property : BoundProperty
  expr : String
  isExplicit : Bool
  deriving Repr

/-- The code of a node that is an expression. -/
def Node.code? : Node → Option String
  | .expression e => some e.code
  | _ => none

/-- The code of a Go statement. -/
def Node.statement? : Node → Option String
  | .goCode c => some c.code
  | _ => none

namespace StateVar

/-- The variable that a parameter is, if its type is a state type. -/
def ofParam? (c : Config) (p : Param) : Option StateVar :=
  (StateText.parameter? c.stateType (Text.trim p.type)).map fun type => ⟨p.name, type, "", true⟩

/-- The variables that a Go statement declares. -/
def ofStatement (c : Config) (code : String) : List StateVar :=
  (StateText.declarations c.stateConstructor code).map fun d =>
    ⟨d.1, GoType.infer d.2, d.2, false⟩

/-- The variables of a component: its parameters, then those declared by the
statements at the top of its body. -/
def ofComponent (c : Config) (comp : Component) : List StateVar :=
  comp.params.filterMap (ofParam? c)
    ++ (comp.body.filterMap Node.statement?).flatMap (ofStatement c)

end StateVar

/-- The variables among `names` that an expression reads, in the order of first
use. -/
def readVars (names : List String) (accessor code : String) : List String :=
  firstOccurrences ((StateText.reads accessor code).filter names.contains)

/-! ## Explicit dependencies -/

/-- What is wrong with a `deps` attribute. -/
inductive DepsFault where
  | notAnExpression
  | notAnArray
  | empty
  | unknown (name : String)
  deriving DecidableEq, Repr

/-- The diagnostic for a fault of a `deps` attribute. An empty one is only worth
a warning. -/
def DepsFault.diagnostic (file : String) (p : Position) : DepsFault → Diagnostic
  | .notAnExpression =>
    .error file p "deps attribute must use expression syntax: deps=\x7b[state1, state2]\x7d"
  | .notAnArray =>
    .error file p "deps attribute must be an array literal: deps=\x7b[state1, state2]\x7d"
  | .empty => .warning file p "empty deps attribute has no effect"
  | .unknown name => .error file p ("unknown state variable \"" ++ name ++ "\" in deps")

/-- What a `deps` attribute says: the variables, or none where it says nothing
usable, and its faults. -/
structure Deps where
  vars : Option (List String)
  faults : List DepsFault
  deriving DecidableEq, Repr

namespace Deps

/-- The names in the text of an array, without blanks. -/
def names (inner : String) : List String :=
  ((Text.splitOn ',' inner.toList).map fun piece => String.ofList (Text.trimList piece)).filter
    (· != "")

/-- Reads the text of an array of known variables. -/
def ofArray (known : List String) (code : String) : Deps :=
  let inner := Text.trim (String.ofList (code.toList.drop 1).dropLast)
  if inner = "" then ⟨some [], [.empty]⟩
  else
    let listed := names inner
    ⟨some (firstOccurrences (listed.filter known.contains)),
      (listed.filter fun name => !known.contains name).map .unknown⟩

/-- Reads the value of a `deps` attribute. -/
def ofValue (known : List String) : AttributeValue → Deps
  | .expression e =>
    let code := Text.trim e.code
    if code.toList.head? = some '[' && code.toList.getLast? = some ']' then ofArray known code
    else ⟨none, [.notAnArray]⟩
  | _ => ⟨none, [.notAnExpression]⟩

/-- What the `deps` attribute of an element says. -/
def ofElement (known : List String) (e : ElementHead) : Deps :=
  match e.attribute? "deps" with
  | some a => ofValue known a.value
  | none => ⟨none, []⟩

/-- The diagnostics for the `deps` attribute of an element. -/
def diagnostics (file : String) (known : List String) (e : ElementHead) : List Diagnostic :=
  match e.attribute? "deps" with
  | some a => (ofValue known a.value).faults.map (·.diagnostic file a.position)
  | none => []

end Deps

/-! ## Bindings -/

namespace StateBinding

/-- The variables that a property of an element depends on, and whether the
element lists them itself. -/
def varsOf (c : Config) (known : List String) (e : ElementHead) (code : String) :
    List String × Bool :=
  match (Deps.ofElement known e).vars with
  | some vars => (vars, true)
  | none => (readVars known c.stateAccessor code, false)

/-- The binding of a property, if it depends on any variable. -/
def ofProperty? (c : Config) (known : List String) (n : ElementName) (target : String)
    (property : BoundProperty) (code : String) : Option StateBinding :=
  let (vars, isExplicit) := varsOf c known n.site.head code
  if vars.isEmpty then none else some ⟨vars, n.site, target, property, code, isExplicit⟩

/-- The names of the elements that show the text children of an element: names
of their own, or else the name of the element. -/
def textTargets (n : ElementName) : List String :=
  if n.targets.isEmpty then (n.site.children.filter Node.isTextual).map fun _ => n.name
  else n.targets

/-- The bindings of the text children of an element. -/
def ofTexts (c : Config) (known : List String) (n : ElementName) : List StateBinding :=
  ((n.site.children.filter Node.isTextual).zip (textTargets n)).filterMap fun (child, target) =>
    child.code?.bind (ofProperty? c known n target .text)

/-- The code of the class expression of an element. -/
def classCode? (e : ElementHead) : Option String :=
  match e.attribute? "class" with
  | some ⟨_, .expression e, _, _⟩ => some e.code
  | _ => none

/-- The binding of the class of an element. -/
def ofClass? (c : Config) (known : List String) (n : ElementName) : Option StateBinding :=
  (classCode? n.site.head).bind (ofProperty? c known n n.name .cls)

/-- The bindings of an element. One in a loop has none. -/
def ofElement (c : Config) (known : List String) (n : ElementName) : List StateBinding :=
  if n.site.inLoop then [] else ofTexts c known n ++ (ofClass? c known n).toList

/-- The bindings of a body, in document order. -/
def ofBody (c : Config) (known : List String) (body : List Node) : List StateBinding :=
  (ElementName.ofBody c body).flatMap (ofElement c known)

end StateBinding

end Gsx
