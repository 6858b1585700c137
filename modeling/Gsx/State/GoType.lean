import Gsx.Identifier
import Gsx.Text.Blank
import Gsx.Text.Search
/-!
# Types of initial values

The Go type of a value from the shape of its text: a literal, or a composite
literal, whose type stands before its brace. Any other text has the type
`any`.
-/

namespace Gsx.GoType

/-- A type name, which may be qualified by a package, and what follows it. -/
def typeName? (cs : List Char) : Option (List Char × List Char) :=
  let first := cs.takeWhile isAsciiWord
  if first.isEmpty then none
  else
    match cs.drop first.length with
    | '.' :: rest =>
      let second := rest.takeWhile isAsciiWord
      if second.isEmpty then some (first, '.' :: rest)
      else some (first ++ '.' :: second, rest.drop second.length)
    | rest => some (first, rest)

/-- A type name right before an opening brace. -/
def literalType? (cs : List Char) : Option (List Char) :=
  match typeName? cs with
  | some (name, '{' :: _) => some name
  | _ => none

/-- Whether a list is a non-empty run of ASCII digits. -/
def isDigits (cs : List Char) : Bool :=
  !cs.isEmpty && cs.all Char.isDigit

/-- A list without a minus sign in front. -/
def unsigned : List Char → List Char
  | '-' :: rest => rest
  | cs => cs

/-- Whether a list starts and ends with two different occurrences of a quote. -/
def isBetween (quote : Char) (cs : List Char) : Bool :=
  2 ≤ cs.length && cs.head? = some quote && cs.getLast? = some quote

/-- An integer. -/
def intShape (cs : List Char) : Option String :=
  if isDigits (unsigned cs) then some "int" else none

/-- A fraction. -/
def floatShape (cs : List Char) : Option String :=
  match Text.splitOn '.' (unsigned cs) with
  | [whole, fraction] => if isDigits whole && isDigits fraction then some "float64" else none
  | _ => none

/-- A truth value. -/
def boolShape (cs : List Char) : Option String :=
  if cs = "true".toList || cs = "false".toList then some "bool" else none

/-- A string or raw string. -/
def stringShape (cs : List Char) : Option String :=
  if isBetween '"' cs || isBetween '\x60' cs then some "string" else none

/-- The nil value. -/
def nilShape (cs : List Char) : Option String :=
  if cs = "nil".toList then some "any" else none

/-- A slice literal. -/
def sliceShape (cs : List Char) : Option String := do
  let rest ← Text.after? "[]".toList cs
  let name ← literalType? rest
  return "[]" ++ String.ofList name

/-- A map literal. -/
def mapShape (cs : List Char) : Option String := do
  let rest ← Text.after? "map[".toList cs
  let key := rest.takeWhile isAsciiWord
  if key.isEmpty then none
  else
    let rest ← Text.after? [']'] (rest.drop key.length)
    let name ← literalType? rest
    return "map[" ++ String.ofList key ++ "]" ++ String.ofList name

/-- The address of a composite literal. -/
def addressShape (cs : List Char) : Option String := do
  let rest ← Text.after? ['&'] cs
  let name ← literalType? rest
  return "*" ++ String.ofList name

/-- A composite literal. -/
def compositeShape (cs : List Char) : Option String :=
  (literalType? cs).map String.ofList

/-- The shapes that tell a type. -/
def shapes : List (List Char → Option String) :=
  [intShape, floatShape, boolShape, stringShape, nilShape, sliceShape, mapShape, addressShape,
    compositeShape]

/-- The type of a value. -/
def infer (value : String) : String :=
  let cs := Text.trimList value.toList
  (shapes.findSome? fun shape => shape cs).getD "any"

end Gsx.GoType
