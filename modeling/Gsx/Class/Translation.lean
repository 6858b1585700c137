import Gsx.Class.Catalogue
import Gsx.Number.Binary64
import Gsx.Number.Numeral
import Gsx.Text.Blank
import Gsx.Text.Search
/-!
# Translating classes

The meaning of a single class: a fixed one, a family with a number, or a family
with a fraction. Numbers are ASCII numerals of any admissible length, and a
fraction becomes a percentage with two places.
-/

namespace Gsx

/-- The numeral that makes up a whole list, if it is one. -/
def asciiNumeral? (cs : List Char) : Option (List Char) :=
  if cs.isEmpty then none else if cs.all Char.isDigit then some cs else none

namespace ClassMapping

/-- The percentage that a fraction is, none where it divides by zero. -/
def percentage? (numerator denominator : List Char) :
    Except NumberError (Option String) := do
  let n ← Numeral.read numerator
  let d ← Numeral.read denominator
  if d = 0 then return none
  else
    match Binary64.nearest n d with
    | .infinite => throw .quotientTooLarge
    | x => return some x.timesHundred.twoPlaces

/-- The meaning of a class that ends in a number. -/
def ofNumeric? (cs : List Char) : Except NumberError (Option ClassMapping) :=
  let found := Catalogue.numeric.findSome? fun f =>
    (Text.after? f.lead.toList cs).bind asciiNumeral? |>.map fun digits => (f, digits)
  match found with
  | none => pure none
  | some (f, digits) => do
    let n ← Numeral.read digits
    return some (.bareOption (f.code n))

/-- The two numerals of a fraction. -/
def fraction? (cs : List Char) : Option (List Char × List Char) :=
  match Text.splitOn '/' cs with
  | [n, d] =>
    match asciiNumeral? n, asciiNumeral? d with
    | some n, some d => some (n, d)
    | _, _ => none
  | _ => none

/-- The meaning of a class that ends in a fraction. -/
def ofFractional? (cs : List Char) : Except NumberError (Option ClassMapping) :=
  let found := Catalogue.fractional.findSome? fun f =>
    (Text.after? f.1.toList cs).bind fraction? |>.map fun parts => (f.2, parts)
  match found with
  | none => pure none
  | some (code, n, d) => do
    let percentage ← percentage? n d
    return percentage.map fun p => .bareOption (code ++ p ++ ")")

/-- The meaning of a class without blanks around it. -/
def ofTrimmed? (cs : String) : Except NumberError (Option ClassMapping) :=
  match (Catalogue.fixed ++ Catalogue.sizes).lookup cs with
  | some m => pure (some m)
  | none => do
    match ← ofNumeric? cs.toList with
    | some m => return some m
    | none => ofFractional? cs.toList

/-- The meaning of a class, none where it has no meaning. -/
def ofClass? (cls : String) : Except NumberError (Option ClassMapping) :=
  ofTrimmed? (Text.trim cls)

end ClassMapping

end Gsx
