/-!
# JSON values

Numbers are kept as their text, and an object keeps its members in order.
-/

namespace Gsx

/-- A JSON value. -/
inductive Json where
  | null
  | bool (b : Bool)
  | number (text : String)
  | string (s : String)
  | array (items : List Json)
  | object (members : List (String × Json))
  deriving Repr, Inhabited

namespace Json

/-- A natural number. -/
def nat (n : Nat) : Json := .number (toString n)

/-- A whole number. -/
def int (n : Int) : Json := .number (toString n)

/-- An array of strings. -/
def strings (ss : List String) : Json := .array (ss.map .string)

/-- The text of a string value. -/
def text? : Json → Option String
  | .string s => some s
  | _ => none

/-- The truth value of a value. -/
def bool? : Json → Option Bool
  | .bool b => some b
  | _ => none

/-- The texts of an array of strings. -/
def texts? : Json → Option (List String)
  | .array items => items.mapM text?
  | _ => none

/-- Sets a member, in its old place if there is one of that name. -/
def setMember (members : List (String × Json)) (m : String × Json) : List (String × Json) :=
  if members.any (·.1 = m.1) then members.map fun old => if old.1 = m.1 then m else old
  else members ++ [m]

end Json

end Gsx
