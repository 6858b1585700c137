import Gsx.Class.Catalogue
import Gsx.Class.EditDistance
/-!
# Suggestions

The known class that a misspelt one most likely means: the correction of a
known alternative spelling, or else the nearest known name.
-/

namespace Gsx

/-- The greatest distance at which a name is still suggested. -/
def maxSuggestionDistance : Nat := 3

/-- The better of a candidate and the best one so far; on a tie the latter. -/
def nearerName (cls : List Char) (best : String × Nat) (name : String) : String × Nat :=
  let d := EditDistance.distance cls name.toList
  if d < best.2 then (name, d) else best

/-- The class to suggest for a class, empty where none is near. -/
def suggestClass (cls : String) : String :=
  match Catalogue.corrections.lookup cls with
  | some correction => correction
  | none =>
    (Catalogue.knownNames.foldl (nearerName cls.toList) ("", maxSuggestionDistance + 1)).1

end Gsx
