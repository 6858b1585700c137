/-!
# Edit distance

The least number of insertions, deletions and substitutions of single
characters that turn one text into another, by rows: the row of a text holds
its distances to all beginnings of the other one.
-/

namespace Gsx.EditDistance

/-- The rest of the row that follows `above` by one more character `x`, for the
characters `bs` still to come. `left` is the entry just written. -/
def extendRow (x : Char) (left : Nat) : List Char → List Nat → List Nat
  | b :: bs, diagonal :: up :: above =>
    let substitution := if x = b then diagonal else diagonal + 1
    let entry := Nat.min (Nat.min (up + 1) (left + 1)) substitution
    entry :: extendRow x entry bs (up :: above)
  | _, _ => []

/-- The row that follows `above` by one more character. -/
def nextRow (x : Char) (bs : List Char) (above : List Nat) : List Nat :=
  let first := above.headD 0 + 1
  first :: extendRow x first bs above

/-- The row of a text, given the row of the empty one. -/
def row (bs : List Char) : List Char → List Nat → List Nat
  | [], above => above
  | x :: xs, above => row bs xs (nextRow x bs above)

/-- The edit distance of two lists of characters. -/
def distance (xs bs : List Char) : Nat :=
  (row bs xs (List.range (bs.length + 1))).getLastD 0

end Gsx.EditDistance
