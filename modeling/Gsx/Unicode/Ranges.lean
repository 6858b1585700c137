/-!
# Character tables

A class of characters is an ascending list of code point ranges, and a
look-up walks the list until it reaches or passes the code point. Where a
class holds every second code point of a stretch (capital and small letters
alternate in many scripts) the table carries a stride.
-/

namespace Gsx.Unicode

/-- Whether a code point lies in one of the ranges `(first, last)` of an
ascending table. -/
def inRanges (n : Nat) : List (Nat × Nat) → Bool
  | [] => false
  | (first, last) :: rest =>
    if n < first then false else if n ≤ last then true else inRanges n rest

/-- Whether a code point lies in one of the stretches `(first, last, stride)`
of an ascending table. -/
def inStrides (n : Nat) : List (Nat × Nat × Nat) → Bool
  | [] => false
  | (first, last, stride) :: rest =>
    if n < first then false
    else if n ≤ last then (n - first) % stride == 0
    else inStrides n rest

end Gsx.Unicode
