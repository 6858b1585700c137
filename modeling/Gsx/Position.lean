/-!
# Positions

Lines and columns count from one, columns in characters. The position `0:0`
stands for no place in the source. Columns are integers, so that shifting a
position to the left and back again changes nothing.
-/

namespace Gsx

/-- A place in a source. -/
structure Position where
  line : Nat
  column : Int
  deriving DecidableEq, Repr, Inhabited

namespace Position

/-- The position of what has no place in the source. -/
def nowhere : Position := ⟨0, 0⟩

/-- The place a number of columns further right. -/
def shifted (p : Position) (columns : Int) : Position :=
  { p with column := p.column + columns }

theorem shifted_zero (p : Position) : p.shifted 0 = p := by
  simp [shifted]

theorem shifted_shifted (p : Position) (a b : Int) :
    (p.shifted a).shifted b = p.shifted (a + b) := by
  simp [shifted, Int.add_assoc]

/-- The text `line:column`, after the file name where there is one. -/
def describe (file : String) (p : Position) : String :=
  let place := toString p.line ++ ":" ++ toString p.column
  if file = "" then place else file ++ ":" ++ place

end Position

end Gsx
