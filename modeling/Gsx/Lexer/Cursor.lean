import Gsx.Position
/-!
# The cursor

A place between two characters of a source, with its offset, line and column.
Every move of the cursor is a number of single steps, so the coordinates are
those of a scan from the start. A step at the end of the input only moves the
column.
-/

namespace Gsx

/-- A place in a source: the characters that follow it and its coordinates. -/
structure Cursor where
  rest : List Char
  offset : Nat
  position : Position
  deriving DecidableEq, Repr

namespace Cursor

/-- The cursor before the first character. -/
def start (source : List Char) : Cursor :=
  ⟨source, 0, ⟨1, 1⟩⟩

/-- The position after a character at `p`. -/
def after (p : Position) (c : Char) : Position :=
  if c = '\n' then ⟨p.line + 1, 1⟩ else ⟨p.line, p.column + 1⟩

/-- One step to the right. -/
def next (c : Cursor) : Cursor :=
  match c.rest with
  | [] => { c with position := ⟨c.position.line, c.position.column + 1⟩ }
  | ch :: rest => ⟨rest, c.offset + 1, after c.position ch⟩

/-- A number of steps to the right. -/
def advance : Nat → Cursor → Cursor
  | 0, c => c
  | n + 1, c => advance n c.next

/-- The character at the cursor, unless it is at the end. -/
def current? (c : Cursor) : Option Char :=
  c.rest.head?

theorem rest_next (c : Cursor) : c.next.rest = c.rest.tail := by
  unfold next
  split <;> simp_all

theorem rest_advance (n : Nat) (c : Cursor) : (advance n c).rest = c.rest.drop n := by
  induction n generalizing c with
  | zero => rfl
  | succ n ih => rw [advance, ih, rest_next]; simp

theorem advance_add (m n : Nat) (c : Cursor) : advance (m + n) c = advance n (advance m c) := by
  induction m generalizing c with
  | zero => simp [advance]
  | succ m ih => rw [Nat.succ_add, advance, ih, advance]

end Cursor

end Gsx
