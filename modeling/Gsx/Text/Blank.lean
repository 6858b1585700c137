/-!
# Blanks

The blanks that separate words and surround trimmed text, over Unicode. A text
is the sequence of its runs of non-blank characters and the gaps between them.
-/

namespace Gsx.Text

/-- Whether a character is blank: the controls from tab to carriage return and
from U+001C to U+001F, the space, and the spaces and separators beyond ASCII. -/
def isBlank (c : Char) : Bool :=
  let n := c.toNat
  (9 ≤ n && n ≤ 13) || (28 ≤ n && n ≤ 32) || n == 0x85 || n == 0xA0 || n == 0x1680
    || (0x2000 ≤ n && n ≤ 0x200A) || n == 0x2028 || n == 0x2029 || n == 0x202F
    || n == 0x205F || n == 0x3000

/-- A list without its blank ends. -/
def trimList (cs : List Char) : List Char :=
  ((cs.dropWhile isBlank).reverse.dropWhile isBlank).reverse

/-- A text without its blank ends. -/
def trim (s : String) : String :=
  String.ofList (trimList s.toList)

/-- A maximal stretch of characters of one class, and where it starts. -/
structure Run where
  start : Nat
  text : List Char
  deriving DecidableEq, Repr

/-- Prepends a character at `offset` to the runs that follow it: it joins the
next run where that one starts right after it. -/
def Run.push (offset : Nat) (c : Char) : List Run → List Run
  | [] => [⟨offset, [c]⟩]
  | r :: rest =>
    if r.start = offset + 1 then ⟨offset, c :: r.text⟩ :: rest else ⟨offset, [c]⟩ :: r :: rest

/-- The maximal runs of characters that satisfy `p`, in order, for a list that
starts at `offset`. -/
def runsFrom (p : Char → Bool) (offset : Nat) : List Char → List Run
  | [] => []
  | c :: rest =>
    if p c then Run.push offset c (runsFrom p (offset + 1) rest) else runsFrom p (offset + 1) rest

/-- The words of a text: its runs of characters that are not blank. -/
def words (cs : List Char) : List (List Char) :=
  (runsFrom (fun c => !isBlank c) 0 cs).map (·.text)

end Gsx.Text
