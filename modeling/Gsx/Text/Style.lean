import Gsx.Text.Search
/-!
# Terminal styles

Control sequences that tell a terminal to change colour or style, or to move.
Printed text must not carry them, wherever its pieces come from. Removing them
is a single scan from the left: what stands before and after a removed sequence
is not read again, even if it makes a new one.
-/

namespace Gsx.Text

/-- Whether a character may stand between the lead of a control sequence and
its final letter. -/
def isStyleParameter (c : Char) : Bool :=
  c == ';' || c == '?' || c.isDigit

/-- The length of the control sequence at the front of a list: an escape
character and an opening bracket, parameters, and an ASCII letter. -/
def styleLength? (cs : List Char) : Option Nat :=
  match after? ['\x1b', '['] cs with
  | none => none
  | some rest =>
    let parameters := rest.takeWhile isStyleParameter
    match rest.drop parameters.length with
    | c :: _ => if c.isAlpha then some (parameters.length + 3) else none
    | [] => none

/-- Removes the control sequences from a list, after `skip` characters that
belong to the sequence before. -/
def dropStyles (skip : Nat) : List Char → List Char
  | [] => []
  | c :: rest =>
    match skip with
    | skip + 1 => dropStyles skip rest
    | 0 =>
      match styleLength? (c :: rest) with
      | some length => dropStyles (length - 1) rest
      | none => c :: dropStyles 0 rest

/-- A text without control sequences. -/
def unstyled (s : String) : String :=
  String.ofList (dropStyles 0 s.toList)

end Gsx.Text
