/-!
# Balanced braces

The text from just after an opening brace to the brace that closes it, as a
sequence of items: string, raw string and rune literals, in which braces do
not count, braces that open and close, and all other characters.
-/

namespace Gsx.Braces

/-- The length of what is left of a string literal, closing quote included. -/
def stringLength : List Char → Nat
  | [] => 0
  | ['\\'] => 1
  | '\\' :: _ :: rest => stringLength rest + 2
  | c :: rest => if c = '"' then 1 else stringLength rest + 1

/-- The length of what is left of a raw string literal, closing quote
included. -/
def rawStringLength : List Char → Nat
  | [] => 0
  | c :: rest => if c = '\x60' then 1 else rawStringLength rest + 1

/-- The length of what is left of a rune, with the closing quote where one
stands there. -/
def runeLength : List Char → Nat
  | '\\' :: _ :: '\'' :: _ => 3
  | '\\' :: _ => 2
  | _ :: '\'' :: _ => 2
  | _ :: _ => 1
  | [] => 0

/-- The offset of the brace that closes `depth + 1` open ones, looking at no
more than `fuel` items. -/
def closingFrom : Nat → Nat → List Char → Option Nat
  | 0, _, _ => none
  | _ + 1, _, [] => none
  | fuel + 1, depth, c :: rest =>
    match c with
    | '{' => (closingFrom fuel (depth + 1) rest).map (· + 1)
    | '}' =>
      match depth with
      | 0 => some 0
      | depth + 1 => (closingFrom fuel depth rest).map (· + 1)
    | '"' =>
      (closingFrom fuel depth (rest.drop (stringLength rest))).map (· + (stringLength rest + 1))
    | '\x60' =>
      (closingFrom fuel depth (rest.drop (rawStringLength rest))).map
        (· + (rawStringLength rest + 1))
    | '\'' =>
      (closingFrom fuel depth (rest.drop (runeLength rest))).map (· + (runeLength rest + 1))
    | _ => (closingFrom fuel depth rest).map (· + 1)

/-- The offset of the brace that closes the one just before a list. -/
def closing? (cs : List Char) : Option Nat :=
  closingFrom (cs.length + 1) 0 cs

/-- The text up to the brace that closes the one just before a list. -/
def content? (cs : List Char) : Option (List Char) :=
  (closing? cs).map cs.take

end Gsx.Braces
