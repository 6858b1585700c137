import Gsx.Grammar.Capture
import Gsx.Number.FloatLiteral
/-!
# Attributes and text

The parts of an element that hold no further nodes: its attributes, and free
text, whose words are joined by single blanks.
-/

namespace Gsx.Parse

/-- The value of an integer literal. A numeral that is too long counts as an
interruption. -/
def intValue (literal : String) : Parse Nat := do
  match Numeral.read literal.toList with
  | .ok n => return n
  | .error e =>
    modify fun s => { s with interruption := s.interruption <|> some ⟨e, s.recoveries⟩ }
    return 0

/-- The value of a float literal, zero where the literal is invalid. -/
def floatValue (literal : String) : Parse Binary64 := do
  match FloatLiteral.value? literal with
  | some x => return x
  | none =>
    report (.invalidFloat literal)
    return .zero

/-- Reads an attribute value at the current token, with the position where its
text starts. -/
def attributeValue : Parse (Option (AttributeValue × Position)) := do
  let t ← current
  let p := t.position
  match t.kind with
  | .string =>
    advance
    return some (.string t.literal p, p.shifted 1)
  | .int =>
    let n ← intValue t.literal
    advance
    return some (.int n p, p)
  | .float =>
    let x ← floatValue t.literal
    advance
    return some (.float x p, p)
  | .leftBrace =>
    match ← goExpr with
    | some e => return some (.expression e, p)
    | none => return none
  | .identifier =>
    advance
    if t.literal = "true" then return some (.bool true p, p)
    else if t.literal = "false" then return some (.bool false p, p)
    else return some (.expression ⟨t.literal, p, none⟩, p)
  | k =>
    report (.expectedAttributeValue k)
    return none

/-- Reads an attribute: a name with a value, or a bare name, which is short for
the value true. -/
def attr : Parse (Option Attribute) := do
  let t ← current
  advance
  if (← kind) = .equals then
    advance
    match ← attributeValue with
    | some (value, p) => return some ⟨t.literal, value, t.position, p⟩
    | none => return none
  else
    return some ⟨t.literal, .bool true t.position, t.position, t.position⟩

/-- One round of attributes. They may stand on several lines. -/
def attributeRound : Parse (Round Attribute) := do
  skipNewlines
  if (← kind) = .identifier then return .more (← attr).toList
  else return .last []

/-- Reads the attributes of an element. -/
def attributes : Parse (List Attribute) :=
  repeated attributeRound

/-- Takes the key expression out of the attributes: the value of the first
attribute named `key` that has an expression. -/
def splitKey : List Attribute → Option GoExpr × List Attribute
  | [] => (none, [])
  | a :: rest =>
    match a.name, a.value with
    | "key", .expression e => (some e, rest)
    | _, _ => ((splitKey rest).1, a :: (splitKey rest).2)

/-! ## Text -/

/-- Free text read so far, and the kind of the last token in it. -/
structure TextState where
  text : String
  last : TokenKind
  deriving DecidableEq, Repr

/-- Adds a token to free text, after a blank where it is a word that follows a
word or a comma, colon or semicolon. -/
def textStep (s : TextState) (t : Token) : Option TextState :=
  if t.kind.isText then
    let space := t.kind.isWord && (s.last.isWord || s.last.wantsSpace)
    some ⟨s.text ++ (if space then " " else "") ++ t.literal, t.kind⟩
  else none

/-- Reads free text. -/
def text : Parse TextContent := do
  let p ← position
  let s ← scan textStep ⟨"", .newline⟩
  return ⟨s.text, p⟩

end Gsx.Parse
