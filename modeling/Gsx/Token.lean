import Gsx.Position
import Gsx.Text.Quoted
/-!
# Tokens

The kinds of lexical tokens and how a token is shown in messages.
-/

namespace Gsx

/-- The kind of a token. -/
inductive TokenKind where
  | endOfInput | error | newline
  | packageWord | importWord | funcWord | returnWord | ifWord | elseWord | forWord | rangeWord
  | atComponent | atLet | atFor | atIf | atElse | atCall
  | identifier | int | float | string | rawString | rune
  | leftParen | rightParen | leftBrace | rightBrace | leftAngle | rightAngle
  | leftBracket | rightBracket
  | slash | equals | comma | dot | colon | semicolon | colonEquals | ampersand | pipe | star
  | plus | minus | bang | underscore | hash | percent | caret | tilde
  | goExpression | slashAngle | angleSlash
  deriving DecidableEq, Repr, Inhabited

namespace TokenKind

/-- The name of a kind in messages. -/
def text : TokenKind → String
  | .endOfInput => "EOF" | .error => "Error" | .newline => "Newline"
  | .packageWord => "package" | .importWord => "import" | .funcWord => "func"
  | .returnWord => "return" | .ifWord => "if" | .elseWord => "else" | .forWord => "for"
  | .rangeWord => "range"
  | .atComponent => "@component" | .atLet => "@let" | .atFor => "@for" | .atIf => "@if"
  | .atElse => "@else" | .atCall => "@Call"
  | .identifier => "Ident" | .int => "Int" | .float => "Float" | .string => "String"
  | .rawString => "RawString" | .rune => "Rune"
  | .leftParen => "(" | .rightParen => ")" | .leftBrace => "\x7b" | .rightBrace => "\x7d"
  | .leftAngle => "<" | .rightAngle => ">" | .leftBracket => "[" | .rightBracket => "]"
  | .slash => "/" | .equals => "=" | .comma => "," | .dot => "." | .colon => ":"
  | .semicolon => ";" | .colonEquals => ":=" | .ampersand => "&" | .pipe => "|" | .star => "*"
  | .plus => "+" | .minus => "-" | .bang => "!" | .underscore => "_" | .hash => "#"
  | .percent => "%" | .caret => "^" | .tilde => "~"
  | .goExpression => "GoExpr" | .slashAngle => "/>" | .angleSlash => "</"

/-- The kind of a word: a keyword, or else an identifier. -/
def ofWord (word : String) : TokenKind :=
  match word with
  | "package" => .packageWord
  | "import" => .importWord
  | "func" => .funcWord
  | "return" => .returnWord
  | "if" => .ifWord
  | "else" => .elseWord
  | "for" => .forWord
  | "range" => .rangeWord
  | _ => .identifier

/-- The kind of the directive that an `@` and this word make, if there is one. -/
def ofDirective? (word : String) : Option TokenKind :=
  match word with
  | "component" => some .atComponent
  | "let" => some .atLet
  | "for" => some .atFor
  | "if" => some .atIf
  | "else" => some .atElse
  | _ => none

/-- The kind of a character that is a token of its own wherever it stands. -/
def ofPunctuation? : Char → Option TokenKind
  | '(' => some .leftParen
  | ')' => some .rightParen
  | '{' => some .leftBrace
  | '}' => some .rightBrace
  | '[' => some .leftBracket
  | ']' => some .rightBracket
  | '>' => some .rightAngle
  | '=' => some .equals
  | ',' => some .comma
  | ';' => some .semicolon
  | '&' => some .ampersand
  | '|' => some .pipe
  | '*' => some .star
  | '+' => some .plus
  | '-' => some .minus
  | '!' => some .bang
  | '#' => some .hash
  | '%' => some .percent
  | '^' => some .caret
  | '~' => some .tilde
  | _ => none

/-- Whether a kind opens a bracket. -/
def isOpener : TokenKind → Bool
  | .leftParen | .leftBracket | .leftBrace => true
  | _ => false

/-- Whether a kind closes a bracket. -/
def isCloser : TokenKind → Bool
  | .rightParen | .rightBracket | .rightBrace => true
  | _ => false

end TokenKind

/-- A token: its kind, its literal text, and where it starts. -/
structure Token where
  kind : TokenKind
  literal : String
  position : Position
  start : Nat
  deriving DecidableEq, Repr, Inhabited

namespace Token

/-- The literal as messages show it: quoted, and cut where it is long. -/
def shownLiteral (t : Token) : String :=
  let cs := t.literal.toList
  if 20 < cs.length then Text.quoted (String.ofList (cs.take 17 ++ ['.', '.', '.']))
  else Text.quoted t.literal

/-- The token as messages show it. -/
def text (t : Token) : String :=
  let place := " at " ++ t.position.describe ""
  if t.literal = "" then t.kind.text ++ place
  else t.kind.text ++ "(" ++ t.shownLiteral ++ ")" ++ place

end Token

end Gsx
