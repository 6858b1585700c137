import Gsx.Lexer.Fault
import Gsx.Token
import Gsx.Unicode.Case
import Gsx.Unicode.Digit
import Gsx.Unicode.Letter
/-!
# Lexemes

The token at the front of a list of characters, whatever stands before it: its
kind, its literal, how many steps it takes and what is wrong with it. Reading
a lexeme looks at nothing but the characters from its first one on.
-/

namespace Gsx

/-- A token before it has a place. Where the input ends inside an escape,
`steps` counts one step beyond the end. -/
structure Lexeme where
  kind : TokenKind
  literal : List Char
  steps : Nat
  fault : Option LexicalFault
  deriving DecidableEq, Repr

namespace Lexeme

/-- A lexeme in which nothing is wrong. -/
def sound (kind : TokenKind) (literal : List Char) (steps : Nat) : Lexeme :=
  ⟨kind, literal, steps, none⟩

/-- A lexeme that is an error. -/
def faulty (fault : LexicalFault) (literal : List Char) (steps : Nat) : Lexeme :=
  ⟨.error, literal, steps, some fault⟩

/-- Whether a character may start a word. -/
def startsWord (c : Char) : Bool :=
  c == '_' || Unicode.isLetter c

/-- Whether a character may continue a word. -/
def continuesWord (c : Char) : Bool :=
  startsWord c || Unicode.isDecimal c

/-- A keyword or an identifier. -/
def word (cs : List Char) : Lexeme :=
  let literal := cs.takeWhile continuesWord
  sound (.ofWord (String.ofList literal)) literal literal.length

/-- A directive or the name of a called component, given what follows the
`@`. -/
def directive (cs : List Char) : Lexeme :=
  let name := if cs.head?.any startsWord then cs.takeWhile continuesWord else []
  match TokenKind.ofDirective? (String.ofList name) with
  | some kind => sound kind ('@' :: name) (name.length + 1)
  | none =>
    if name.head?.any Unicode.isUppercase then sound .atCall name (name.length + 1)
    else faulty (.unknownDirective (String.ofList name)) ('@' :: name) (name.length + 1)

/-- What a backslash and a character stand for in a literal that `quote`
ends; unknown escapes have no meaning. -/
def escape? (quote c : Char) : Option Char :=
  if c = quote then some c
  else
    match c with
    | 'n' => some '\n'
    | 't' => some '\t'
    | 'r' => some '\r'
    | '\\' => some '\\'
    | '0' => some '\x00'
    | _ => none

/-- What follows an opening quote: the characters meant, the steps taken, and
whether the closing quote was found. -/
structure StringBody where
  value : List Char
  steps : Nat
  closed : Bool
  deriving DecidableEq, Repr

/-- Puts a piece of `steps` steps in front of a string body. -/
def StringBody.push (piece : List Char) (steps : Nat) (body : StringBody) : StringBody :=
  ⟨piece ++ body.value, steps + body.steps, body.closed⟩

/-- The body of a string literal. It ends at the closing quote, at the end of
a line or at the end of the input; an unknown escape stands for itself,
backslash included. -/
def stringBody : List Char → StringBody
  | [] => ⟨[], 0, false⟩
  | ['\\'] => ⟨['\\'], 2, false⟩
  | '\\' :: c :: rest =>
    (stringBody rest).push (match escape? '"' c with | some v => [v] | none => ['\\', c]) 2
  | c :: rest =>
    if c = '"' then ⟨[], 1, true⟩
    else if c = '\n' then ⟨[], 0, false⟩
    else (stringBody rest).push [c] 1

/-- A string literal, given what follows its opening quote. -/
def string (cs : List Char) : Lexeme :=
  let body := stringBody cs
  if body.closed then sound .string body.value (body.steps + 1)
  else faulty .unterminatedString body.value (body.steps + 1)

/-- A rune of `steps` steps with its opening quote, given what follows. -/
def runeEnd (value : List Char) (steps : Nat) (rest : List Char) : Lexeme :=
  if rest.head? = some '\'' then sound .rune value (steps + 1)
  else faulty .unterminatedRune value steps

/-- A rune literal, given what follows its opening quote. -/
def rune : List Char → Lexeme
  | [] => faulty .emptyRune [] 1
  | ['\\'] => faulty .unterminatedRune [] 3
  | '\\' :: c :: rest => runeEnd [(escape? '\'' c).getD c] 3 rest
  | c :: rest => if c = '\'' then faulty .emptyRune [] 2 else runeEnd [c] 2 rest

/-- A raw string literal, given what follows its opening quote. -/
def rawString (cs : List Char) : Lexeme :=
  let literal := cs.takeWhile (· != '\x60')
  if literal.length < cs.length then sound .rawString literal (literal.length + 2)
  else faulty .unterminatedRawString literal (literal.length + 1)

/-- The digits after an exponent mark, with the sign before them. -/
def exponentDigits : List Char → List Char
  | [] => []
  | c :: rest =>
    if c = '+' || c = '-' then c :: rest.takeWhile Unicode.isDecimal
    else (c :: rest).takeWhile Unicode.isDecimal

/-- The exponent at the front of a list, empty where there is none. -/
def exponentPart : List Char → List Char
  | [] => []
  | c :: rest => if c = 'e' || c = 'E' then c :: exponentDigits rest else []

/-- The point and the digits after it, empty where there is no point. -/
def fractionPart : List Char → List Char
  | [] => []
  | c :: rest => if c = '.' then c :: rest.takeWhile Unicode.isDecimal else []

/-- An integer or a float. -/
def number (cs : List Char) : Lexeme :=
  let whole := cs.takeWhile Unicode.isDecimal
  let fraction := fractionPart (cs.drop whole.length)
  let exponent := exponentPart (cs.drop (whole.length + fraction.length))
  let literal := whole ++ fraction ++ exponent
  let kind := if fraction.isEmpty && exponent.isEmpty then TokenKind.int else .float
  sound kind literal literal.length

/-- The lexeme that starts with `c`, given what follows. -/
def read (c : Char) (rest : List Char) : Lexeme :=
  match c with
  | '\n' => sound .newline ['\n'] 1
  | '<' => if rest.head? = some '/' then sound .angleSlash ['<', '/'] 2 else sound .leftAngle ['<'] 1
  | '/' => if rest.head? = some '>' then sound .slashAngle ['/', '>'] 2 else sound .slash ['/'] 1
  | '.' => if rest.head?.any Unicode.isDecimal then number (c :: rest) else sound .dot ['.'] 1
  | ':' => if rest.head? = some '=' then sound .colonEquals [':', '='] 2 else sound .colon [':'] 1
  | '_' => if rest.head?.any continuesWord then word (c :: rest) else sound .underscore ['_'] 1
  | '@' => directive rest
  | '"' => string rest
  | '\'' => rune rest
  | '\x60' => rawString rest
  | _ =>
    match TokenKind.ofPunctuation? c with
    | some kind => sound kind [c] 1
    | none =>
      if startsWord c then word (c :: rest)
      else if Unicode.isDecimal c then number (c :: rest)
      else faulty (.unexpectedCharacter c) [c] 1

end Lexeme

end Gsx
