import Gsx.Json.Value
import Gsx.Number.Numeral
import Gsx.Text.Hex
import Gsx.Text.Search
/-!
# Reading JSON

A reader for one JSON value with blanks around it. It takes the names of the
special floats as numbers. Strings hold no control characters. Of two members
of one name the later one counts. Whole numbers of too many digits are refused
for their length.
-/

namespace Gsx.Json

/-- Why a text is no JSON value. -/
inductive ReadError where
  | malformed
  | number (cause : NumberError)
  deriving DecidableEq, Repr

/-- Drops blanks. -/
def skipBlanks (cs : List Char) : List Char :=
  cs.dropWhile fun c => c == ' ' || c == '\t' || c == '\n' || c == '\r'

/-- The value of four hexadecimal digits at the front of a list. -/
def unit? : List Char → Option (Nat × List Char)
  | a :: b :: c :: d :: rest => do
    let a ← Text.hexValue? a
    let b ← Text.hexValue? b
    let c ← Text.hexValue? c
    let d ← Text.hexValue? d
    return (a * 4096 + b * 256 + c * 16 + d, rest)
  | _ => none

/-- Whether a code unit is the first half of a surrogate pair. -/
def isHighUnit (n : Nat) : Bool := 0xD800 ≤ n && n ≤ 0xDBFF

/-- Whether a code unit is the second half of a surrogate pair. -/
def isLowUnit (n : Nat) : Bool := 0xDC00 ≤ n && n ≤ 0xDFFF

/-- The character that an escape by code units stands for, given what follows
the `u`. Half a pair alone is replaced. -/
def unitChar? (cs : List Char) : Option (Char × List Char) := do
  let (n, rest) ← unit? cs
  if isHighUnit n then
    match Text.after? ['\\', 'u'] rest with
    | some low =>
      match unit? low with
      | some (m, rest') =>
        if isLowUnit m then
          return (Char.ofNat (0x10000 + (n - 0xD800) * 0x400 + (m - 0xDC00)), rest')
        else return ('\uFFFD', rest)
      | none => none
    | none => return ('\uFFFD', rest)
  else if isLowUnit n then return ('\uFFFD', rest)
  else return (Char.ofNat n, rest)

/-- The character that a plain escape stands for. -/
def plainEscape? : Char → Option Char
  | '"' => some '"'
  | '\\' => some '\\'
  | '/' => some '/'
  | 'b' => some '\x08'
  | 'f' => some '\x0c'
  | 'n' => some '\n'
  | 'r' => some '\r'
  | 't' => some '\t'
  | _ => none

/-- The rest of a string after its opening quote, in at most `fuel` pieces. -/
def stringBody? : Nat → List Char → Option (List Char × List Char)
  | 0, _ => none
  | _ + 1, [] => none
  | fuel + 1, c :: rest =>
    if c = '"' then some ([], rest)
    else if c = '\\' then do
      let (v, rest) ← match rest with
        | 'u' :: rest => unitChar? rest
        | e :: rest => (plainEscape? e).map fun v => (v, rest)
        | [] => none
      let (vs, rest) ← stringBody? fuel rest
      return (v :: vs, rest)
    else if c.toNat < 0x20 then none
    else do
      let (vs, rest) ← stringBody? fuel rest
      return (c :: vs, rest)

/-- A string at the front of a list, after its opening quote. -/
def readString (cs : List Char) : Except ReadError (String × List Char) :=
  match stringBody? (cs.length + 1) cs with
  | some (s, rest) => .ok (String.ofList s, rest)
  | none => .error .malformed

/-- The digits of the whole part of a number: zero, or digits that do not start
with zero. -/
def wholeDigits : List Char → List Char
  | '0' :: _ => ['0']
  | cs => cs.takeWhile Char.isDigit

/-- The point and digits of a number, empty where no digit follows the
point. -/
def fractionDigits : List Char → List Char
  | '.' :: rest =>
    let ds := rest.takeWhile Char.isDigit
    if ds.isEmpty then [] else '.' :: ds
  | _ => []

/-- The sign of an exponent. -/
def exponentSign : List Char → List Char
  | c :: _ => if c = '+' || c = '-' then [c] else []
  | [] => []

/-- The exponent of a number, empty where it has no digits. -/
def exponentDigits : List Char → List Char
  | c :: rest =>
    if c = 'e' || c = 'E' then
      let sign := exponentSign rest
      let ds := (rest.drop sign.length).takeWhile Char.isDigit
      if ds.isEmpty then [] else c :: (sign ++ ds)
    else []
  | [] => []

/-- A number at the front of a list, after its sign. -/
def readNumber (sign : List Char) (cs : List Char) : Except ReadError (Json × List Char) :=
  let whole := wholeDigits cs
  if whole.isEmpty then .error .malformed
  else
    let fraction := fractionDigits (cs.drop whole.length)
    let exponent := exponentDigits (cs.drop (whole.length + fraction.length))
    let rest := cs.drop (whole.length + fraction.length + exponent.length)
    let value : Json := .number (String.ofList (sign ++ whole ++ fraction ++ exponent))
    if fraction.isEmpty && exponent.isEmpty then
      match Numeral.read whole with
      | .ok _ => .ok (value, rest)
      | .error e => .error (.number e)
    else .ok (value, rest)

/-- The values that are single words. -/
def words : List (String × Json) := [
  ("null", .null), ("true", .bool true), ("false", .bool false), ("NaN", .number "NaN"),
  ("Infinity", .number "Infinity"), ("-Infinity", .number "-Infinity")]

/-- A word or a number at the front of a list. -/
def readScalar (cs : List Char) : Except ReadError (Json × List Char) :=
  match words.findSome? fun w => (Text.after? w.1.toList cs).map fun rest => (w.2, rest) with
  | some found => .ok found
  | none =>
    match cs with
    | '-' :: rest => readNumber ['-'] rest
    | _ => readNumber [] cs

mutual

/-- A value at the front of a list, with at most `fuel` calls one inside the
other. -/
def readValue : Nat → List Char → Except ReadError (Json × List Char)
  | 0, _ => .error .malformed
  | fuel + 1, cs =>
    match cs with
    | '"' :: rest => do
      let (s, rest) ← readString rest
      return (.string s, rest)
    | '[' :: rest =>
      match skipBlanks rest with
      | ']' :: rest => .ok (.array [], rest)
      | rest => do
        let (items, rest) ← readItems fuel rest
        return (.array items, rest)
    | '{' :: rest =>
      match skipBlanks rest with
      | '}' :: rest => .ok (.object [], rest)
      | rest => do
        let (members, rest) ← readMembers fuel [] rest
        return (.object members, rest)
    | cs => readScalar cs

/-- The items of an array up to its end, the next one at the front. -/
def readItems : Nat → List Char → Except ReadError (List Json × List Char)
  | 0, _ => .error .malformed
  | fuel + 1, cs => do
    let (item, rest) ← readValue fuel cs
    match skipBlanks rest with
    | ']' :: rest => return ([item], rest)
    | ',' :: rest =>
      let (items, rest) ← readItems fuel (skipBlanks rest)
      return (item :: items, rest)
    | _ => .error .malformed

/-- The members of an object up to its end, the next one at the front, after
the members `before`. -/
def readMembers : Nat → List (String × Json) → List Char → Except ReadError (List (String × Json) × List Char)
  | 0, _, _ => .error .malformed
  | fuel + 1, before, cs =>
    match cs with
    | '"' :: rest => do
      let (key, rest) ← readString rest
      match skipBlanks rest with
      | ':' :: rest =>
        let (value, rest) ← readValue fuel (skipBlanks rest)
        let members := setMember before (key, value)
        match skipBlanks rest with
        | '}' :: rest => return (members, rest)
        | ',' :: rest => readMembers fuel members (skipBlanks rest)
        | _ => .error .malformed
      | _ => .error .malformed
    | _ => .error .malformed

end

/-- Reads a text that is one value. -/
def parse (s : String) : Except ReadError Json := do
  let cs := s.toList
  let (value, rest) ← readValue (2 * cs.length + 2) (skipBlanks cs)
  if (skipBlanks rest).isEmpty then return value else .error .malformed

end Gsx.Json
