/-!
# Embedded Go text

A scan of Go source for the brace that ends it. The scan knows string, raw
string and rune literals, whose brackets do not count, and keeps the depths of
braces, parentheses and brackets outside them. Comments are not known to it.
-/

namespace Gsx

/-- Where a scan of Go text stands: in code, or inside a literal. -/
inductive GoText.Mode where
  | code
  | string
  | stringEscape
  | rawString
  /-- After the opening quote of a rune. -/
  | rune
  /-- After the backslash of a rune. -/
  | runeEscape
  /-- Where the closing quote of a rune may stand. -/
  | runeEnd
  deriving DecidableEq, Repr

/-- The bracket depths of a scan. -/
structure GoText.Depths where
  braces : Nat
  parentheses : Int
  brackets : Int
  deriving DecidableEq, Repr

/-- The result of a scan: the length of the text, the depths at its end, and
the steps taken beyond the end of the input (one where it ends inside an
escape or a rune). -/
structure GoText.Extent where
  length : Nat
  depths : GoText.Depths
  beyond : Nat
  deriving DecidableEq, Repr

namespace GoText

/-- The mode after a character of code. -/
def Mode.ofCode (c : Char) : Mode :=
  if c = '"' then .string else if c = '\x60' then .rawString else if c = '\'' then .rune else .code

/-- The mode after a character. A character other than a quote that follows
the character of a rune is code. -/
def Mode.after (m : Mode) (c : Char) : Mode :=
  match m with
  | .code => ofCode c
  | .string => if c = '"' then .code else if c = '\\' then .stringEscape else .string
  | .stringEscape => .string
  | .rawString => if c = '\x60' then .code else .rawString
  | .rune => if c = '\\' then .runeEscape else .runeEnd
  | .runeEscape => .runeEnd
  | .runeEnd => if c = '\'' then .code else ofCode c

/-- Whether a character read in a mode is code. -/
def Mode.readsCode (m : Mode) (c : Char) : Bool :=
  match m with
  | .code => true
  | .runeEnd => c != '\''
  | _ => false

/-- The depths after a character of code. -/
def Depths.after (d : Depths) (c : Char) : Depths :=
  match c with
  | '{' => { d with braces := d.braces + 1 }
  | '}' => { d with braces := d.braces - 1 }
  | '(' => { d with parentheses := d.parentheses + 1 }
  | ')' => { d with parentheses := d.parentheses - 1 }
  | '[' => { d with brackets := d.brackets + 1 }
  | ']' => { d with brackets := d.brackets - 1 }
  | _ => d

/-- The steps that a scan takes beyond the end of the input. -/
def Mode.beyond : Mode → Nat
  | .stringEscape | .rune | .runeEscape => 1
  | _ => 0

/-- Adds a character to an extent. -/
def Extent.grow (e : Extent) : Extent :=
  { e with length := e.length + 1 }

/-- Scans up to the brace that brings the depth of braces to zero. -/
def scan (m : Mode) (d : Depths) : List Char → Extent
  | [] => ⟨0, d, m.beyond⟩
  | c :: rest =>
    if m.readsCode c then
      let d' := d.after c
      if d'.braces = 0 then ⟨0, d', 0⟩ else (scan (m.after c) d' rest).grow
    else (scan (m.after c) d rest).grow

/-- The extent of the expression that follows an opening brace. -/
def extent (cs : List Char) : Extent :=
  scan .code ⟨1, 0, 0⟩ cs

end GoText

end Gsx
