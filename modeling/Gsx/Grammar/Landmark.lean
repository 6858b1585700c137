import Gsx.Grammar.TokenStream
/-!
# Landmarks

Tokens by which a reader finds its place: where declarations start, which
tokens are text, and which start a Go statement.
-/

namespace Gsx

namespace Token

/-- Whether a token is an identifier that starts a Go declaration. -/
def isDeclWord (t : Token) : Bool :=
  t.kind == .identifier && ["type", "const", "var"].contains t.literal

/-- Whether a declaration starts at a token. Outside the first column only
`@component` starts one: elsewhere `func` is text or Go code. -/
def startsDeclaration (t : Token) : Bool :=
  t.kind == .atComponent
    || (t.position.column == 1 && (t.kind == .funcWord || t.isDeclWord))

/-- Whether reading can go on at a token after an error between declarations. -/
def isRestart (t : Token) : Bool :=
  t.kind == .funcWord || t.kind == .atComponent || t.isDeclWord

/-- Whether the body of a block ends at a token: at its brace, at the end of the
input, or where the next declaration begins. -/
def endsBody (t : Token) : Bool :=
  t.kind == .rightBrace || t.kind == .endOfInput || t.startsDeclaration

/-- Whether the content of an element ends at a token. -/
def endsContent (t : Token) : Bool :=
  t.kind == .angleSlash || t.endsBody

end Token

namespace TokenKind

/-- Whether a token is a word of free text. -/
def isWord : TokenKind → Bool
  | .identifier | .int | .float => true
  | .packageWord | .importWord | .funcWord | .returnWord | .ifWord | .elseWord | .forWord
  | .rangeWord => true
  | _ => false

/-- Whether a token may stand in free text. -/
def isText (k : TokenKind) : Bool :=
  k.isWord ||
    match k with
    | .comma | .slash | .dot | .colon | .semicolon | .bang | .minus | .plus | .star | .pipe
    | .ampersand | .equals | .leftParen | .rightParen | .leftBracket | .rightBracket
    | .underscore | .hash | .percent => true
    | _ => false

/-- Whether a blank stands between a sign and a word after it. -/
def wantsSpace : TokenKind → Bool
  | .comma | .colon | .semicolon => true
  | _ => false

/-- Whether a token starts a Go statement in a body. -/
def startsStatement : TokenKind → Bool
  | .identifier | .ifWord | .forWord | .funcWord | .returnWord => true
  | _ => false

end TokenKind

namespace Parse

/-- After an error between declarations, moves to where the next declaration
may start. -/
def recover : Parse Unit := do
  let failed ← current
  skipWhile (!·.isRestart)
  modify fun s => { s with recoveries := s.recoveries ++ [⟨failed, s.current⟩] }

end Parse

end Gsx
