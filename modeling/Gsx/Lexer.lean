import Gsx.Comment
import Gsx.Diagnostic
import Gsx.Lexer.Braces
import Gsx.Lexer.Cursor
import Gsx.Lexer.GoText
import Gsx.Lexer.Lexeme
/-!
# The lexer

A lexer is a cursor in a source together with what it has found so far: the
comments that nobody has claimed yet and the errors. Tokens are read one at a
time; comments are no tokens but are kept aside. Embedded Go is not cut into
tokens: its text is taken whole, either as the expression at the cursor or as
the text between braces at a given offset.
-/

namespace Gsx

/-- The state of lexing one source. -/
structure Lexer where
  name : String
  source : List Char
  cursor : Cursor
  /-- Where the token being read starts. -/
  tokenStart : Position
  /-- Comments read and not yet taken. -/
  pending : List Comment
  /-- The line on which the last comment ended, zero when a token has been
  read since. It outlives the taking of the comment. -/
  lastCommentLine : Nat
  diagnostics : List Diagnostic
  deriving DecidableEq, Repr

namespace Lexer

/-- A lexer at the start of a source. -/
def ofSource (name source : String) : Lexer :=
  ⟨name, source.toList, .start source.toList, .nowhere, [], 0, []⟩

/-- The characters from one offset up to another. -/
def slice (l : Lexer) (start stop : Nat) : List Char :=
  (l.source.drop start).take (stop - start)

/-- The text from one offset up to another, both clamped to the source. -/
def sourceRange (l : Lexer) (start stop : Int) : String :=
  String.ofList (l.slice start.toNat stop.toNat)

/-- Moves the cursor by a number of steps. -/
def step (l : Lexer) (n : Nat) : Lexer :=
  { l with cursor := l.cursor.advance n }

/-- Records an error at a position. -/
def report (l : Lexer) (p : Position) (f : LexicalFault) : Lexer :=
  { l with diagnostics := l.diagnostics ++ [.error l.name p f.message] }

/-- Records an error where the token being read starts. -/
def reportHere (l : Lexer) (f : LexicalFault) : Lexer :=
  l.report l.tokenStart f

/-! ## Comments -/

/-- Whether a blank line separates a comment that starts on `line` from the
comment before it. A token between the two fills the gap, unless the earlier
comment is still pending. -/
def isAfterBlankLine (l : Lexer) (line : Nat) : Bool :=
  match l.pending.getLast? with
  | some c => decide (c.stop.line + 1 < line)
  | none => decide (0 < l.lastCommentLine) && decide (l.lastCommentLine + 1 < line)

/-- Reads a comment of a given length. -/
def collect (l : Lexer) (isBlock : Bool) (length : Nat) : Lexer :=
  let stop := l.cursor.advance length
  let comment : Comment :=
    { text := String.ofList (l.cursor.rest.take length)
      position := l.cursor.position
      stop := stop.position
      isBlock := isBlock
      blankBefore := l.isAfterBlankLine l.cursor.position.line
      offset := l.cursor.offset }
  { l with
    cursor := stop
    pending := l.pending ++ [comment]
    lastCommentLine := stop.position.line }

/-- The length of the rest of a block comment, end marker included. -/
def blockLength? : List Char → Option Nat
  | [] => none
  | '*' :: '/' :: _ => some 2
  | _ :: rest => (blockLength? rest).map (· + 1)

/-- One move over blanks or a comment; none in front of anything else. A block
comment without an end is an error and takes the rest of the input. -/
def skipOne? (l : Lexer) : Option Lexer :=
  match l.cursor.rest with
  | ' ' :: _ | '\t' :: _ | '\r' :: _ => some (l.step 1)
  | '/' :: '/' :: rest => some (l.collect false ((rest.takeWhile (· != '\n')).length + 2))
  | '/' :: '*' :: rest =>
    match blockLength? rest with
    | some n => some (l.collect true (n + 2))
    | none =>
      some ((l.report l.cursor.position .unterminatedComment).step (rest.length + 2))
  | _ => none

/-- Moves over blanks and comments, at most `fuel` times. -/
def skipUpTo : Nat → Lexer → Lexer
  | 0, l => l
  | fuel + 1, l =>
    match l.skipOne? with
    | some l' => skipUpTo fuel l'
    | none => l

/-- Moves over all blanks and comments at the cursor. -/
def skipTrivia (l : Lexer) : Lexer :=
  skipUpTo l.cursor.rest.length l

/-- Takes the pending comments. -/
def takeComments (l : Lexer) : List Comment × Lexer :=
  (l.pending, { l with pending := [] })

/-! ## Tokens -/

/-- Marks the cursor as the start of a token. -/
def startToken (l : Lexer) : Lexer :=
  { l with tokenStart := l.cursor.position }

/-- Whether a token of a kind fills the gap between two comments. -/
def fillsGap (kind : TokenKind) : Bool :=
  kind != .newline && kind != .endOfInput

/-- Reads a lexeme at the cursor as a token. -/
def emit (l : Lexer) (x : Lexeme) : Token × Lexer :=
  let l' := match x.fault with
    | some f => l.reportHere f
    | none => l
  let gap := if fillsGap x.kind then 0 else l.lastCommentLine
  (⟨x.kind, String.ofList x.literal, l.tokenStart, l.cursor.offset⟩,
    { l' with cursor := l.cursor.advance x.steps, lastCommentLine := gap })

/-- The lexeme at the front of what is left of a source. -/
def lexemeAt : List Char → Lexeme
  | [] => .sound .endOfInput [] 0
  | c :: rest => .read c rest

/-- Reads the next token. -/
def next (l : Lexer) : Token × Lexer :=
  let l := l.skipTrivia.startToken
  l.emit (lexemeAt l.cursor.rest)

/-- Reads tokens up to the end of the input, at most `fuel` of them. -/
def tokensUpTo : Nat → Lexer → List Token × Lexer
  | 0, l => ([], l)
  | fuel + 1, l =>
    let (t, l) := l.next
    if t.kind = .endOfInput then ([t], l)
    else
      let (ts, l) := tokensUpTo fuel l
      (t :: ts, l)

/-- Reads all tokens, the end of the input included. -/
def tokenize (l : Lexer) : List Token × Lexer :=
  tokensUpTo (l.cursor.rest.length + 1) l

/-! ## Embedded Go -/

/-- The lexeme of the Go expression at the front of a list, closing brace
included. -/
def expressionLexeme (cs : List Char) : Lexeme :=
  let e := GoText.extent cs
  if e.length < cs.length then .sound .goExpression (cs.take e.length) (e.length + 1)
  else .faulty .unmatchedBrace cs (e.length + e.beyond)

/-- What is wrong with the brackets of an expression that has its closing
brace. -/
def bracketFaults (cs : List Char) : List LexicalFault :=
  let e := GoText.extent cs
  if e.length < cs.length then
    (if e.depths.parentheses = 0 then [] else [.unmatchedParentheses])
      ++ (if e.depths.brackets = 0 then [] else [.unmatchedBrackets])
  else []

/-- Reads the Go expression at the cursor, whose opening brace has been read,
and the brace that closes it. -/
def readExpression (l : Lexer) : Token × Lexer :=
  let l := l.startToken
  let l := (bracketFaults l.cursor.rest).foldl reportHere l
  l.emit (expressionLexeme l.cursor.rest)

/-- Reads the text between the brace at an offset and the brace that closes
it, and puts the cursor behind the latter. Comments from the opening brace on
are part of the text and pending no more. A failure leaves the lexer as it
is. -/
def readBraces (l : Lexer) (start : Int) : Except BraceFault (String × Lexer) :=
  match start with
  | .negSucc _ => .error .noBraceThere
  | .ofNat start =>
    match l.source.drop start with
    | '{' :: rest =>
      match Braces.closing? rest with
      | some length =>
        .ok (String.ofList (rest.take length),
          { l with
            pending := l.pending.filter (fun c => c.offset < start)
            cursor := (Cursor.start l.source).advance (start + length + 2) })
      | none => .error .neverClosed
    | _ => .error .noBraceThere

end Lexer

end Gsx
