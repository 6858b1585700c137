import Gsx.Grammar.Landmark
import Gsx.Tree.Basic
/-!
# Captured Go

Go code is not read token by token into a tree but captured as source text.
Tokens only serve to find its end: by bracket depth, by a line end or by a
brace.
-/

namespace Gsx.Parse

/-- The offset at the end of what the lexer has read. -/
def lexedOffset : Parse Nat := do
  return (← get).lexer.cursor.offset

/-! ## Functions and declarations -/

/-- The brace depth after a token of a function. The body ends with the brace
that brings the depth to zero again, none standing for that brace. -/
def functionStep (depth : Int × Bool) (t : Token) : Option (Int × Bool) :=
  match t.kind with
  | .leftBrace => some (depth.1 + 1, true)
  | .rightBrace =>
    if depth.2 && depth.1 == 1 then none else some (depth.1 - 1, depth.2)
  | _ => some depth

/-- Captures a function that starts at an offset, up to the end of its body. -/
def goFunc (start : Nat) (p : Position) : Parse GoFunc := do
  let _ ← scan functionStep (0, false)
  let t ← current
  if t.kind = .endOfInput then
    reportAt p .unterminatedFunction
    return ⟨← sourceText start (← lexedOffset), p, none⟩
  else
    let code ← sourceText start (t.start + 1)
    advanceLine
    return ⟨code, p, none⟩

/-- The brace and parenthesis depths after a token of a declaration; none where
the declaration ends at the token. -/
def declStep (depth : Int × Int) (t : Token) : Option (Int × Int) :=
  let stay := fun d : Int × Int => if d = (0, 0) then none else some d
  match t.kind with
  | .leftBrace => some (depth.1 + 1, depth.2)
  | .leftParen => some (depth.1, depth.2 + 1)
  | .rightBrace => stay (depth.1 - 1, depth.2)
  | .rightParen => stay (depth.1, depth.2 - 1)
  | .newline => stay depth
  | _ => some depth

/-- Captures a `type`, `const` or `var` declaration: up to the closing bracket
that balances it, or up to the end of its line. -/
def goDecl : Parse GoDecl := do
  let first ← current
  let _ ← scan declStep (0, 0)
  let t ← current
  match t.kind with
  | .endOfInput =>
    return ⟨first.literal, ← sourceText first.start (← lexedOffset), first.position, none⟩
  | .newline =>
    let code ← sourceText first.start t.start
    skipNewlines
    return ⟨first.literal, code, first.position, none⟩
  | _ =>
    let code ← sourceText first.start (t.start + 1)
    advanceLine
    return ⟨first.literal, code, first.position, none⟩

/-! ## Types, statements and headers -/

/-- The bracket depth after a token of a type; none at the comma or parenthesis
that ends it. -/
def typeStep (depth : Int) (t : Token) : Option Int :=
  if (t.kind == .comma || t.kind == .rightParen) && depth == 0 then none
  else if t.kind.isOpener then some (depth + 1)
  else if t.kind.isCloser then some (depth - 1)
  else some depth

/-- Captures a parameter type. -/
def goType : Parse String := do
  let first ← current
  let _ ← scan typeStep 0
  let t ← current
  if t.kind = .endOfInput then trimmedText first.start (← lexedOffset)
  else trimmedText first.start t.start

/-- Where a statement stands: its bracket depth, and whether semicolons still
belong to the header of a `for`. -/
structure StatementState where
  depth : Int
  inHeader : Bool
  deriving DecidableEq, Repr

/-- The state after a token of a statement; none at the line end or semicolon
that ends it. -/
def statementStep (s : StatementState) (t : Token) : Option StatementState :=
  match t.kind with
  | .leftBrace => some ⟨s.depth + 1, false⟩
  | .newline => if s.depth = 0 then none else some s
  | .semicolon => if s.depth = 0 && !s.inHeader then none else some s
  | k =>
    if k.isOpener then some { s with depth := s.depth + 1 }
    else if k.isCloser then some { s with depth := s.depth - 1 }
    else some s

/-- Captures a Go statement, up to a line end or semicolon outside brackets. -/
def goStatement : Parse GoCode := do
  let first ← current
  let _ ← scan statementStep ⟨0, first.kind == .forWord⟩
  let t ← current
  if t.kind = .endOfInput then
    return ⟨← trimmedText first.start (← lexedOffset), first.position, none⟩
  else
    let code ← trimmedText first.start t.start
    advance
    return ⟨code, first.position, none⟩

/-- Captures the header of a loop or conditional: up to a brace or the end of
the line. -/
def goHeader : Parse String := do
  let first ← current
  skipWhile fun t => t.kind != .leftBrace && t.kind != .newline
  trimmedText first.start (← current).start

/-- The parenthesis depth after a token of call arguments; none at the
parenthesis that ends them. -/
def argumentStep (depth : Nat) (t : Token) : Option Nat :=
  match t.kind with
  | .leftParen => some (depth + 1)
  | .rightParen => if depth = 1 then none else some (depth - 1)
  | _ => some depth

/-- Captures call arguments, whose opening parenthesis has been read. -/
def goArguments : Parse String := do
  let first ← current
  let _ ← scan argumentStep 1
  trimmedText first.start (← current).start

/-! ## Text between braces -/

/-- The stream behind the braces at the current token, with the text between
them. The lexer goes back to the brace, and the lookahead is read anew. -/
def behindBraces (s : TokenStream) : Except BraceFault (String × TokenStream) :=
  match s.lexer.readBraces s.current.start with
  | .error f => .error f
  | .ok (code, l) =>
    let stop := l.cursor.offset
    let (current, l1) := l.next
    let (peek, l2) := l1.next
    .ok (code,
      { s with
        lexer := l2
        current := current
        peek := peek
        comments := s.comments.filter fun c => !(s.current.start < c.offset && c.offset < stop) })

/-- Passes an opening brace that is never closed. -/
def passBrace (f : BraceFault) : Parse (Option String) := do
  report (.unreadableBraces f)
  advance
  return none

/-- Reads the text between the braces that start at the current token. Where
they never close, only the opening brace is passed. -/
def bracedText : Parse (Option String) := do
  let s ← get
  match behindBraces s with
  | .ok (code, s') =>
    set s'
    return some code
  | .error f => passBrace f

/-- Reads an expression in braces. -/
def goExpr : Parse (Option GoExpr) := do
  let p ← position
  match ← bracedText with
  | some code => return some ⟨Text.trim code, p, none⟩
  | none => return none

end Gsx.Parse
