import Gsx.Grammar.Attribute
/-!
# Bodies

The recursive part of the grammar: bodies and the nodes in them. A body is the
content of a component, a loop, a branch or a call; the content of an element
is read by rules of its own, with free text and without Go statements.

The readers call each other on what is left of the source. Each has a bound on
the depth of its calls, and `TokenStream.depth` is more than any source needs:
at most four calls follow each other without a token being read. Without depth
left a reader reads nothing, and the stream remembers.
-/

namespace Gsx

/-- The nodes of a body, and the comments that belong to none of them. -/
structure Body where
  nodes : List Node
  orphans : List CommentGroup
  deriving Repr

namespace Body

/-- A body without nodes. -/
def onlyComments (gs : List CommentGroup) : Body := ⟨[], gs⟩

/-- What stands at one place of a body: comments, and the node after them. Either
may be missing. -/
structure Part where
  leading : Option CommentGroup
  node : Option Node
  deriving Repr

/-- Puts a part in front of a body: a node takes the comments before it, and
without a node the comments stay alone. -/
def push (p : Part) (b : Body) : Body :=
  match p.node, p.leading with
  | some n, some g => { b with nodes := n.withLeading g :: b.nodes }
  | some n, none => { b with nodes := n :: b.nodes }
  | none, some g => { b with orphans := g :: b.orphans }
  | none, none => b

/-- The body of some parts, with the comments after the last one. -/
def ofParts (parts : List Part) (orphans : List CommentGroup) : Body :=
  parts.foldr push (onlyComments orphans)

end Body

/-- A body between braces, and the comment after the opening brace. -/
structure Block where
  trailing : Option CommentGroup
  body : Body
  deriving Repr

/-- A bound on the depth of calls that a source needs. -/
def TokenStream.depth (s : TokenStream) : Nat :=
  4 * (s.lexer.source.length + 2)

namespace Parse

/-- Reads an expression in braces, or the children slot. -/
def expressionNode : Parse (Option Node) := do
  match ← goExpr with
  | some e =>
    if e.code = "children..." then return some (.slot ⟨e.position, none⟩)
    else return some (.expression e)
  | none => return none

/-- Reads the name of a loop variable. -/
def loopVariable (f : GrammarFault) : Parse (Option String) := do
  let t ← current
  if t.kind = .underscore || t.kind = .identifier then
    advance
    return some t.literal
  else
    report f
    return none

/-- Reads the variables of a loop: the index, which may be missing, and the
value. -/
def loopVariables : Parse (Option (String × String)) := do
  match ← loopVariable .expectedLoopVariable with
  | none => return none
  | some first =>
    if (← kind) = .comma then
      advance
      match ← loopVariable .expectedSecondLoopVariable with
      | none => return none
      | some second => return some (first, second)
    else return some ("", first)

/-- Reads a loop up to its block. -/
def forHead : Parse (Option ForHead) := do
  let p ← position
  advance
  match ← loopVariables with
  | none => return none
  | some (index, value) =>
    if ← expect .colonEquals then
      if (← kind) = .rangeWord then
        advance
        let iterable ← goHeader
        skipNewlines
        return some ⟨index, value, iterable, p, none, none, []⟩
      else
        report .expectedRange
        return none
    else return none

/-- Reads a call up to its block. -/
def callHead : Parse (Option CallHead) := do
  let t ← current
  advance
  if ← expect .leftParen then
    let args ← goArguments
    if ← expect .rightParen then
      skipNewlines
      return some ⟨t.literal, args, t.position, none, []⟩
    else return none
  else return none

/-- Reads the name of a binding and the sign before its element. -/
def letHead : Parse (Option LetHead) := do
  let p ← position
  advance
  let t ← current
  if t.kind = .identifier then
    advance
    if ← expectLine .equals then return some ⟨t.literal, p, none⟩
    else return none
  else
    report .expectedLetName
    return none

/-- Reads the name after `#`, if there is one. The outer none stands for a
failure. -/
def refName : Parse (Option (Option String)) := do
  if (← kind) = .hash then
    advance
    let t ← current
    if t.kind = .identifier then
      advance
      return some (some t.literal)
    else
      report .expectedRefName
      return none
  else return some none

/-- Reads an opening tag up to the sign that ends it. -/
def elementHead : Parse (Option ElementHead) := do
  let p ← position
  advance
  let t ← current
  if t.kind = .identifier then
    advance
    match ← refName with
    | none => return none
    | some ref =>
      let (key, attrs) := splitKey (← attributes)
      return some ⟨t.literal, attrs, false, ref, key, p, none, none, []⟩
  else
    report .expectedTagName
    return none

/-- Reads the name in a closing tag. Reports one that is missing or another. -/
def closingName (tag : String) : Parse Unit := do
  let t ← current
  if t.kind = .identifier && t.literal = tag then advance
  else
    report (.mismatchedClosingTag tag t.literal)
    if t.kind = .identifier then advance

/-- Reads a closing tag and the comment after it. Reports a tag that is
missing. -/
def closingTag (tag : String) : Parse (Option CommentGroup) := do
  if (← kind) = .angleSlash then
    advance
    closingName tag
    let line := (← position).line
    if ← expect .rightAngle then
      let trailing ← trailingComment line
      skipNewlines
      return trailing
    else return none
  else
    report (.expectedClosingTag tag)
    return none

/-- One round of a body that ends at certain tokens. -/
def bodyRound (ends : Token → Bool) (node : Parse (Option Node)) : Parse (Round Body.Part) := do
  skipNewlines
  if ends (← current) then return .last []
  let leading ← leadingComments
  let n ← node
  return .more [⟨leading, n⟩]

/-- Reads nodes up to a token that ends the body. -/
def nodes (ends : Token → Bool) (node : Parse (Option Node)) : Parse Body := do
  let parts ← repeated (bodyRound ends node)
  return .ofParts parts (← orphanComments)

/-- Reads nothing, for want of depth. -/
def tooDeep {α : Type} (a : α) : Parse α := do
  exhaust
  return a

mutual

/-- Reads a body up to the end of its block. -/
def body : Nat → Parse Body
  | 0 => tooDeep (.onlyComments [])
  | depth + 1 => nodes Token.endsBody (bodyNode depth)

/-- Reads a node of a body. -/
def bodyNode : Nat → Parse (Option Node)
  | 0 => tooDeep none
  | depth + 1 => do
    let k ← kind
    match k with
    | .leftAngle | .atLet | .atFor | .atIf | .atCall | .leftBrace => markup depth
    | k =>
      if k.startsStatement then return some (.goCode (← goStatement))
      else
        report (.unexpectedInBody k)
        advance
        return none

/-- Reads a node that may stand in any body: an element, a directive, a call or
an expression. -/
def markup : Nat → Parse (Option Node)
  | 0 => tooDeep none
  | depth + 1 => do
    match ← kind with
    | .leftAngle =>
      match ← element depth with
      | some (head, children) => return some (.element head children)
      | none => return none
    | .atLet =>
      match ← letHead with
      | some head =>
        if (← kind) = .leftAngle then
          match ← element depth with
          | some (e, children) => return some (.letBinding head e children)
          | none => return none
        else
          report .expectedLetElement
          return none
      | none => return none
    | .atFor => forLoop depth
    | .atIf => conditional depth
    | .atCall => call depth
    | _ => expressionNode

/-- Reads the content of an element up to its closing tag. Tokens that mean
nothing there are dropped. -/
def content : Nat → Parse Body
  | 0 => tooDeep (.onlyComments [])
  | depth + 1 => nodes Token.endsContent (contentNode depth)

/-- Reads a node of the content of an element. -/
def contentNode : Nat → Parse (Option Node)
  | 0 => tooDeep none
  | depth + 1 => do
    let k ← kind
    match k with
    | .leftAngle | .atLet | .atFor | .atIf | .atCall | .leftBrace => markup depth
    | k =>
      if k.isText then return some (.text (← text))
      else
        advance
        return none

/-- Reads an element with its content and closing tag. An element without its
closing tag is kept. -/
def element : Nat → Parse (Option (ElementHead × List Node))
  | 0 => tooDeep none
  | depth + 1 => do
    match ← elementHead with
    | none => return none
    | some head =>
      let t ← current
      if t.kind = .slashAngle then
        advanceLine
        let trailing ← trailingComment t.position.line
        return some ({ head with selfClosing := true, trailing := trailing }, [])
      else if ← expect .rightAngle then
        let inner ← content depth
        let trailing ← closingTag head.tag
        return some ({ head with trailing := trailing, orphans := inner.orphans }, inner.nodes)
      else return none

/-- Reads a body between braces. -/
def block : Nat → Parse (Option Block)
  | 0 => tooDeep none
  | depth + 1 => do
    let line := (← position).line
    if ← expect .leftBrace then
      let trailing ← trailingComment line
      skipNewlines
      let inner ← body depth
      if ← expectLine .rightBrace then return some ⟨trailing, inner⟩
      else return none
    else return none

/-- Reads a loop. -/
def forLoop : Nat → Parse (Option Node)
  | 0 => tooDeep none
  | depth + 1 => do
    match ← forHead with
    | none => return none
    | some head =>
      match ← block depth with
      | none => return none
      | some b =>
        return some (.forLoop { head with trailing := b.trailing, orphans := b.body.orphans }
          b.body.nodes)

/-- Reads a conditional with its else branch. -/
def conditional : Nat → Parse (Option Node)
  | 0 => tooDeep none
  | depth + 1 => do
    let p ← position
    advance
    let condition ← goHeader
    skipNewlines
    match ← block depth with
    | none => return none
    | some b =>
      let otherwise ← elseBranch depth
      return some (.conditional
        ⟨condition, p, none, b.trailing, b.body.orphans ++ otherwise.orphans⟩
        b.body.nodes otherwise.nodes)

/-- Reads the else branch of a conditional, empty where there is none. A branch
that is another conditional has no comments of its own. -/
def elseBranch : Nat → Parse Body
  | 0 => tooDeep (.onlyComments [])
  | depth + 1 => do
    if (← kind) = .atElse then
      advanceLine
      if (← kind) = .atIf then
        return ⟨(← conditional depth).toList, []⟩
      else if ← expect .leftBrace then
        skipNewlines
        let inner ← body depth
        let _ ← expectLine .rightBrace
        return inner
      else return .onlyComments []
    else return .onlyComments []

/-- Reads a call with the block of children passed on, if there is one. -/
def call : Nat → Parse (Option Node)
  | 0 => tooDeep none
  | depth + 1 => do
    match ← callHead with
    | none => return none
    | some head =>
      if (← kind) = .leftBrace then
        advanceLine
        let inner ← body depth
        if ← expectLine .rightBrace then
          return some (.call { head with orphans := inner.orphans } inner.nodes)
        else return none
      else return some (.call head [])

end

end Parse

end Gsx
