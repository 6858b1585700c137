import Gsx.Position
import Gsx.Text.Blank
import Gsx.Text.Search
/-!
# Comments

Line and block comments with their extent, and the groups they form: comments
with no blank line between them belong together.
-/

namespace Gsx

/-- A comment, markers included. -/
structure Comment where
  text : String
  position : Position
  /-- Where the first character after the comment stands. -/
  stop : Position
  isBlock : Bool
  blankBefore : Bool
  offset : Nat
  deriving DecidableEq, Repr

/-- Comments that follow each other without a blank line. -/
structure CommentGroup where
  comments : List Comment
  deriving DecidableEq, Repr

/-- What follows `lead`, or the whole list where it does not start so. -/
def Comment.without (lead cs : List Char) : List Char :=
  (Text.after? lead cs).getD cs

/-- The comment without its markers and without blank ends. -/
def Comment.stripped (c : Comment) : String :=
  let cs := c.text.toList
  if c.isBlock then
    let body := Comment.without ['/', '*'] cs
    Text.trim (String.ofList (Comment.without ['/', '*'] body.reverse).reverse)
  else Text.trim (String.ofList (Comment.without ['/', '/'] cs))

/-- The bodies of the comments, one under the other. -/
def CommentGroup.text (g : CommentGroup) : String :=
  "\n".intercalate (g.comments.map Comment.stripped)

/-- Whether a blank line separates a comment from the one before it. -/
def Comment.isFarFrom (c before : Comment) : Bool :=
  decide (before.stop.line + 1 < c.position.line)

/-- Puts a comment in front of groups: into the first one, unless a blank line
separates it from that group's first comment. -/
def CommentGroup.push (c : Comment) : List CommentGroup → List CommentGroup
  | [] => [⟨[c]⟩]
  | g :: rest =>
    match g.comments with
    | [] => ⟨[c]⟩ :: rest
    | d :: ds => if d.isFarFrom c then ⟨[c]⟩ :: ⟨d :: ds⟩ :: rest else ⟨c :: d :: ds⟩ :: rest

/-- Splits comments into groups, at the blank lines. -/
def CommentGroup.ofComments : List Comment → List CommentGroup
  | [] => []
  | c :: rest => CommentGroup.push c (ofComments rest)

end Gsx
