import Gsx.Text.Quoted
/-!
# Lexical faults

What can be wrong with the characters of a source.
-/

namespace Gsx

/-- The cause of a lexical error. -/
inductive LexicalFault where
  | unexpectedCharacter (c : Char)
  | unknownDirective (word : String)
  | unterminatedString
  | emptyRune
  | unterminatedRune
  | unterminatedRawString
  | unterminatedComment
  | unmatchedBrace
  | unmatchedParentheses
  | unmatchedBrackets
  deriving DecidableEq, Repr

/-- The message for a lexical error. -/
def LexicalFault.message : LexicalFault → String
  | .unexpectedCharacter c => "unexpected character " ++ Text.quoted (String.singleton c)
  | .unknownDirective word => "unknown @ keyword: @" ++ word
  | .unterminatedString => "unterminated string literal"
  | .emptyRune => "empty rune literal"
  | .unterminatedRune => "unterminated rune literal"
  | .unterminatedRawString => "unterminated raw string literal"
  | .unterminatedComment => "unterminated block comment"
  | .unmatchedBrace => "unterminated Go expression: unmatched '\x7b'"
  | .unmatchedParentheses => "unterminated Go expression: unmatched parentheses"
  | .unmatchedBrackets => "unterminated Go expression: unmatched brackets"

/-- Why the text between braces at a given offset cannot be read. -/
inductive BraceFault where
  | noBraceThere
  | neverClosed
  deriving DecidableEq, Repr

/-- The message for unreadable braces. -/
def BraceFault.message : BraceFault → String
  | .noBraceThere => "invalid start position for balanced braces"
  | .neverClosed => "unterminated braces: unmatched '\x7b'"

end Gsx
