import Gsx.Unicode.Case
import Gsx.Unicode.Digit
import Gsx.Unicode.Letter
/-!
# Identifiers

Go identifiers as the analysis recognises them: plain ASCII ones in Go code,
and exported ones, of any script, as names of references.
-/

namespace Gsx

/-- Whether a character is a letter, digit or underscore of ASCII. -/
def isAsciiWord (c : Char) : Bool :=
  c.isAlphanum || c == '_'

/-- Whether a text is one ASCII identifier. -/
def isSimpleIdentifier (s : String) : Bool :=
  match s.toList with
  | [] => false
  | c :: rest => (c.isAlpha || c == '_') && rest.all isAsciiWord

/-- Whether a text can name a reference: an upper-case character, then letters,
digits and underscores. -/
def isValidRefName (s : String) : Bool :=
  match s.toList with
  | [] => false
  | c :: rest =>
    Unicode.isUppercase c
      && rest.all fun c => Unicode.isLetter c || Unicode.isDigit c || c == '_'

end Gsx
