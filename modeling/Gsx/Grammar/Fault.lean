import Gsx.Lexer.Fault
import Gsx.Token
/-!
# Grammatical faults

What can be wrong with the tokens of a source.
-/

namespace Gsx

/-- The cause of a grammatical error. -/
inductive GrammarFault where
  | expectedToken (want got : TokenKind)
  | expectedPackage
  | expectedPackageName
  | expectedDeclaration (got : TokenKind)
  | expectedImportPath
  | expectedComponentName
  | expectedFunctionName
  | unterminatedFunction
  | expectedParameterName
  | unexpectedInBody (got : TokenKind)
  | expectedTagName
  | expectedRefName
  | expectedClosingTag (tag : String)
  | mismatchedClosingTag (tag got : String)
  | expectedAttributeValue (got : TokenKind)
  | invalidFloat (literal : String)
  | unreadableBraces (cause : BraceFault)
  | expectedLetName
  | expectedLetElement
  | expectedLoopVariable
  | expectedSecondLoopVariable
  | expectedRange
  deriving DecidableEq, Repr

/-- The message for a grammatical error. -/
def GrammarFault.message : GrammarFault → String
  | .expectedToken want got => "expected " ++ want.text ++ ", got " ++ got.text
  | .expectedPackage => "expected 'package' declaration"
  | .expectedPackageName => "expected package name"
  | .expectedDeclaration got =>
    "unexpected token " ++ got.text ++ ", expected @component, func, type, const, or var"
  | .expectedImportPath => "expected import path string"
  | .expectedComponentName => "expected component name"
  | .expectedFunctionName => "expected function name"
  | .unterminatedFunction => "unterminated function definition"
  | .expectedParameterName => "expected parameter name"
  | .unexpectedInBody got => "unexpected token " ++ got.text ++ " in body"
  | .expectedTagName => "expected element tag name"
  | .expectedRefName => "expected identifier after '#' for named ref"
  | .expectedClosingTag tag => "expected closing tag </" ++ tag ++ ">"
  | .mismatchedClosingTag tag got =>
    "mismatched closing tag: expected </" ++ tag ++ ">, got </" ++ got ++ ">"
  | .expectedAttributeValue got => "expected attribute value, got " ++ got.text
  | .invalidFloat literal => "invalid float literal " ++ literal
  | .unreadableBraces cause => cause.message
  | .expectedLetName => "expected variable name after @let"
  | .expectedLetElement => "expected element after @let ="
  | .expectedLoopVariable => "expected loop variable"
  | .expectedSecondLoopVariable => "expected second loop variable"
  | .expectedRange => "expected 'range'"

end Gsx
