import Gsx.Grammar.SourceFile
import Gsx.Proofs.Lexer.Locality
import Gsx.Tree.Basic
/-!
# Rendering a tree

The text of a tree, one node a line, and the trees that have a text: those
whose names, Go fragments and words read as what they are. A layout gives the
margin of every line, so a tree has as many texts as there are layouts.
-/

namespace Gsx.Rendering

/-! ## Lexemes of a text -/

/-- Whether a character only separates lexemes. -/
def isGap (c : Char) : Bool :=
  c == ' ' || c == '\t' || c == '\r'

/-- Whether a comment starts at the front of a text. -/
def opensComment : List Char → Bool
  | '/' :: c :: _ => c == '/' || c == '*'
  | _ => false

/-- The lexemes of a text, none if it has a comment or a lexeme in which
something is wrong. Looks at no more than `fuel` lexemes and gaps. -/
def lexemesUpTo : Nat → List Char → Option (List Lexeme)
  | _, [] => some []
  | 0, _ => none
  | fuel + 1, c :: rest =>
    if isGap c then lexemesUpTo fuel rest
    else if opensComment (c :: rest) || (Lexeme.read c rest).fault.isSome then none
    else
      (lexemesUpTo fuel ((c :: rest).drop (Lexeme.read c rest).steps)).map
        (Lexeme.read c rest :: ·)

/-- The lexemes of a text without comments in which nothing is wrong. -/
def lexemes? (cs : List Char) : Option (List Lexeme) :=
  lexemesUpTo cs.length cs

/-- A lexeme as a token that stands nowhere. -/
def token (x : Lexeme) : Token :=
  ⟨x.kind, String.ofList x.literal, .nowhere, 0⟩

/-- What a scan makes of the lexemes of a text, if it takes all of them. -/
def scanned {σ : Type} (step : σ → Token → Option σ) (a : σ) (cs : List Char) : Option σ :=
  (lexemes? cs).bind fun xs => xs.foldlM (fun a x => step a (token x)) a

/-! ## Leaves -/

/-- Whether a text is a word. -/
def isWord : List Char → Bool
  | [] => false
  | c :: rest => Lexeme.startsWord c && rest.all Lexeme.continuesWord

/-- Whether a text is a name: a word other than the keywords and the lone
underscore. -/
def isName (cs : List Char) : Bool :=
  isWord cs && cs != ['_'] && TokenKind.ofWord (String.ofList cs) == .identifier

/-- Whether a text may name a loop variable. -/
def isLoopName (cs : List Char) : Bool :=
  isName cs || cs == ['_']

/-- Whether a text may name a called component. -/
def isCallName (cs : List Char) : Bool :=
  isWord cs && cs.head?.any Unicode.isUppercase

/-- Whether a text has no blank ends. -/
def isTrimmed (cs : List Char) : Bool :=
  Text.trimList cs == cs

/-- Whether a text may head a loop or conditional: no line end and no brace, but
in literals. -/
def isHeader (cs : List Char) : Bool :=
  isTrimmed cs
    && (lexemes? cs).any (·.all fun x => x.kind != .leftBrace && x.kind != .newline)

/-- Whether a text may be the arguments of a call: its parentheses balance. -/
def isArguments (cs : List Char) : Bool :=
  isTrimmed cs && scanned Parse.argumentStep 1 cs == some 1

/-- Whether a text may be the type of a parameter: its brackets balance, and
commas stand inside them. -/
def isType (cs : List Char) : Bool :=
  isTrimmed cs && !cs.isEmpty && scanned Parse.typeStep 0 cs == some 0

/-- Whether a text may be a Go statement: it starts like one, its brackets
balance, and line ends stand inside them. -/
def isStatement (cs : List Char) : Bool :=
  isTrimmed cs
    && ((lexemes? cs).bind (·.head?)).any fun x =>
      x.kind.startsStatement
        && (scanned Parse.statementStep ⟨0, x.kind == .forWord⟩ cs).any (·.depth == 0)

/-- Whether a text may stand between braces: its own braces balance, and what
comes first is neither a comment nor an error. -/
def isCode (cs : List Char) : Bool :=
  isTrimmed cs && Braces.closing? (cs ++ ['}']) == some cs.length && !opensComment cs
    && (Lexer.lexemeAt cs).fault.isNone

/-- Whether a text is a word of free text. -/
def isTextWord (cs : List Char) : Bool :=
  let k := (Lexer.lexemeAt cs).kind
  k.isWord && Lexer.lexemeAt cs == .sound k cs cs.length

/-- Whether a text is a sequence of words with single blanks between them. -/
def isText (cs : List Char) : Bool :=
  (cs.splitOn ' ').all isTextWord

/-- Whether an expression may stand between braces. -/
def isExpression (e : GoExpr) : Bool :=
  isCode e.code.toList && e.leading.isNone

/-- Whether an attribute value has a text. -/
def isValue : AttributeValue → Bool
  | .string _ _ | .bool _ _ => true
  | .int n _ => decide ((Nat.toDigits 10 n).length ≤ Numeral.maxDigits)
  | .float _ _ => false
  | .expression e => isExpression e

/-- Whether an attribute is read as the key of its element. -/
def isKey (a : Attribute) : Bool :=
  match a.value with
  | .expression _ => a.name == "key"
  | _ => false

/-- Whether an attribute has a text. -/
def isAttribute (a : Attribute) : Bool :=
  isName a.name.toList && isValue a.value

/-- Whether the opening tag of an element has a text. -/
def isElementHead (h : ElementHead) : Bool :=
  isName h.tag.toList && h.ref.all (isName ·.toList) && h.key.all isExpression
    && h.attributes.all (fun a => isAttribute a && !isKey a)
    && h.leading.isNone && h.trailing.isNone && h.orphans.isEmpty

/-! ## Trees that have a text -/

mutual

/-- Whether a node has a text where it stands: free text stands in the content of
an element only, and a Go statement everywhere else. -/
def isNode (inContent : Bool) : Node → Bool
  | .element h cs => isElementHead h && (!h.selfClosing || cs.isEmpty) && areNodes true cs
  | .letBinding h e cs =>
    isName h.name.toList && h.leading.isNone && isElementHead e && (!e.selfClosing || cs.isEmpty)
      && areNodes true cs
  | .forLoop h b =>
    isLoopName h.index.toList && isLoopName h.value.toList && isHeader h.iterable.toList
      && h.leading.isNone && h.trailing.isNone && h.orphans.isEmpty && areNodes false b
  | .conditional h t e =>
    isHeader h.condition.toList && h.leading.isNone && h.trailing.isNone && h.orphans.isEmpty
      && areNodes false t && areNodes false e
  | .call h cs =>
    isCallName h.name.toList && isArguments h.args.toList && h.leading.isNone && h.orphans.isEmpty
      && areNodes false cs
  | .slot s => s.leading.isNone
  | .expression e => isExpression e && e.code != "children..."
  | .letReference _ => false
  | .text t => inContent && isText t.text.toList
  | .goCode c => !inContent && isStatement c.code.toList && c.leading.isNone

/-- Whether all nodes of a body have a text there. -/
def areNodes (inContent : Bool) : List Node → Bool
  | [] => true
  | n :: ns => isNode inContent n && areNodes inContent ns

end

/-- Whether a parameter has a text. -/
def isParam (p : Param) : Bool :=
  isName p.name.toList && isType p.type.toList

/-- Whether a component has a text. -/
def isComponent (c : Component) : Bool :=
  isName c.name.toList && c.params.all isParam && areNodes false c.body && !c.acceptsChildren
    && c.leading.isNone && c.trailing.isNone && c.orphans.isEmpty

/-- Whether a file has a text: a package and components, and nothing else. -/
def isFile (f : SourceFile) : Bool :=
  isName f.package.toList && f.imports.isEmpty && f.decls.isEmpty && f.components.all isComponent
    && f.funcs.isEmpty && f.leading.isNone && f.orphans.isEmpty

/-! ## Their texts -/

/-- How many blanks stand before a line; before a node there is one more. Each line
has a path of its own, which leads to the body or the node that it belongs to. -/
abbrev Layout := List Nat → Nat

/-- The blanks before a line. -/
def margin (n : Nat) : List Char :=
  List.replicate n ' '

/-- A character in a string literal. -/
def escape (c : Char) : List Char :=
  match c with
  | '"' => ['\\', '"']
  | '\\' => ['\\', '\\']
  | '\n' => ['\\', 'n']
  | '\t' => ['\\', 't']
  | '\r' => ['\\', 'r']
  | '\x00' => ['\\', '0']
  | c => [c]

/-- A string literal. -/
def quoted (s : String) : List Char :=
  '"' :: s.toList.flatMap escape ++ ['"']

/-- Text between braces. -/
def braced (code : String) : List Char :=
  '{' :: code.toList ++ ['}']

/-- The text of an attribute value. Floats have none. -/
def value : AttributeValue → List Char
  | .string s _ => quoted s
  | .int n _ => Nat.toDigits 10 n
  | .float _ _ => []
  | .bool b _ => if b then ['t', 'r', 'u', 'e'] else ['f', 'a', 'l', 's', 'e']
  | .expression e => braced e.code

/-- The text of an attribute, with the blank before it. -/
def attr (a : Attribute) : List Char :=
  ' ' :: a.name.toList ++ '=' :: value a.value

/-- The attributes of an element, with its key as the first one. -/
def attributes (h : ElementHead) : List Attribute :=
  (h.key.map fun e => ⟨"key", .expression e, .nowhere, .nowhere⟩).toList ++ h.attributes

/-- The reference of an element, if it has one. -/
def reference (ref : Option String) : List Char :=
  ref.elim [] fun r => ' ' :: '#' :: r.toList

/-- What stands in an opening tag: the name of the element, its reference, its
key and its attributes. -/
def tag (h : ElementHead) : List Char :=
  h.tag.toList ++ reference h.ref ++ (attributes h).flatMap attr

/-- An element from its first sign on, given the text of its children and the
margin of its closing tag. -/
def element (h : ElementHead) (children : List Char) (n : Nat) : List Char :=
  '<' :: tag h ++
    if h.selfClosing then [' ', '/', '>', '\n']
    else ['>', '\n'] ++ children ++ margin n ++ ['<', '/'] ++ h.tag.toList ++ ['>', '\n']

/-- A block, given the text of its nodes and the margin of its closing brace. -/
def block (nodes : List Char) (n : Nat) : List Char :=
  '{' :: '\n' :: nodes ++ margin n ++ ['}']

/-- A binding up to its element. -/
def letHead (h : LetHead) : List Char :=
  ['@', 'l', 'e', 't', ' '] ++ h.name.toList ++ [' ', '=', ' ']

/-- A loop up to its block. -/
def forHead (h : ForHead) : List Char :=
  ['@', 'f', 'o', 'r', ' '] ++ h.index.toList ++ [',', ' '] ++ h.value.toList
    ++ [' ', ':', '=', ' ', 'r', 'a', 'n', 'g', 'e', ' '] ++ h.iterable.toList ++ [' ']

/-- A conditional up to its first block. -/
def ifHead (h : IfHead) : List Char :=
  ['@', 'i', 'f', ' '] ++ h.condition.toList ++ [' ']

/-- A call up to its block. -/
def callHead (h : CallHead) : List Char :=
  '@' :: h.name.toList ++ '(' :: h.args.toList ++ [')', ' ']

/-- The else branch of a conditional, given its nodes and their text. An empty
one has no text. -/
def otherwise (branch : List Node) (nodes : List Char) (n : Nat) : List Char :=
  if branch.isEmpty then [] else [' ', '@', 'e', 'l', 's', 'e', ' '] ++ block nodes n

mutual

/-- The text of a node, up to the end of its last line. -/
def node (layout : Layout) (path : List Nat) : Node → List Char
  | .element h cs => element h (nodes layout (1 :: path) cs) (layout path)
  | .letBinding h e cs => letHead h ++ element e (nodes layout (1 :: path) cs) (layout path)
  | .forLoop h b => forHead h ++ block (nodes layout (1 :: path) b) (layout path) ++ ['\n']
  | .conditional h t e =>
    ifHead h ++ block (nodes layout (1 :: path) t) (layout path)
      ++ otherwise e (nodes layout (3 :: path) e) (layout (2 :: path)) ++ ['\n']
  | .call h cs => callHead h ++ block (nodes layout (1 :: path) cs) (layout path) ++ ['\n']
  | .slot _ => braced "children..." ++ ['\n']
  | .expression e => braced e.code ++ ['\n']
  | .letReference _ => []
  | .text t => t.text.toList ++ ['\n']
  | .goCode c => c.code.toList ++ ['\n']

/-- The lines of a body. -/
def nodes (layout : Layout) (path : List Nat) : List Node → List Char
  | [] => []
  | n :: ns => margin (layout path + 1) ++ node layout (0 :: path) n ++ nodes layout (1 :: path) ns

end

/-- The text of a parameter. -/
def param (p : Param) : List Char :=
  p.name.toList ++ ' ' :: p.type.toList

/-- The text of a parameter list. -/
def params : List Param → List Char
  | [] => []
  | [p] => param p
  | p :: q :: ps => param p ++ [',', ' '] ++ params (q :: ps)

/-- The lines of a component. Only its body is indented. -/
def component (layout : Layout) (path : List Nat) (c : Component) : List Char :=
  ['@', 'c', 'o', 'm', 'p', 'o', 'n', 'e', 'n', 't', ' '] ++ c.name.toList
    ++ '(' :: params c.params ++ [')', ' '] ++ block (nodes layout path c.body) 0 ++ ['\n']

/-- The lines of some components. -/
def components (layout : Layout) (path : List Nat) : List Component → List Char
  | [] => []
  | c :: cs => component layout (0 :: path) c ++ components layout (1 :: path) cs

/-- **The text of a file** in a layout. -/
def file (layout : Layout) (f : SourceFile) : String :=
  String.ofList
    (['p', 'a', 'c', 'k', 'a', 'g', 'e', ' '] ++ f.package.toList
      ++ '\n' :: components layout [] f.components)

end Gsx.Rendering
