import Gsx.Grammar.Fault
import Gsx.Lexer
import Gsx.Number.Numeral
/-!
# The token stream

A lexer with one token of lookahead, together with what reading has gathered:
comments that belong to no node yet, errors, and the places where reading
started over after an error. Reading is a state transformer on such streams.

Reading repeats itself in two ways. A scan moves over tokens as long as they
suit it, and stops at the end of the input at the latest; `repeated` reads items
in rounds, each of which says whether another one follows. Both stop after a
number of rounds that no source needs; a stream would remember if they had
to.
-/

namespace Gsx

/-- A restart after an error: the token at which reading gave up, and the one at
which it went on. -/
structure Recovery where
  failed : Token
  resumed : Token
  deriving DecidableEq, Repr

/-- A number that could not be computed, and the restarts before it. -/
structure Interruption where
  cause : NumberError
  recoveries : List Recovery
  deriving DecidableEq, Repr

/-- The state of reading a source. -/
structure TokenStream where
  lexer : Lexer
  current : Token
  peek : Token
  /-- Comments that belong to no node yet. -/
  comments : List Comment
  diagnostics : List Diagnostic
  recoveries : List Recovery
  /-- The first numeral that is too long to convert. -/
  interruption : Option Interruption
  /-- Whether reading stopped somewhere because a bound was reached. -/
  exhausted : Bool
  deriving DecidableEq, Repr

/-- A reader: what it reads, and the stream after it. -/
abbrev Parse := StateM TokenStream

namespace TokenStream

/-- The stream at the start of a source. -/
def ofSource (name source : String) : TokenStream :=
  let (current, l) := (Lexer.ofSource name source).next
  let (peek, l) := l.next
  ⟨l, current, peek, [], [], [], none, false⟩

/-- The stream one token further. -/
def advanced (s : TokenStream) : TokenStream :=
  let (t, l) := s.lexer.next
  { s with current := s.peek, peek := t, lexer := l }

/-- A bound on the number of rounds of any loop: each but the last one reads on
in the source. -/
def rounds (s : TokenStream) : Nat :=
  s.lexer.source.length + 1

/-- The stream with an error at a position. -/
def withError (s : TokenStream) (p : Position) (f : GrammarFault) : TokenStream :=
  { s with diagnostics := s.diagnostics ++ [.error s.lexer.name p f.message] }

/-- The stream with the comments of the lexer moved to its own. -/
def collected (s : TokenStream) : TokenStream :=
  let (cs, l) := s.lexer.takeComments
  { s with comments := s.comments ++ cs, lexer := l }

end TokenStream

namespace Parse

/-- The current token. -/
def current : Parse Token := do
  return (← get).current

/-- The kind of the current token. -/
def kind : Parse TokenKind := do
  return (← get).current.kind

/-- The position of the current token. -/
def position : Parse Position := do
  return (← get).current.position

/-- Moves one token further. -/
def advance : Parse Unit :=
  modify TokenStream.advanced

/-- Records an error at a position. -/
def reportAt (p : Position) (f : GrammarFault) : Parse Unit :=
  modify (·.withError p f)

/-- Records an error at the current token. -/
def report (f : GrammarFault) : Parse Unit := do
  reportAt (← position) f

/-- Notes that a bound was reached. -/
def exhaust : Parse Unit :=
  modify fun s => { s with exhausted := true }

/-- One round of a scan: moves over the current token if `step` takes it. -/
def scanRound {σ : Type} (step : σ → Token → Option σ) (a : σ) : Parse (Option σ) := do
  let t ← current
  if t.kind = .endOfInput then return none
  match step a t with
  | none => return none
  | some a' =>
    advance
    return some a'

/-- Reads on while `step` turns the state and the current token into a new
state, in at most `fuel` rounds. -/
def scanUpTo {σ : Type} (step : σ → Token → Option σ) : Nat → σ → Parse σ
  | 0, a => do
    exhaust
    return a
  | fuel + 1, a => do
    match ← scanRound step a with
    | none => return a
    | some a' => scanUpTo step fuel a'

/-- Reads on while `step` turns the state and the current token into a new
state. Stops at the end of the input. -/
def scan {σ : Type} (step : σ → Token → Option σ) (a : σ) : Parse σ := do
  scanUpTo step (← get).rounds a

/-- Reads on while the current token satisfies `p`. -/
def skipWhile (p : Token → Bool) : Parse Unit :=
  scan (fun () t => if p t then some () else none) ()

/-- Moves over line ends. -/
def skipNewlines : Parse Unit :=
  skipWhile (·.kind = .newline)

/-- Moves one token further and over line ends. -/
def advanceLine : Parse Unit := do
  advance
  skipNewlines

/-- Moves over a token of the given kind, or reports what stands there
instead. -/
def expect (want : TokenKind) : Parse Bool := do
  let got ← kind
  if got = want then
    advance
    return true
  else
    report (.expectedToken want got)
    return false

/-- Moves over a token of the given kind and over line ends. -/
def expectLine (want : TokenKind) : Parse Bool := do
  if ← expect want then
    skipNewlines
    return true
  else
    return false

/-- The source from an offset up to another. -/
def sourceText (start stop : Nat) : Parse String := do
  return String.ofList ((← get).lexer.slice start stop)

/-- The source from an offset up to another, without blank ends. -/
def trimmedText (start stop : Nat) : Parse String := do
  return Text.trim (← sourceText start stop)

/-! ## Repetition -/

/-- What a round of a repetition gives: items, and whether to go on. -/
structure Round (α : Type) where
  items : List α
  again : Bool

/-- A round after which there is another one. -/
def Round.more {α : Type} (items : List α) : Round α := ⟨items, true⟩

/-- The last round. -/
def Round.last {α : Type} (items : List α) : Round α := ⟨items, false⟩

/-- Collects the items of at most `fuel` rounds. -/
def repeatUpTo {α : Type} (round : Parse (Round α)) : Nat → Parse (List α)
  | 0 => do
    exhaust
    return []
  | fuel + 1 => do
    let r ← round
    if r.again then
      let rest ← repeatUpTo round fuel
      return r.items ++ rest
    else return r.items

/-- Collects the items of all rounds. -/
def repeated {α : Type} (round : Parse (Round α)) : Parse (List α) := do
  repeatUpTo round (← get).rounds

/-! ## Comments -/

/-- Takes the comments before the current token. -/
def leadingComments : Parse (Option CommentGroup) := do
  modify TokenStream.collected
  let s ← get
  let before := s.comments.filter (·.offset < s.current.start)
  if before.isEmpty then return none
  else
    set { s with comments := s.comments.filter (fun c => !(c.offset < s.current.start)) }
    return some ⟨before⟩

/-- Takes the first free comment if it starts on the given line. -/
def trailingComment (line : Nat) : Parse (Option CommentGroup) := do
  modify TokenStream.collected
  let s ← get
  match s.comments with
  | c :: rest =>
    if c.position.line = line then
      set { s with comments := rest }
      return some ⟨[c]⟩
    else return none
  | [] => return none

/-- Takes the comments before the current token, grouped by blank lines. -/
def orphanComments : Parse (List CommentGroup) := do
  match ← leadingComments with
  | some g => return CommentGroup.ofComments g.comments
  | none => return []

end Parse

end Gsx
