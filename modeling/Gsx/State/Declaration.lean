import Gsx.Identifier
import Gsx.Text.Search
/-!
# State in Go text

How state shows in Go code: a declaration `name := constructor(value)`, a
parameter of type `*state[T]`, and reads `name.accessor()` and
`(*name).accessor()`.
-/

namespace Gsx.StateText

/-- Whether a character is blank in Go code. -/
def isAsciiBlank (c : Char) : Bool :=
  c == ' ' || (9 ≤ c.toNat && c.toNat ≤ 13)

/-- The part of a list before its last `)`, if that part is not empty. -/
def beforeLastParen? (cs : List Char) : Option (List Char) :=
  let before := (cs.reverse.dropWhile (· != ')')).drop 1 |>.reverse
  if before.isEmpty then none else some before

/-- The argument of a call at the front of a list, and what follows the call.
The call ends with the last parenthesis of the line. -/
def argument? (callee : List Char) (cs : List Char) : Option (List Char × List Char) := do
  let rest ← Text.after? (callee ++ ['(']) cs
  let value ← beforeLastParen? (rest.takeWhile (· != '\n'))
  return (value, rest.drop (value.length + 1))

/-- The first result of `f` on a list with fewer and fewer of its leading
`count` characters dropped. -/
def withBlanksDropped {α : Type} (f : List Char → Option α) : Nat → List Char → Option α
  | 0, cs => f cs
  | count + 1, cs => f (cs.drop (count + 1)) <|> withBlanksDropped f count cs

/-- A declaration at the front of a list: the name, the value and what follows.
A constructor may itself start with blanks. -/
def declaration? (constructor : List Char) (cs : List Char) :
    Option (List Char × List Char × List Char) := do
  let name := cs.takeWhile isAsciiWord
  if name.isEmpty then none
  else
    let rest ← Text.after? [':', '='] ((cs.drop name.length).dropWhile isAsciiBlank)
    let (value, rest) ←
      withBlanksDropped (argument? constructor) (rest.takeWhile isAsciiBlank).length rest
    return (name, value, rest)

/-- The declarations in a list of characters that do not overlap, from the
left, looking at no more than `fuel` places. -/
def declarationsUpTo (constructor : List Char) :
    Nat → List Char → List (List Char × List Char)
  | 0, _ => []
  | _, [] => []
  | fuel + 1, c :: rest =>
    match declaration? constructor (c :: rest) with
    | some (name, value, rest') => (name, value) :: declarationsUpTo constructor fuel rest'
    | none => declarationsUpTo constructor fuel rest

/-- The declarations in a Go statement, as names and values. -/
def declarations (constructor code : String) : List (String × String) :=
  (declarationsUpTo constructor.toList (code.toList.length + 1) code.toList).map
    fun d => (String.ofList d.1, String.ofList d.2)

/-- The parameter of a state type that makes up a whole list. -/
def wholeParameter? (lead : List Char) (cs : List Char) : Option (List Char) := do
  let rest ← Text.after? lead cs
  let value := rest.dropLast
  if rest.getLast? = some ']' && !value.isEmpty && !value.contains '\n' then some value else none

/-- The parameter of the first state type that reaches to the end of a list. -/
def parameterIn? (lead : List Char) : List Char → Option (List Char)
  | [] => none
  | c :: rest => wholeParameter? lead (c :: rest) <|> parameterIn? lead rest

/-- The parameter of a state type at the end of a type. -/
def parameter? (stateType type : String) : Option String :=
  (parameterIn? ('*' :: stateType.toList ++ ['[']) type.toList).map String.ofList

/-- A read through a pointer at the front of a list, and what follows. -/
def derefRead? (accessor : List Char) (cs : List Char) : Option (List Char × List Char) := do
  let rest ← Text.after? ['(', '*'] cs
  let name := rest.takeWhile isAsciiWord
  if name.isEmpty then none
  else
    let rest ← Text.after? (')' :: '.' :: accessor ++ ['(', ')']) (rest.drop name.length)
    return (name, rest)

/-- A read of a variable at the front of a list, and what follows. -/
def plainRead? (accessor : List Char) (cs : List Char) : Option (List Char × List Char) := do
  let name := cs.takeWhile isAsciiWord
  if name.isEmpty then none
  else
    let rest ← Text.after? ('.' :: accessor ++ ['(', ')']) (cs.drop name.length)
    return (name, rest)

/-- The names read in a list of characters by reads that do not overlap, from
the left, looking at no more than `fuel` places. -/
def readsUpTo (accessor : List Char) : Nat → List Char → List (List Char)
  | 0, _ => []
  | _, [] => []
  | fuel + 1, c :: rest =>
    match derefRead? accessor (c :: rest) <|> plainRead? accessor (c :: rest) with
    | some (name, rest') => name :: readsUpTo accessor fuel rest'
    | none => readsUpTo accessor fuel rest

/-- The names that a Go expression reads, with repetitions. -/
def reads (accessor code : String) : List String :=
  (readsUpTo accessor.toList (code.toList.length + 1) code.toList).map String.ofList

end Gsx.StateText
