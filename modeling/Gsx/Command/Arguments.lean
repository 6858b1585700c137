import Gsx.Command.Usage
import Gsx.Text.Search
/-!
# Arguments

The arguments of a subcommand, sorted into options and paths. Options may
stand anywhere; after `--` everything is a path. The value of a long option
follows an equals sign or is the next argument; short options may be joined,
and the value of one is the rest of its argument or the next one. Of a
repeated option the last value counts.
-/

namespace Gsx

/-- The options. -/
inductive CommandOption where
  | config
  | format
  | verbose
  deriving DecidableEq, Repr

/-- The arguments of a subcommand as written. -/
structure Arguments where
  config : Option String
  format : Option String
  verbose : Bool
  /-- The options that have a value, in the order of their first use. -/
  used : List CommandOption
  paths : List String
  deriving DecidableEq, Repr

namespace CommandOption

/-- The option of a long name. -/
def ofLong? (c : Subcommand) (name : String) : Option CommandOption :=
  match c, name with
  | _, "--config" => some .config
  | .check, "--format" => some .format
  | .check, "--verbose" => some .verbose
  | _, _ => none

/-- The option of a letter. -/
def ofShort? (c : Subcommand) (letter : Char) : Option CommandOption :=
  match c, letter with
  | _, 'c' => some .config
  | .check, 'v' => some .verbose
  | _, _ => none

/-- Whether an option has a value. -/
def takesValue : CommandOption → Bool
  | .verbose => false
  | _ => true

end CommandOption

namespace Arguments

/-- No arguments. -/
def none : Arguments := ⟨Option.none, Option.none, false, [], []⟩

/-- Sets an option to a value. -/
def set (a : Arguments) (o : CommandOption) (value : String) : Arguments :=
  let used := if a.used.contains o then a.used else a.used ++ [o]
  match o with
  | .config => { a with config := some value, used := used }
  | .format => { a with format := some value, used := used }
  | .verbose => { a with verbose := true, used := used }

/-- Adds paths. -/
def addPaths (a : Arguments) (paths : List String) : Arguments :=
  { a with paths := a.paths ++ paths }

/-- An option that still needs its value, under the name that it was written
with. -/
structure Waiting where
  option : CommandOption
  name : String
  deriving DecidableEq, Repr

/-- Reads joined short options. The last one may wait for its value. -/
def readLetters (c : Subcommand) (a : Arguments) :
    List Char → Except UsageFault (Arguments × Option Waiting)
  | [] => .ok (a, Option.none)
  | letter :: rest =>
    let name := String.ofList ['-', letter]
    match CommandOption.ofShort? c letter with
    | Option.none => .error (.noSuchOption name)
    | some o =>
      if o.takesValue then
        if rest.isEmpty then .ok (a, some ⟨o, name⟩)
        else .ok (a.set o (String.ofList rest), Option.none)
      else readLetters c (a.set o "") rest

/-- The name of a long option and the value after the equals sign. -/
def splitValue (arg : List Char) : String × Option String :=
  let name := arg.takeWhile (· != '=')
  match arg.drop name.length with
  | '=' :: value => (String.ofList name, some (String.ofList value))
  | _ => (String.ofList name, Option.none)

/-- Reads an argument that starts with a minus sign. -/
def readOption (c : Subcommand) (a : Arguments) (arg : List Char) :
    Except UsageFault (Arguments × Option Waiting) :=
  let (name, value) := splitValue arg
  match CommandOption.ofLong? c name with
  | some o =>
    match o.takesValue, value with
    | true, some v => .ok (a.set o v, Option.none)
    | true, Option.none => .ok (a, some ⟨o, name⟩)
    | false, Option.none => .ok (a.set o "", Option.none)
    | false, some _ => .error (.unexpectedValue name)
  | Option.none =>
    if Text.startsWith ['-', '-'] arg then .error (.noSuchOption name)
    else readLetters c a (arg.drop 1)

/-- Whether an argument is written like an option. -/
def isOption (arg : List Char) : Bool :=
  arg.head? = some '-' && 1 < arg.length

/-- Reads arguments after those read before. -/
def readAll (c : Subcommand) (a : Arguments) : Option Waiting → List String →
    Except UsageFault Arguments
  | Option.none, [] => .ok a
  | some w, [] => .error (.missingValue w.name)
  | some w, arg :: rest => readAll c (a.set w.option arg) Option.none rest
  | Option.none, arg :: rest =>
    if arg = "--" then .ok (a.addPaths rest)
    else if isOption arg.toList then
      match readOption c a arg.toList with
      | .ok (a, w) => readAll c a w rest
      | .error f => .error f
    else readAll c (a.addPaths [arg]) Option.none rest

/-- Reads the arguments of a subcommand. -/
def read (c : Subcommand) (args : List String) : Except UsageFault Arguments :=
  readAll c none Option.none args

end Arguments

end Gsx
