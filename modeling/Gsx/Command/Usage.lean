import Gsx.Text.Quoted
/-!
# Usage errors

What can be wrong with the arguments of the command.
-/

namespace Gsx

/-- The subcommands. -/
inductive Subcommand where
  | check
  | inspect
  deriving DecidableEq, Repr

/-- Why the arguments make no sense. -/
inductive UsageFault where
  | noSuchCommand (name : String)
  | noSuchOption (name : String)
  | missingValue (option : String)
  | unexpectedValue (option : String)
  | missingPath (c : Subcommand)
  | extraPaths (paths : List String)
  | badFormat (value : String)
  | configNotFound (path : String)
  | pathNotFound (path : String)
  | fileNotFound (path : String)
  | fileIsDirectory (path : String)
  | notSource (path : String)
  deriving DecidableEq, Repr

namespace UsageFault

/-- The message for a usage error. -/
def message : UsageFault → String
  | .noSuchCommand name => "No such command " ++ Text.quoted name ++ "."
  | .noSuchOption name => "No such option: " ++ name
  | .missingValue option => "Option " ++ Text.quoted option ++ " requires an argument."
  | .unexpectedValue option => "Option " ++ Text.quoted option ++ " does not take a value."
  | .missingPath .check => "Missing argument 'PATHS...'."
  | .missingPath .inspect => "Missing argument 'PATH'."
  | .extraPaths paths =>
    "Got unexpected extra argument" ++ (if paths.length = 1 then "" else "s") ++ " ("
      ++ " ".intercalate paths ++ ")"
  | .badFormat value =>
    "Invalid value for '--format': " ++ Text.quoted value ++ " is not one of 'text', 'json'."
  | .configNotFound path =>
    "Invalid value for '--config' / '-c': Path " ++ Text.quoted path ++ " does not exist."
  | .pathNotFound path =>
    "Invalid value for 'PATHS...': Path " ++ Text.quoted path ++ " does not exist."
  | .fileNotFound path =>
    "Invalid value for 'PATH': File " ++ Text.quoted path ++ " does not exist."
  | .fileIsDirectory path =>
    "Invalid value for 'PATH': File " ++ Text.quoted path ++ " is a directory."
  | .notSource path => "Invalid value for PATHS: " ++ path ++ " is not a .gsx file or directory"

end UsageFault

namespace Subcommand

/-- The command line of a subcommand: its name, and the form of its
arguments. -/
def usage : Option Subcommand → String × String
  | some .check => ("gsx-to-code check", "[OPTIONS] PATHS...")
  | some .inspect => ("gsx-to-code inspect", "[OPTIONS] PATH")
  | none => ("gsx-to-code", "[OPTIONS] COMMAND [ARGS]...")

/-- The text for a usage error of a subcommand. -/
def usageText (c : Option Subcommand) (f : UsageFault) : String :=
  let (name, form) := usage c
  "Usage: " ++ name ++ " " ++ form ++ "\nTry '" ++ name ++ " --help' for help.\n\nError: "
    ++ f.message ++ "\n"

end Subcommand

end Gsx
