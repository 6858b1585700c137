import Gsx.Position
/-!
# Diagnostics

What the front end has to say about a source: a severity, a place, a message
and perhaps a hint. Diagnostics are kept in the order in which they are found,
and only errors make a source fail.
-/

namespace Gsx

/-- How grave a diagnostic is. -/
inductive Severity where
  | error
  | warning
  deriving DecidableEq, Repr

/-- The word for a severity. -/
def Severity.text : Severity → String
  | .error => "error"
  | .warning => "warning"

/-- A finding about a source, with the end of its range where the range itself
is what is wrong. -/
structure Diagnostic where
  severity : Severity
  file : String
  position : Position
  stop : Option Position
  message : String
  hint : String
  deriving DecidableEq, Repr

namespace Diagnostic

/-- An error without hint or range. -/
def error (file : String) (position : Position) (message : String) : Diagnostic :=
  ⟨.error, file, position, none, message, ""⟩

/-- A warning without hint or range. -/
def warning (file : String) (position : Position) (message : String) : Diagnostic :=
  ⟨.warning, file, position, none, message, ""⟩

/-- Whether a diagnostic is an error. -/
def isError (d : Diagnostic) : Bool :=
  d.severity == .error

/-- The diagnostic on one line: place, severity, message, hint in parentheses. -/
def text (d : Diagnostic) : String :=
  let body := d.position.describe d.file ++ ": " ++ d.severity.text ++ ": " ++ d.message
  if d.hint = "" then body else body ++ " (" ++ d.hint ++ ")"

/-- The errors among some diagnostics. -/
def errors (ds : List Diagnostic) : List Diagnostic :=
  ds.filter isError

/-- The warnings among some diagnostics. -/
def warnings (ds : List Diagnostic) : List Diagnostic :=
  ds.filter (fun d => !d.isError)

/-- All texts, one under the other. -/
def textOfAll (ds : List Diagnostic) : String :=
  "\n".intercalate (ds.map text)

/-- The texts of the errors, if there are any. -/
def failure? (ds : List Diagnostic) : Option String :=
  match errors ds with
  | [] => none
  | es => some (textOfAll es)

theorem failure?_eq_none_iff {ds : List Diagnostic} : failure? ds = none ↔ errors ds = [] := by
  unfold failure?
  split <;> simp_all

end Diagnostic

end Gsx
