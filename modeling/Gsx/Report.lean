import Gsx.Json.Tables
import Gsx.Json.Writer
/-!
# Reports

The diagnostics of several files as text or as JSON. The text lists the files
that have diagnostics, or all of them where it is verbose, and ends with a
summary.
-/

namespace Gsx

/-- The diagnostics of a file. -/
structure FileReport where
  name : String
  diagnostics : List Diagnostic
  deriving DecidableEq, Repr

namespace Report

/-- The lines for a file: its name, then its diagnostics, indented. -/
def fileLines (r : FileReport) : List String :=
  r.name :: (if r.diagnostics.isEmpty then ["  ok"] else r.diagnostics.map fun d => "  " ++ d.text)

/-- Whether a file is listed. -/
def isListed (verbose : Bool) (r : FileReport) : Bool :=
  verbose || !r.diagnostics.isEmpty

/-- A number of things, in the singular or plural. -/
def counted (n : Nat) (noun : String) : String :=
  toString n ++ " " ++ noun ++ (if n = 1 then "" else "s")

/-- The number of errors in all files. -/
def errorCount (rs : List FileReport) : Nat :=
  (Diagnostic.errors (rs.flatMap (·.diagnostics))).length

/-- The number of warnings in all files. -/
def warningCount (rs : List FileReport) : Nat :=
  (Diagnostic.warnings (rs.flatMap (·.diagnostics))).length

/-- The last line of a report. -/
def summary (rs : List FileReport) : String :=
  counted rs.length "file" ++ " checked: " ++ counted (errorCount rs) "error" ++ ", "
    ++ counted (warningCount rs) "warning"

/-- The report as text, without a line end after the summary. -/
def text (verbose : Bool) (rs : List FileReport) : String :=
  "\n".intercalate ((rs.filter (isListed verbose)).flatMap fileLines ++ [summary rs])

/-- The report as a JSON value. -/
def toJson (rs : List FileReport) : Json :=
  .array (rs.map fun r =>
    .object [("file", .string r.name), ("diagnostics", Diagnostic.toJsonAll r.diagnostics)])

/-- The report as JSON text. -/
def jsonText (rs : List FileReport) : String :=
  (toJson rs).render

end Report

end Gsx
