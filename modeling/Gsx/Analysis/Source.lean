import Gsx.Analysis.Result
import Gsx.Grammar.SourceFile
/-!
# Analysing a source

From source text to analysis. Only two things stand in the way: a missing
package clause, and a number that cannot be computed, met while reading or
while analysing.
-/

namespace Gsx

/-- How the analysis of a source ends. -/
inductive Outcome where
  | analysed (reading : Reading) (analysis : Analysis)
  /-- There is no package clause, and so no file. -/
  | noPackage (reading : Reading)
  /-- A numeral in the source is too long. -/
  | interrupted (interruption : Interruption)
  /-- A number in a class cannot be computed. -/
  | failed (reading : Reading) (cause : NumberError)
  deriving Repr

namespace Outcome

/-- Analyses a source under a file name. -/
def ofSource (c : Config) (name source : String) : Outcome :=
  match SourceFile.read name source with
  | .error i => .interrupted i
  | .ok r =>
    match r.file with
    | none => .noPackage r
    | some f =>
      match Analysis.ofFile c f with
      | .error cause => .failed r cause
      | .ok a => .analysed r a

/-- All diagnostics of a source, those of reading it first. Without a package
clause only the errors count. -/
def diagnostics : Outcome → List Diagnostic
  | .analysed r a => r.diagnostics ++ a.diagnostics
  | .noPackage r => Diagnostic.errors r.diagnostics
  | .interrupted _ | .failed _ _ => []

/-- Whether a source fails: there is no file, or an error among what was
found. -/
def isFailure : Outcome → Bool
  | .noPackage _ => true
  | o => (Diagnostic.failure? o.diagnostics).isSome

end Outcome

end Gsx
