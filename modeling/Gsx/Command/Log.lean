import Gsx.Analysis.Source
/-!
# The log

What a verbose check tells about its work: a line for each step, after the name
of the part of the program that takes it.
-/

namespace Gsx

namespace Log

/-- A line of the log. -/
def line (part message : String) : String :=
  "gsx_to_code.pipeline." ++ part ++ ": " ++ message ++ "\n"

/-- A number of things. -/
def amount (n : Nat) (noun : String) : String :=
  toString n ++ " " ++ noun

/-- The line for the start of a file. -/
def started (name : String) : String :=
  line "frontend" ("Analyzing " ++ name)

/-- The line for a restart. -/
def recovery (r : Recovery) : String :=
  line "parser.parser" ("Recovered from " ++ r.failed.text ++ " at " ++ r.resumed.text)

/-- The line for a file that has been read, with the number of diagnostics so
far. -/
def parsed (f : SourceFile) (diagnostics : Nat) : String :=
  line "parser.parser" ("Parsed " ++ (if f.name = "" then "<source>" else f.name) ++ ": "
    ++ ", ".intercalate [amount f.components.length "components", amount f.funcs.length "funcs",
      amount f.decls.length "decls", amount diagnostics "diagnostics"])

/-- The lines for reading a source. -/
def reading (r : Reading) : List String :=
  r.recoveries.map recovery ++ (r.file.map fun f => parsed f r.diagnostics.length).toList

/-- The line for the state of a component. -/
def bindings (t : ComponentTables) : String :=
  line "analyzer.state" (t.component.name ++ ": " ++ amount t.bindings.length "state bindings")

/-- The lines for an analysis. -/
def analysis (a : Analysis) : List String :=
  a.components.map bindings
    ++ a.addedImports.map (fun path => line "analyzer.analyzer" ("Adding import " ++ path))
    ++ [line "analyzer.analyzer" ("Analyzed " ++ a.file.package ++ ": "
      ++ ", ".intercalate [amount a.components.length "components",
        amount (Diagnostic.errors a.diagnostics).length "errors",
        amount (Diagnostic.warnings a.diagnostics).length "warnings"])]

end Log

/-- The lines for what has been done with a source. -/
def Outcome.log : Outcome → List String
  | .analysed r a => Log.reading r ++ Log.analysis a
  | .noPackage r | .failed r _ => Log.reading r
  | .interrupted i => i.recoveries.map Log.recovery

end Gsx
