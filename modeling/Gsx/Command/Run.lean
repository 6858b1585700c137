import Gsx.Command.Arguments
import Gsx.Command.FileTree
import Gsx.Command.Log
import Gsx.Json.Config
import Gsx.Json.Reader
import Gsx.Report
import Gsx.Text.Style
/-!
# Running a command

A command as a function of its arguments and the files it can see. `check`
reports on source files and on those in directories, in the order of their
paths; `inspect` shows the tables of one file.

Names and source text reach the output as they are, and they may hold control
sequences. All that a command prints is freed of them; only the log keeps them.
-/

namespace Gsx

/-- What stops a command short. -/
inductive Crash where
  /-- The settings are no JSON. -/
  | malformedJson
  /-- The settings are JSON, but no object. -/
  | notAnObject
  /-- The settings are a directory. -/
  | isDirectory
  /-- A file is not UTF-8. -/
  | badEncoding
  | number (cause : NumberError)
  deriving DecidableEq, Repr

/-- The message for what stops a command. -/
def Crash.message : Crash → String
  | .malformedJson => "the settings are not JSON"
  | .notAnObject => "the settings are not a JSON object"
  | .isDirectory => "the settings are a directory"
  | .badEncoding => "a file is not UTF-8"
  | .number cause => cause.message

/-- What a command leaves behind. -/
structure CommandResult where
  exitCode : Nat
  stdout : String
  stderr : String
  crash : Option Crash
  deriving DecidableEq, Repr

namespace CommandResult

/-- The end of a command that has printed a text and written a log. -/
def finished (failed : Bool) (text log : String) : CommandResult :=
  ⟨if failed then 1 else 0, Text.unstyled (text ++ "\n"), log, none⟩

/-- The end of a command that gives an error for its only answer. -/
def refused (message : String) : CommandResult :=
  ⟨1, "", Text.unstyled ("Error: " ++ message ++ "\n"), none⟩

/-- The end of a command whose arguments make no sense. -/
def misused (c : Option Subcommand) (f : UsageFault) : CommandResult :=
  ⟨2, "", Text.unstyled (Subcommand.usageText c f), none⟩

/-- The end of a command that could not go on. -/
def crashed (log : String) (c : Crash) : CommandResult :=
  ⟨1, "", log, some c⟩

end CommandResult

namespace Command

/-! ## Files -/

/-- Makes every line end a single line feed. -/
def unifyLineEnds : List Char → List Char
  | [] => []
  | '\r' :: '\n' :: rest => '\n' :: unifyLineEnds rest
  | '\r' :: rest => '\n' :: unifyLineEnds rest
  | c :: rest => c :: unifyLineEnds rest

/-- The text of a file. -/
def decode (bytes : ByteArray) : Except Crash String :=
  match String.fromUTF8? bytes with
  | some s => .ok (String.ofList (unifyLineEnds s.toList))
  | none => .error .badEncoding

/-- Reads settings from the text of a file. -/
def parseConfig (text : String) : Except Crash Config :=
  match Json.parse text with
  | .ok (.object members) => .ok (.ofMembers members)
  | .ok _ => .error .notAnObject
  | .error .malformed => .error .malformedJson
  | .error (.number cause) => .error (.number cause)

/-- The settings in a file, or the standard ones where no file is given. -/
def loadConfig (t : FileTree) : Option String → Except Crash Config
  | none => .ok .standard
  | some path =>
    match t.contents? (SourcePath.resolved path) with
    | some bytes => (decode bytes).bind parseConfig
    | none => .error .isDirectory

/-! ## Arguments -/

/-- Checks the value of an option. -/
def checkOption (t : FileTree) (a : Arguments) : CommandOption → Except UsageFault Unit
  | .config =>
    match a.config with
    | some path =>
      if t.holds (SourcePath.resolved path) then .ok () else .error (.configNotFound path)
    | none => .ok ()
  | .format =>
    match a.format with
    | some value =>
      if value = "text" || value = "json" then .ok () else .error (.badFormat value)
    | none => .ok ()
  | .verbose => .ok ()

/-- Checks the values of all options, in the order of their use. -/
def checkOptions (t : FileTree) (a : Arguments) : Except UsageFault Unit :=
  a.used.forM (checkOption t a)

/-- Checks that something is at each path. -/
def checkPaths (t : FileTree) (paths : List String) : Except UsageFault Unit :=
  paths.forM fun path => if (t.find? path).isSome then .ok () else .error (.pathNotFound path)

/-- The source files that a path stands for: itself, or those below it. -/
def expandPath (t : FileTree) (path : String) : Except UsageFault (List SourcePath) :=
  let names := SourcePath.ofText path
  match t.find? names.text with
  | some place =>
    if t.isDirectory place then .ok ((t.sourcesBelow place).map (names ++ ·))
    else if names.isSource then .ok [names]
    else .error (.notSource names.text)
  | none => .error (.notSource names.text)

/-- The source files that paths stand for, each once, in order. -/
def expandPaths (t : FileTree) (paths : List String) : Except UsageFault (List SourcePath) := do
  let found ← paths.mapM (expandPath t)
  return (found.flatten.eraseDups).mergeSort SourcePath.precedes

/-! ## Analysing files -/

/-- The bytes of a file that is known to be there. -/
def bytesAt (t : FileTree) (p : SourcePath) : ByteArray :=
  ((t.find? p.text).bind t.contents?).getD .empty

/-- Analyses the file at a path. -/
def analyseFile (c : Config) (t : FileTree) (p : SourcePath) : Except Crash Outcome :=
  (decode (bytesAt t p)).map (Outcome.ofSource c p.text)

/-- The number that stopped the analysis of a source. -/
def crash? : Outcome → Option Crash
  | .interrupted i => some (.number i.cause)
  | .failed _ cause => some (.number cause)
  | .analysed _ _ | .noPackage _ => none

/-! ## check -/

/-- The work of a check so far: the log, the reports, whether a file has failed,
and what has stopped it. -/
structure Progress where
  log : List String
  reports : List FileReport
  failed : Bool
  crash : Option Crash

/-- Checks one more file, unless something has stopped the check. -/
def checkFile (c : Config) (t : FileTree) (progress : Progress) (p : SourcePath) : Progress :=
  if progress.crash.isSome then progress
  else
    let log := progress.log ++ [Log.started p.text]
    match analyseFile c t p with
    | .error crash => { progress with log := log, crash := some crash }
    | .ok outcome =>
      { log := log ++ outcome.log
        reports := progress.reports ++ [⟨p.text, outcome.diagnostics⟩]
        failed := progress.failed || outcome.isFailure
        crash := crash? outcome }

/-- Checks files and reports on them. -/
def checkFiles (a : Arguments) (c : Config) (t : FileTree) (paths : List SourcePath) :
    CommandResult :=
  let progress := paths.foldl (checkFile c t) ⟨[], [], false, none⟩
  let log := if a.verbose then String.join progress.log else ""
  match progress.crash with
  | some crash => .crashed log crash
  | none =>
    let text :=
      if a.format = some "json" then Report.jsonText progress.reports
      else Report.text a.verbose progress.reports
    .finished progress.failed text log

/-- Runs `check`. -/
def check (t : FileTree) (a : Arguments) : CommandResult :=
  let misused := CommandResult.misused (some .check)
  match checkOptions t a with
  | .error f => misused f
  | .ok () =>
    if a.paths.isEmpty then misused (.missingPath .check)
    else
      match checkPaths t a.paths with
      | .error f => misused f
      | .ok () =>
        match loadConfig t a.config with
        | .error crash => .crashed "" crash
        | .ok c =>
          match expandPaths t a.paths with
          | .error f => misused f
          | .ok paths => checkFiles a c t paths

/-! ## inspect -/

/-- Shows the tables of a file. -/
def inspectFile (c : Config) (t : FileTree) (p : SourcePath) : CommandResult :=
  match analyseFile c t p with
  | .error crash => .crashed "" crash
  | .ok outcome =>
    match outcome with
    | .interrupted i => .crashed "" (.number i.cause)
    | .failed _ cause => .crashed "" (.number cause)
    | .noPackage _ => .refused (Diagnostic.textOfAll outcome.diagnostics)
    | .analysed _ a => .finished false (a.toJson outcome.diagnostics).render ""

/-- Runs `inspect`. -/
def inspect (t : FileTree) (a : Arguments) : CommandResult :=
  let misused := CommandResult.misused (some .inspect)
  match checkOptions t a with
  | .error f => misused f
  | .ok () =>
    match a.paths with
    | [] => misused (.missingPath .inspect)
    | path :: extra =>
      match t.find? path with
      | none => misused (.fileNotFound path)
      | some place =>
        if t.isDirectory place then misused (.fileIsDirectory path)
        else if !extra.isEmpty then misused (.extraPaths extra)
        else
          match loadConfig t a.config with
          | .error crash => .crashed "" crash
          | .ok c => inspectFile c t (SourcePath.ofText path)

/-! ## Subcommands -/

/-- The subcommand of a name. -/
def subcommand? : String → Option Subcommand
  | "check" => some .check
  | "inspect" => some .inspect
  | _ => none

/-- Runs a subcommand. -/
def runSubcommand (t : FileTree) (c : Subcommand) (a : Arguments) : CommandResult :=
  match c with
  | .check => check t a
  | .inspect => inspect t a

/-- What the arguments of the program ask for: a subcommand with its arguments,
or the fault in them. -/
def request : List String → Except (Option Subcommand × UsageFault) (Subcommand × Arguments)
  | [] => .error (none, .noSuchCommand "")
  | name :: args =>
    if Arguments.isOption name.toList then .error (none, .noSuchOption name)
    else
      match subcommand? name with
      | none => .error (none, .noSuchCommand name)
      | some c =>
        match Arguments.read c args with
        | .ok a => .ok (c, a)
        | .error f => .error (some c, f)

/-- Runs the program on the files it can see. -/
def run (t : FileTree) (args : List String) : CommandResult :=
  match request args with
  | .error (c, f) => .misused c f
  | .ok (c, a) => runSubcommand t c a

end Command

end Gsx
