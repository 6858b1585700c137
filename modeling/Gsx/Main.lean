import Gsx.Command.Run
/-!
# The program

Takes a snapshot of the files that the arguments name, runs the command on it
and prints what it says.
-/

namespace Gsx.Main

/-- Adds a file or directory on disk to a tree, with all that is below it. Of
files that only a directory brings in, sources alone are read. -/
partial def addPath (t : FileTree) (p : SourcePath) (isNamed : Bool) : IO FileTree := do
  let place ← IO.FS.realPath p.text
  if ← place.isDir then
    let entries ← place.readDir
    entries.foldlM (fun t e => addPath t (p ++ [e.fileName]) false) (t.withDirectory p)
  else if isNamed || SourcePath.endsAsSource p.name then
    return t.withFile p (← IO.FS.readBinFile place)
  else return t.withFile p .empty

/-- Adds what an argument names to a tree, if there is anything. -/
def addArgument (t : FileTree) (path : String) : IO FileTree := do
  try addPath t (SourcePath.resolved path) true
  catch _ => return t

/-- The files that arguments name. -/
def snapshot (a : Arguments) : IO FileTree :=
  (a.config.toList ++ a.paths).foldlM addArgument FileTree.empty

end Gsx.Main

/-- Runs the program. -/
def main (args : List String) : IO UInt32 := do
  let tree ← match Gsx.Command.request args with
    | .ok (_, a) => Gsx.Main.snapshot a
    | .error _ => pure Gsx.FileTree.empty
  let result := Gsx.Command.run tree args
  IO.eprint result.stderr
  IO.print result.stdout
  if let some crash := result.crash then IO.eprintln crash.message
  return result.exitCode.toUInt32
