import Gsx.Command.SourcePath
/-!
# File trees

A snapshot of the files that a command can see: each file with its bytes, and
the directories that may be empty.
-/

namespace Gsx

/-- Files and directories by their paths from the working directory. -/
structure FileTree where
  files : List (SourcePath × ByteArray)
  directories : List SourcePath

/-- Whether a path lies strictly below another. -/
def SourcePath.isBelow (p dir : SourcePath) : Bool :=
  dir.isPrefixOf p && dir.length < p.length

namespace FileTree

/-- A tree without files. -/
def empty : FileTree := ⟨[], []⟩

/-- A tree with one more file. -/
def withFile (t : FileTree) (p : SourcePath) (content : ByteArray) : FileTree :=
  { t with files := t.files ++ [(p, content)] }

/-- A tree with one more directory. -/
def withDirectory (t : FileTree) (p : SourcePath) : FileTree :=
  { t with directories := t.directories ++ [p] }

/-- The bytes of the file at a path. -/
def contents? (t : FileTree) (p : SourcePath) : Option ByteArray :=
  t.files.lookup p

/-- Whether a directory is at a path: one that is listed, or that something
lies below. -/
def isDirectory (t : FileTree) (p : SourcePath) : Bool :=
  p.isEmpty || t.directories.contains p || t.directories.any (·.isBelow p)
    || t.files.any (·.1.isBelow p)

/-- Whether anything is at a path. -/
def holds (t : FileTree) (p : SourcePath) : Bool :=
  (t.contents? p).isSome || t.isDirectory p

/-- Follows the pieces of a path. Each piece, an empty one too, needs a
directory to start from. -/
def walk? (t : FileTree) : SourcePath → List String → Option SourcePath
  | p, [] => if t.holds p then some p else none
  | p, piece :: rest => if t.isDirectory p then t.walk? (p.follow piece) rest else none

/-- What is at a written path, found piece by piece. -/
def find? (t : FileTree) (text : String) : Option SourcePath :=
  if text = "" then none
  else
    let start := SourcePath.root text
    t.walk? start (if start.isEmpty then SourcePath.pieces text
      else (SourcePath.pieces text).drop 1)

/-- The source files below a directory, by their paths from it. -/
def sourcesBelow (t : FileTree) (dir : SourcePath) : List SourcePath :=
  t.files.filterMap fun f =>
    if f.1.isBelow dir && SourcePath.endsAsSource f.1.name then some (f.1.drop dir.length)
    else none

end FileTree

end Gsx
