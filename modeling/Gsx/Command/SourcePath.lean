import Gsx.Text.Search
/-!
# Paths

A path is a list of names. The root is the name `/`, and stands first where
the path is absolute. Empty names and single points between slashes say
nothing; double points stay.
-/

namespace Gsx

/-- A path as its names. -/
abbrev SourcePath := List String

namespace SourcePath

/-- The pieces of a written path, empty ones included. -/
def pieces (text : String) : List String :=
  (Text.splitOn '/' text.toList).map String.ofList

/-- The names of a path that starts with a slash or not. -/
def root (text : String) : SourcePath :=
  if Text.startsWith ['/'] text.toList then ["/"] else []

/-- The path that a text means. -/
def ofText (text : String) : SourcePath :=
  root text ++ (pieces text).filter fun p => p != "" && p != "."

/-- The path as text; a single point where it has no names. -/
def text : SourcePath → String
  | [] => "."
  | "/" :: rest => "/" ++ "/".intercalate rest
  | names => "/".intercalate names

/-- The path one level up. -/
def parent (p : SourcePath) : SourcePath :=
  match p.getLast? with
  | none => [".."]
  | some ".." => p ++ [".."]
  | some "/" => p
  | some _ => p.dropLast

/-- The path that one more piece leads to. -/
def follow (p : SourcePath) (piece : String) : SourcePath :=
  if piece = "" || piece = "." then p else if piece = ".." then p.parent else p ++ [piece]

/-- The path with double points resolved, by names alone. -/
def resolved (text : String) : SourcePath :=
  (pieces text).foldl follow (root text)

/-- The last name of a path. -/
def name (p : SourcePath) : String :=
  p.getLast?.getD ""

/-- What the name of a source file ends with. -/
def sourceSuffix : String := ".gsx"

/-- Whether a name ends as source files do. -/
def endsAsSource (name : String) : Bool :=
  Text.endsWith sourceSuffix.toList name.toList

/-- Whether a path names a source file: something stands before the suffix. -/
def isSource (p : SourcePath) : Bool :=
  endsAsSource p.name && p.name != sourceSuffix

/-- Whether a path comes before another or is the same: by the first name in
which they differ. -/
def precedes : SourcePath → SourcePath → Bool
  | [], _ => true
  | _ :: _, [] => false
  | a :: as, b :: bs => if a = b then precedes as bs else decide (a < b)

end SourcePath

end Gsx
