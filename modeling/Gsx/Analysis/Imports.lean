import Gsx.Config
import Gsx.Text.Search
import Gsx.Tree.Site
/-!
# Runtime imports

Which packages of the runtime a file uses, and the imports that it lacks for
them. Go text uses a package where the package name occurs in it, followed by
a point.
-/

namespace Gsx

/-- The packages of the runtime that a file uses. -/
structure PackageUse where
  element : Bool
  layout : Bool
  tui : Bool
  deriving DecidableEq, Repr

/-- The Go text in the attributes of an element. Unknown attributes do not
count. -/
def ElementHead.goFragments (c : Config) (e : ElementHead) : List String :=
  e.attributes.filterMap fun a =>
    match a.value with
    | .expression v => if c.isKnownAttribute a.name then some v.code else none
    | _ => none

/-- The Go text at a site. -/
def Site.goFragments (c : Config) (s : Site) : List String :=
  match s.node with
  | .element h _ => h.goFragments c
  | .letBinding _ e _ => e.goFragments c
  | .forLoop h _ => [h.iterable]
  | .conditional h _ _ => [h.condition]
  | .call h _ => [h.args]
  | .expression e => [e.code]
  | .goCode g => [g.code]
  | .slot _ | .letReference _ | .text _ => []

/-- Whether Go text mentions a package. -/
def mentionsPackage (name code : String) : Bool :=
  Text.occursIn (name.toList ++ ['.']) code.toList

/-- The packages that the Go text of a file mentions. A file with a component
uses the element package. -/
def SourceFile.mentionedPackages (c : Config) (f : SourceFile) : PackageUse :=
  let fragments := (f.components.flatMap Component.sites).flatMap (Site.goFragments c)
  { element := !f.components.isEmpty
    layout := fragments.any (mentionsPackage "layout")
    tui := fragments.any (mentionsPackage "tui") }

namespace PackageUse

/-- The import paths of the packages used. -/
def paths (c : Config) (u : PackageUse) : List String :=
  (if u.element then [c.elementImport] else []) ++ (if u.layout then [c.layoutImport] else [])
    ++ (if u.tui then [c.tuiImport] else [])

/-- The paths in a list that are not among those already imported, each
once. -/
def missing (imported : List String) : List String → List String
  | [] => []
  | path :: rest =>
    if imported.contains path then missing imported rest
    else path :: missing (path :: imported) rest

end PackageUse

/-- A file with more imports, which have no place in the source. -/
def SourceFile.withImports (f : SourceFile) (paths : List String) : SourceFile :=
  { f with imports := f.imports ++ paths.map fun path => ⟨"", path, .nowhere, none⟩ }

end Gsx
