import Gsx.Analysis.Imports
import Gsx.Analysis.NamedRef
import Gsx.Analysis.Validation
import Gsx.State.Binding
/-!
# The analysis of a file

The analysis marks the components that accept children, turns expressions that
are bound names into references, checks what it finds, and collects for each
component its references, its state and the names of its elements. At last it
adds the imports that the file lacks.

Each kind of finding is a function of the file alone, and the diagnostics come
kind by kind: repeated bindings, references, validation, dependencies.
-/

namespace Gsx

/-- What the analysis finds out about a component. -/
structure ComponentTables where
  component : Component
  refs : List NamedRef
  stateVars : List StateVar
  bindings : List StateBinding
  names : List ElementName
  deriving Repr

/-- The analysis of a file: the file as the analysis leaves it, the diagnostics
and the tables. -/
structure Analysis where
  file : SourceFile
  diagnostics : List Diagnostic
  components : List ComponentTables
  lets : List (String × Bool)
  index : ComponentIndex
  uses : PackageUse
  addedImports : List String
  deriving Repr

/-- The tables of a component. -/
def Component.tables (c : Config) (file : String) (comp : Component) : ComponentTables :=
  let stateVars := StateVar.ofComponent c comp
  { component := comp
    refs := (NamedRef.ofBody file comp.body).refs
    stateVars := stateVars
    bindings := StateBinding.ofBody c (stateVars.map (·.name)) comp.body
    names := ElementName.ofBody c comp.body }

/-- What is wrong with the `deps` attributes of a component. -/
def Component.depsDiagnostics (c : Config) (file : String) (comp : Component) :
    List Diagnostic :=
  let known := (StateVar.ofComponent c comp).map (·.name)
  (elementSites comp.body).flatMap fun e => Deps.diagnostics file known e.head

/-- A file with every expression that is a bound name turned into a
reference. -/
def SourceFile.link (f : SourceFile) : SourceFile :=
  let names := f.letNames
  { f with components := f.components.map fun c => { c with body := Node.linkAll names c.body } }

/-- A file as the analysis sees it: slots marked, references linked. -/
def SourceFile.prepare (f : SourceFile) : SourceFile :=
  f.markSlots.link

namespace Analysis

/-- The packages that a prepared file uses, given whether its classes need the
`tui` package. State variables need it too. -/
def packageUse (c : Config) (f : SourceFile) (classesNeedTui : Bool) : PackageUse :=
  let mentioned := f.mentionedPackages c
  let hasState := f.components.any fun comp => !(StateVar.ofComponent c comp).isEmpty
  { mentioned with tui := mentioned.tui || classesNeedTui || hasState }

/-- Analyses a file. -/
def ofFile (c : Config) (f : SourceFile) : Except NumberError Analysis := do
  let f := f.prepare
  let index := ComponentIndex.ofFile f
  let (findings, classesNeedTui) ← Validation.componentFindings ⟨c, index, f.name⟩ f.components
  let uses := packageUse c f classesNeedTui
  let added := PackageUse.missing (f.imports.map (·.path)) (uses.paths c)
  return {
    file := f.withImports added
    diagnostics :=
      f.components.flatMap (Component.repeatedLets f.name)
        ++ f.components.flatMap (fun comp => (NamedRef.ofBody f.name comp.body).diagnostics)
        ++ findings
        ++ f.components.flatMap (Component.depsDiagnostics c f.name)
    components := f.components.map (Component.tables c f.name)
    lets := f.letUses
    index := index
    uses := uses
    addedImports := added }

/-- The tables of the first component of a name. -/
def component? (a : Analysis) (name : String) : Option ComponentTables :=
  a.components.find? (·.component.name = name)

end Analysis

end Gsx
