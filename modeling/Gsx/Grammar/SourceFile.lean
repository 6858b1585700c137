import Gsx.Grammar.Body
/-!
# Source files

The outer grammar: package clause, imports and declarations. An error between
declarations ends the declaration at hand, and reading goes on where the next
one may start. Only a missing package clause leaves no file at all.
-/

namespace Gsx

/-- A declaration of a file. -/
inductive Declaration where
  | component (c : Component)
  | func (f : GoFunc)
  | decl (d : GoDecl)
  deriving Repr

namespace Declaration

/-- The component that is declared, if it is one. -/
def component? : Declaration → Option Component
  | .component c => some c
  | _ => none

/-- The function that is declared, if it is one. -/
def func? : Declaration → Option GoFunc
  | .func f => some f
  | _ => none

/-- The Go declaration, if it is one. -/
def decl? : Declaration → Option GoDecl
  | .decl d => some d
  | _ => none

/-- Sets the comments before a declaration. -/
def withLeading (g : Option CommentGroup) : Declaration → Declaration
  | .component c => .component { c with leading := g }
  | .func f => .func { f with leading := g }
  | .decl d => .decl { d with leading := g }

end Declaration

/-- What reading a source gives: the file unless the package clause is missing,
what was found wrong, and the restarts on the way. -/
structure Reading where
  file : Option SourceFile
  diagnostics : List Diagnostic
  recoveries : List Recovery
  deriving Repr

namespace Parse

/-! ## Package and imports -/

/-- Reads the package clause. -/
def packageName : Parse (Option String) := do
  if (← kind) = .packageWord then
    advance
    let t ← current
    if t.kind = .identifier then
      advanceLine
      return some t.literal
    else
      report .expectedPackageName
      return none
  else
    report .expectedPackage
    return none

/-- Reads the name that an import may have before its path. -/
def importName : Parse String := do
  let t ← current
  if t.kind = .identifier || t.kind = .underscore || t.kind = .dot then
    advance
    return t.literal
  else return ""

/-- Reads one import. -/
def importEntry : Parse (Option Import) := do
  let p ← position
  let localName ← importName
  let t ← current
  if t.kind = .string then
    advance
    return some ⟨localName, t.literal, p, ← trailingComment t.position.line⟩
  else
    report .expectedImportPath
    return none

/-- One round of a group of imports. A token that makes no sense is skipped, so
that the group can still close. -/
def groupRound : Parse (Round Import) := do
  let k ← kind
  if k = .rightParen || k = .endOfInput then return .last []
  match ← importEntry with
  | some entry =>
    skipNewlines
    return .more [entry]
  | none =>
    advanceLine
    return .more []

/-- One round of imports: a single one or a group. -/
def importRound : Parse (Round Import) := do
  if (← kind) = .importWord then
    advanceLine
    if (← kind) = .leftParen then
      advanceLine
      let group ← repeated groupRound
      let _ ← expect .rightParen
      skipNewlines
      return .more group
    else
      let entry ← importEntry
      skipNewlines
      return .more entry.toList
  else return .last []

/-- Reads the imports of a file. -/
def imports : Parse (List Import) :=
  repeated importRound

/-! ## Components and functions -/

/-- Reads a parameter. One without a type is dropped. -/
def param : Parse (Option Param) := do
  let t ← current
  if t.kind = .identifier then
    advance
    let type ← goType
    if type = "" then return none
    else return some ⟨t.literal, type, t.position⟩
  else
    report .expectedParameterName
    return none

/-- One round of parameters, with the comma after it. -/
def paramRound : Parse (Round Param) := do
  let k ← kind
  if k = .rightParen || k = .endOfInput then return .last []
  let first ← param
  if (← kind) = .comma then
    advanceLine
    return .more first.toList
  else return .last first.toList

/-- Reads a parameter list in parentheses. -/
def params : Parse (Option (List Param)) := do
  if ← expect .leftParen then
    let ps ← repeated paramRound
    if ← expect .rightParen then return some ps
    else return none
  else return none

/-- Reads the block of a component. -/
def componentBlock (name : String) (ps : List Param) (p : Position) :
    Parse (Option Component) := do
  match ← block (← get).depth with
  | some b => return some ⟨name, ps, b.body.nodes, false, p, none, b.trailing, b.body.orphans⟩
  | none => return none

/-- Reads a component that `@component` declares. -/
def component : Parse (Option Component) := do
  let p ← position
  advance
  let t ← current
  if t.kind = .identifier then
    advance
    match ← params with
    | some ps =>
      skipNewlines
      componentBlock t.literal ps p
    | none => return none
  else
    report .expectedComponentName
    return none

/-- Reads the result type of a function where it is a single name. -/
def resultName : Parse String := do
  let t ← current
  if t.kind = .identifier then
    advance
    return t.literal
  else return ""

/-- Reads what `func` declares: a component if its result is exactly `Element`,
and else a Go function or method. -/
def funcDeclaration : Parse (Option Declaration) := do
  let f ← current
  advance
  let t ← current
  if t.kind = .leftParen then return some (.func (← goFunc f.start f.position))
  else if t.kind = .identifier then
    advance
    match ← params with
    | some ps =>
      skipNewlines
      let result ← resultName
      skipNewlines
      if result = "Element" then
        return (← componentBlock t.literal ps f.position).map .component
      else return some (.func (← goFunc f.start f.position))
    | none => return none
  else
    report .expectedFunctionName
    return none

/-- Reads a declaration. -/
def declaration : Parse (Option Declaration) := do
  let t ← current
  match t.kind with
  | .atComponent => return (← component).map .component
  | .funcWord => funcDeclaration
  | k =>
    if t.isDeclWord then return some (.decl (← goDecl))
    else
      report (.expectedDeclaration k)
      return none

/-- One round of declarations. After one that fails reading starts over. -/
def declarationRound : Parse (Round Declaration) := do
  skipNewlines
  if (← kind) = .endOfInput then return .last []
  let leading ← leadingComments
  match ← declaration with
  | some d => return .more [d.withLeading leading]
  | none =>
    recover
    return .more []

/-- Reads the declarations of a file. -/
def declarations : Parse (List Declaration) :=
  repeated declarationRound

/-- Reads a file. -/
def sourceFile : Parse (Option SourceFile) := do
  let p ← position
  skipNewlines
  let leading ← leadingComments
  match ← packageName with
  | none => return none
  | some package =>
    skipNewlines
    let imports ← imports
    skipNewlines
    let ds ← declarations
    let orphans ← orphanComments
    return some
      { name := (← get).lexer.name
        package := package
        imports := imports
        decls := ds.filterMap Declaration.decl?
        components := ds.filterMap Declaration.component?
        funcs := ds.filterMap Declaration.func?
        position := p
        leading := leading
        orphans := orphans }

end Parse

/-- Reads a source under a file name. Grammatical errors come before lexical
ones. A numeral that is too long to convert interrupts the reading. -/
def SourceFile.read (name source : String) : Except Interruption Reading :=
  let (file, s) := Parse.sourceFile.run (.ofSource name source)
  match s.interruption with
  | some i => .error i
  | none => .ok ⟨file, s.diagnostics ++ s.lexer.diagnostics, s.recoveries⟩

end Gsx
