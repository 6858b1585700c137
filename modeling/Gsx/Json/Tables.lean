import Gsx.Analysis.Result
import Gsx.Json.Value
/-!
# Tables as JSON

Diagnostics and the tables of an analysis as JSON values. What is empty or
missing is left out where its absence says the same.
-/

namespace Gsx

namespace Diagnostic

/-- A diagnostic as an object. -/
def toJson (d : Diagnostic) : Json :=
  .object ([
    ("file", .string d.file),
    ("line", .nat d.position.line),
    ("column", .int d.position.column),
    ("severity", .string d.severity.text),
    ("message", .string d.message)]
    ++ (if d.hint = "" then [] else [("hint", .string d.hint)])
    ++ match d.stop with
      | some p => [("end_line", .nat p.line), ("end_column", .int p.column)]
      | none => [])

/-- Diagnostics as an array. -/
def toJsonAll (ds : List Diagnostic) : Json :=
  .array (ds.map toJson)

end Diagnostic

/-- A reference as an object. -/
def NamedRef.toJson (r : NamedRef) : Json :=
  .object ([
    ("name", .string r.name),
    ("tag", .string r.site.head.tag),
    ("kind", .string r.kind.text),
    ("in_loop", .bool r.site.inLoop),
    ("in_conditional", .bool r.site.inConditional)]
    ++ match r.kind.key? with
      | some key => [("key_expr", .string key), ("key_type", .string (inferKeyType key))]
      | none => [])

/-- A state variable as an object. -/
def StateVar.toJson (v : StateVar) : Json :=
  .object [
    ("name", .string v.name),
    ("type", .string v.type),
    ("init_expr", .string v.init),
    ("is_parameter", .bool v.isParameter)]

/-- A binding as an object. -/
def StateBinding.toJson (b : StateBinding) : Json :=
  .object [
    ("state_vars", .strings b.vars),
    ("element_name", .string b.elementName),
    ("attribute", .string b.property.name),
    ("expr", .string b.expr),
    ("explicit_deps", .bool b.isExplicit)]

/-- The tables of a component as an object. -/
def ComponentTables.toJson (t : ComponentTables) : Json :=
  .object [
    ("name", .string t.component.name),
    ("accepts_children", .bool t.component.acceptsChildren),
    ("named_refs", .array (t.refs.map NamedRef.toJson)),
    ("state_vars", .array (t.stateVars.map StateVar.toJson)),
    ("state_bindings", .array (t.bindings.map StateBinding.toJson)),
    ("element_names", .strings (t.names.map (·.name)))]

/-- The tables of an analysis as the members of an object, with the given
diagnostics. -/
def Analysis.members (a : Analysis) (ds : List Diagnostic) : List (String × Json) := [
  ("package", .string a.file.package),
  ("imports", .strings (a.file.imports.map (·.path))),
  ("components", .array (a.components.map ComponentTables.toJson)),
  ("diagnostics", Diagnostic.toJsonAll ds)]

/-- The tables of an analysis as an object, with the given diagnostics. -/
def Analysis.toJson (a : Analysis) (ds : List Diagnostic) : Json :=
  .object (a.members ds)

end Gsx
