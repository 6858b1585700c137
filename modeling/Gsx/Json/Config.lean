import Gsx.Config
import Gsx.Json.Value
/-!
# Settings as JSON

A JSON object overrides the standard settings member by member. Members of
other names are ignored, and so are values of another type than the setting
has.
-/

namespace Gsx

namespace Json

/-- The texts of an object whose values are all strings. -/
def textMembers? : Json → Option (List (String × String))
  | .object members => members.mapM fun m => m.2.text?.map fun s => (m.1, s)
  | _ => none

end Json

namespace Config

/-- Overrides one setting. -/
def override (c : Config) (name : String) (value : Json) : Config :=
  match name with
  | "known_tags" => { c with knownTags := value.texts?.getD c.knownTags }
  | "void_tags" => { c with voidTags := value.texts?.getD c.voidTags }
  | "known_attributes" => { c with knownAttributes := value.texts?.getD c.knownAttributes }
  | "attribute_typos" => { c with attributeTypos := value.textMembers?.getD c.attributeTypos }
  | "element_import" => { c with elementImport := value.text?.getD c.elementImport }
  | "layout_import" => { c with layoutImport := value.text?.getD c.layoutImport }
  | "tui_import" => { c with tuiImport := value.text?.getD c.tuiImport }
  | "inline_text_tags" => { c with inlineTextTags := value.texts?.getD c.inlineTextTags }
  | "state_constructor" => { c with stateConstructor := value.text?.getD c.stateConstructor }
  | "state_type" => { c with stateType := value.text?.getD c.stateType }
  | "state_accessor" => { c with stateAccessor := value.text?.getD c.stateAccessor }
  | "element_name_prefix" => { c with nameStem := value.text?.getD c.nameStem }
  | "validate_classes" => { c with validateClasses := value.bool?.getD c.validateClasses }
  | _ => c

/-- The standard settings with those of an object. -/
def ofMembers (members : List (String × Json)) : Config :=
  members.foldl (fun c m => c.override m.1 m.2) standard

/-- All settings as an object. -/
def toJson (c : Config) : Json :=
  .object [
    ("known_tags", .strings c.knownTags),
    ("void_tags", .strings c.voidTags),
    ("known_attributes", .strings c.knownAttributes),
    ("attribute_typos", .object (c.attributeTypos.map fun t => (t.1, .string t.2))),
    ("element_import", .string c.elementImport),
    ("layout_import", .string c.layoutImport),
    ("tui_import", .string c.tuiImport),
    ("inline_text_tags", .strings c.inlineTextTags),
    ("state_constructor", .string c.stateConstructor),
    ("state_type", .string c.stateType),
    ("state_accessor", .string c.stateAccessor),
    ("element_name_prefix", .string c.nameStem),
    ("validate_classes", .bool c.validateClasses)]

end Config

end Gsx
