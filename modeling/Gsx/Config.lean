import Gsx.Unicode.Case
/-!
# Configuration

What the analysis knows about the runtime: its elements and attributes, its paths
and how it spells reactive state.
-/

namespace Gsx

/-- The settings of an analysis. -/
structure Config where
  /-- Tags that an element may have. -/
  knownTags : List String
  /-- Tags of elements that never have children. -/
  voidTags : List String
  /-- Attributes that an element may have. -/
  knownAttributes : List String
  /-- Misspelt attributes in lower case, with the right spelling. -/
  attributeTypos : List (String × String)
  elementImport : String
  layoutImport : String
  tuiImport : String
  /-- Tags of elements that show a single text child themselves. -/
  inlineTextTags : List String
  /-- The function that makes a state variable. -/
  stateConstructor : String
  /-- The type of a state variable, without its parameter. -/
  stateType : String
  /-- The method that reads a state variable. -/
  stateAccessor : String
  /-- What the names of unnamed elements start with. -/
  nameStem : String
  /-- Whether unknown utility classes are reported. -/
  validateClasses : Bool
  deriving DecidableEq, Repr

namespace Config

/-- The settings for the standard runtime. -/
def standard : Config where
  knownTags := ["div", "span", "p", "ul", "li", "button", "input", "table", "progress", "hr", "br"]
  voidTags := ["hr", "br", "input"]
  knownAttributes := [
    "width", "widthPercent", "height", "heightPercent", "minWidth", "minHeight", "maxWidth",
    "maxHeight",
    "direction", "justify", "align", "gap",
    "flexGrow", "flexShrink", "alignSelf",
    "padding", "margin",
    "border", "borderStyle", "background",
    "text", "textStyle", "textAlign",
    "onFocus", "onBlur", "onEvent", "focusable",
    "onKeyPress", "onClick",
    "onChannel", "onTimer",
    "scrollable", "scrollOffset", "scrollbarStyle", "scrollbarThumbStyle",
    "disabled", "id", "class", "deps", "key"]
  attributeTypos := [
    ("colour", "background"), ("color", "background"), ("onclick", "onEvent"),
    ("onfocus", "onFocus"), ("onblur", "onBlur"), ("flexgrow", "flexGrow"),
    ("flexshrink", "flexShrink"), ("textstyle", "textStyle"), ("textalign", "textAlign"),
    ("alignself", "alignSelf"), ("borderstyle", "borderStyle")]
  elementImport := "github.com/grindlemire/go-tui/pkg/tui/element"
  layoutImport := "github.com/grindlemire/go-tui/pkg/layout"
  tuiImport := "github.com/grindlemire/go-tui/pkg/tui"
  inlineTextTags := ["span", "p"]
  stateConstructor := "tui.NewState"
  stateType := "tui.State"
  stateAccessor := "Get"
  nameStem := "__tmp_"
  validateClasses := true

/-- Whether an element may have a tag. -/
def isKnownTag (c : Config) (tag : String) : Bool :=
  c.knownTags.contains tag

/-- Whether an element with a tag can have no children. -/
def isVoidTag (c : Config) (tag : String) : Bool :=
  c.voidTags.contains tag

/-- Whether an element may have an attribute. -/
def isKnownAttribute (c : Config) (name : String) : Bool :=
  c.knownAttributes.contains name

/-- The right spelling of a misspelt attribute, empty where none is known. -/
def suggestAttribute (c : Config) (name : String) : String :=
  (c.attributeTypos.lookup (Unicode.lower name)).getD ""

end Config

end Gsx
