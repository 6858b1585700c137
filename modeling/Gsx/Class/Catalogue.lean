import Gsx.Class.Mapping
/-!
# The catalogue of utility classes

The classes with a fixed meaning, the classes that carry a number, the
alternative spellings that have a known correction, and the names offered as
corrections of all other misspellings. The order of the names matters: among
equally near ones the earliest is offered.
-/

namespace Gsx.Catalogue

/-- The colours, with their names in Go. -/
def colors : List (String × String) := [
  ("red", "tui.Red"), ("green", "tui.Green"), ("blue", "tui.Blue"), ("cyan", "tui.Cyan"),
  ("magenta", "tui.Magenta"), ("yellow", "tui.Yellow"), ("white", "tui.White"),
  ("black", "tui.Black")]

/-- The classes of one colour. -/
def colorClasses (name code : String) : List (String × ClassMapping) := [
  ("border-" ++ name,
    .option ("tui.WithBorderStyle(tui.NewStyle().Foreground(" ++ code ++ "))")),
  ("text-" ++ name, ⟨.textStyle ("Foreground(" ++ code ++ ")"), true⟩),
  ("bg-" ++ name, .option ("tui.WithBackground(tui.NewStyle().Background(" ++ code ++ "))"))]

/-- The classes with a fixed meaning. -/
def fixed : List (String × ClassMapping) := [
  ("flex", .option "tui.WithDirection(tui.Row)"),
  ("flex-row", .option "tui.WithDirection(tui.Row)"),
  ("flex-col", .option "tui.WithDirection(tui.Column)"),
  ("flex-grow", .bareOption "tui.WithFlexGrow(1)"),
  ("flex-shrink", .bareOption "tui.WithFlexShrink(1)"),
  ("grow", .bareOption "tui.WithFlexGrow(1)"),
  ("grow-0", .bareOption "tui.WithFlexGrow(0)"),
  ("shrink", .bareOption "tui.WithFlexShrink(1)"),
  ("shrink-0", .bareOption "tui.WithFlexShrink(0)"),
  ("flex-1", .bareOption "tui.WithFlexGrow(1)"),
  ("flex-none", .bareOption "tui.WithFlexGrow(0)"),
  ("justify-start", .option "tui.WithJustify(tui.JustifyStart)"),
  ("justify-center", .option "tui.WithJustify(tui.JustifyCenter)"),
  ("justify-end", .option "tui.WithJustify(tui.JustifyEnd)"),
  ("justify-between", .option "tui.WithJustify(tui.JustifySpaceBetween)"),
  ("justify-evenly", .option "tui.WithJustify(tui.JustifySpaceEvenly)"),
  ("justify-around", .option "tui.WithJustify(tui.JustifySpaceAround)"),
  ("items-start", .option "tui.WithAlign(tui.AlignStart)"),
  ("items-center", .option "tui.WithAlign(tui.AlignCenter)"),
  ("items-end", .option "tui.WithAlign(tui.AlignEnd)"),
  ("items-stretch", .option "tui.WithAlign(tui.AlignStretch)"),
  ("self-start", .option "tui.WithAlignSelf(tui.AlignStart)"),
  ("self-center", .option "tui.WithAlignSelf(tui.AlignCenter)"),
  ("self-end", .option "tui.WithAlignSelf(tui.AlignEnd)"),
  ("self-stretch", .option "tui.WithAlignSelf(tui.AlignStretch)"),
  ("text-left", .bareOption "tui.WithTextAlign(tui.TextAlignLeft)"),
  ("text-center", .bareOption "tui.WithTextAlign(tui.TextAlignCenter)"),
  ("text-right", .bareOption "tui.WithTextAlign(tui.TextAlignRight)"),
  ("border", .option "tui.WithBorder(tui.BorderSingle)"),
  ("border-single", .option "tui.WithBorder(tui.BorderSingle)"),
  ("border-rounded", .option "tui.WithBorder(tui.BorderRounded)"),
  ("border-double", .option "tui.WithBorder(tui.BorderDouble)"),
  ("border-thick", .option "tui.WithBorder(tui.BorderThick)"),
  ("font-bold", .textStyle "Bold()"),
  ("font-dim", .textStyle "Dim()"),
  ("text-dim", .textStyle "Dim()"),
  ("italic", .textStyle "Italic()"),
  ("underline", .textStyle "Underline()"),
  ("blink", .textStyle "Blink()"),
  ("reverse", .textStyle "Reverse()"),
  ("strikethrough", .textStyle "Strikethrough()"),
  ("overflow-scroll", .bareOption "tui.WithScrollable(tui.ScrollBoth)"),
  ("overflow-y-scroll", .bareOption "tui.WithScrollable(tui.ScrollVertical)"),
  ("overflow-x-scroll", .bareOption "tui.WithScrollable(tui.ScrollHorizontal)")]
  ++ colors.flatMap fun c => colorClasses c.1 c.2

/-- The classes of whole and automatic sizes. -/
def sizes : List (String × ClassMapping) := [
  ("w-full", .bareOption "tui.WithWidthPercent(100.00)"),
  ("w-auto", .bareOption "tui.WithWidthAuto()"),
  ("h-full", .bareOption "tui.WithHeightPercent(100.00)"),
  ("h-auto", .bareOption "tui.WithHeightAuto()")]

/-- A family of classes that end in a number: what stands before the number,
and the pieces of Go code between which the number is written. -/
structure NumericFamily where
  lead : String
  pieces : List String
  deriving DecidableEq, Repr

/-- The Go code for a number. -/
def NumericFamily.code (f : NumericFamily) (n : Nat) : String :=
  (toString n).intercalate f.pieces

/-- The families of classes that end in a number. -/
def numeric : List NumericFamily := [
  ⟨"gap-", ["tui.WithGap(", ")"]⟩,
  ⟨"p-", ["tui.WithPadding(", ")"]⟩,
  ⟨"px-", ["tui.WithPaddingTRBL(0, ", ", 0, ", ")"]⟩,
  ⟨"py-", ["tui.WithPaddingTRBL(", ", 0, ", ", 0)"]⟩,
  ⟨"pt-", ["tui.WithPaddingTRBL(", ", 0, 0, 0)"]⟩,
  ⟨"pr-", ["tui.WithPaddingTRBL(0, ", ", 0, 0)"]⟩,
  ⟨"pb-", ["tui.WithPaddingTRBL(0, 0, ", ", 0)"]⟩,
  ⟨"pl-", ["tui.WithPaddingTRBL(0, 0, 0, ", ")"]⟩,
  ⟨"m-", ["tui.WithMargin(", ")"]⟩,
  ⟨"mx-", ["tui.WithMarginTRBL(0, ", ", 0, ", ")"]⟩,
  ⟨"my-", ["tui.WithMarginTRBL(", ", 0, ", ", 0)"]⟩,
  ⟨"mt-", ["tui.WithMarginTRBL(", ", 0, 0, 0)"]⟩,
  ⟨"mr-", ["tui.WithMarginTRBL(0, ", ", 0, 0)"]⟩,
  ⟨"mb-", ["tui.WithMarginTRBL(0, 0, ", ", 0)"]⟩,
  ⟨"ml-", ["tui.WithMarginTRBL(0, 0, 0, ", ")"]⟩,
  ⟨"w-", ["tui.WithWidth(", ")"]⟩,
  ⟨"h-", ["tui.WithHeight(", ")"]⟩,
  ⟨"min-w-", ["tui.WithMinWidth(", ")"]⟩,
  ⟨"max-w-", ["tui.WithMaxWidth(", ")"]⟩,
  ⟨"min-h-", ["tui.WithMinHeight(", ")"]⟩,
  ⟨"max-h-", ["tui.WithMaxHeight(", ")"]⟩,
  ⟨"flex-grow-", ["tui.WithFlexGrow(", ")"]⟩,
  ⟨"flex-shrink-", ["tui.WithFlexShrink(", ")"]⟩]

/-- The families of classes that end in a fraction, written as a percentage. -/
def fractional : List (String × String) := [
  ("w-", "tui.WithWidthPercent("),
  ("h-", "tui.WithHeightPercent(")]

/-- Alternative spellings and their corrections. -/
def corrections : List (String × String) := [
  ("flex-column", "flex-col"), ("flex-columns", "flex-col"), ("flex-rows", "flex-row"),
  ("col", "flex-col"), ("row", "flex-row"), ("column", "flex-col"), ("columns", "flex-col"),
  ("rows", "flex-row"), ("gap", "gap-1"), ("padding", "p-1"), ("margin", "m-1"),
  ("bold", "font-bold"), ("dim", "font-dim"), ("width", "w-1"), ("height", "h-1"),
  ("center", "text-center"), ("left", "text-left"), ("right", "text-right"),
  ("align-center", "text-center"), ("align-left", "text-left"), ("align-right", "text-right"),
  ("no-grow", "grow-0"), ("no-shrink", "shrink-0"),
  ("padding-top", "pt-1"), ("padding-bottom", "pb-1"), ("padding-left", "pl-1"),
  ("padding-right", "pr-1"),
  ("margin-top", "mt-1"), ("margin-bottom", "mb-1"), ("margin-left", "ml-1"),
  ("margin-right", "mr-1")]

/-- The names of a numeric family with the numbers one to four. -/
def oneToFour (lead : String) : List String :=
  ["1", "2", "3", "4"].map (lead ++ ·)

/-- The names that are offered for numeric classes. -/
def examples : List String :=
  ["gap-", "p-", "px-", "py-", "pt-", "pr-", "pb-", "pl-", "m-", "mx-", "my-", "mt-", "mr-",
    "mb-", "ml-"].flatMap oneToFour
  ++ ["w-1", "w-10", "w-20", "w-50", "w-100", "w-full", "w-auto", "w-1/2", "w-1/3", "w-2/3",
    "w-1/4", "w-3/4"]
  ++ ["h-1", "h-10", "h-20", "h-50", "h-100", "h-full", "h-auto", "h-1/2", "h-1/3", "h-2/3",
    "h-1/4", "h-3/4"]
  ++ ["min-w-1", "min-w-10", "max-w-50", "max-w-100", "min-h-1", "min-h-10", "max-h-50",
    "max-h-100"]
  ++ ["flex-grow-0", "flex-grow-1", "flex-grow-2", "flex-shrink-0", "flex-shrink-1",
    "flex-shrink-2"]

/-- All names offered as corrections, in order. -/
def knownNames : List String :=
  fixed.map (·.1) ++ examples

end Gsx.Catalogue
