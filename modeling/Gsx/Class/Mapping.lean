/-!
# What utility classes mean

A utility class either sets an option of its element or styles its text.
-/

namespace Gsx

/-- The effect of a utility class on its element. -/
inductive ClassEffect where
  /-- An option, as a Go expression. -/
  | option (code : String)
  /-- A text style, as a method call on a style. -/
  | textStyle (call : String)
  deriving DecidableEq, Repr

/-- A utility class as Go code, and whether the code refers to the `tui`
package on its own account. -/
structure ClassMapping where
  effect : ClassEffect
  needsTui : Bool
  deriving DecidableEq, Repr

namespace ClassMapping

/-- An option that needs the `tui` package. -/
def option (code : String) : ClassMapping := ⟨.option code, true⟩

/-- An option whose import some other class brings in. -/
def bareOption (code : String) : ClassMapping := ⟨.option code, false⟩

/-- A text style. -/
def textStyle (call : String) : ClassMapping := ⟨.textStyle call, false⟩

end ClassMapping

end Gsx
