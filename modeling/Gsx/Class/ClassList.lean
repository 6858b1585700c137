import Gsx.Class.Suggestion
import Gsx.Class.Translation
/-!
# Class lists

The value of a `class` attribute: its translation, and the check of each class
with its place in the value. The translation takes the words between blanks of
any kind; the check takes the stretches between spaces and tabs.
-/

namespace Gsx

/-- The translation of a class list: options and text styles in order, and
whether the `tui` package is needed. -/
structure ClassList where
  options : List String
  textStyles : List String
  needsTui : Bool
  deriving DecidableEq, Repr

/-- A class with its verdict: whether it is known, and what to write instead
where it is not. -/
structure ClassCheck where
  cls : String
  valid : Bool
  suggestion : String
  deriving DecidableEq, Repr

/-- A checked class with the columns where it starts and ends. -/
structure PlacedClass where
  check : ClassCheck
  start : Int
  stop : Int
  deriving DecidableEq, Repr

namespace ClassList

/-- Adds the meaning of one more class. -/
def add (l : ClassList) (m : ClassMapping) : ClassList :=
  let needsTui := l.needsTui || m.needsTui
  match m.effect with
  | .option code => { l with options := l.options ++ [code], needsTui := needsTui }
  | .textStyle call => { l with textStyles := l.textStyles ++ [call], needsTui := needsTui }

/-- The translation of a class list. Unknown classes are left out. -/
def ofText (classes : String) : Except NumberError ClassList :=
  (Text.words classes.toList).foldlM (fun l word => do
    match ← ClassMapping.ofClass? (String.ofList word) with
    | some m => return l.add m
    | none => return l) ⟨[], [], false⟩

end ClassList

namespace ClassCheck

/-- Checks a class. The class it shows has no blanks around it. -/
def ofClass (cls : String) : Except NumberError ClassCheck := do
  let cls := Text.trim cls
  if cls = "" then return ⟨cls, false, ""⟩
  else
    match ← ClassMapping.ofClass? cls with
    | some _ => return ⟨cls, true, ""⟩
    | none => return ⟨cls, false, suggestClass cls⟩

end ClassCheck

namespace PlacedClass

/-- Checks the classes of a list, whose first character stands at a column. A
class is shown as it is written. -/
def ofText (classes : String) (column : Int) : Except NumberError (List PlacedClass) :=
  (Text.runsFrom (fun c => c != ' ' && c != '\t') 0 classes.toList).mapM fun run => do
    let cls := String.ofList run.text
    let check ← ClassCheck.ofClass cls
    return ⟨{ check with cls := cls }, column + run.start, column + run.start + run.text.length⟩

end PlacedClass

end Gsx
