import Gsx.Number.Binary64
import Gsx.Number.Numeral
/-!
# Float literals

A decimal fraction with an optional exponent, read to the nearest double. An
exponent mark without digits makes the literal invalid.
-/

namespace Gsx

/-- The parts of a float literal: digits before and after the point, and the
exponent if there is one (its sign, then its digits). -/
structure FloatLiteral where
  whole : List Char
  fraction : List Char
  exponent : Option (Bool × List Char)
  deriving DecidableEq, Repr

namespace FloatLiteral

/-- Splits the text of a literal into its parts. -/
def split (cs : List Char) : FloatLiteral :=
  let (whole, rest) := cs.span Unicode.isDecimal
  let (fraction, rest) := match rest with
    | '.' :: rest => rest.span Unicode.isDecimal
    | rest => ([], rest)
  match rest with
  | _ :: '-' :: digits => ⟨whole, fraction, some (true, digits)⟩
  | _ :: '+' :: digits => ⟨whole, fraction, some (false, digits)⟩
  | _ :: digits => ⟨whole, fraction, some (false, digits)⟩
  | [] => ⟨whole, fraction, none⟩

/-- The power of ten that the exponent names; none where it has no digits. -/
def power? : FloatLiteral → Option Int
  | ⟨_, _, none⟩ => some 0
  | ⟨_, _, some (_, [])⟩ => none
  | ⟨_, _, some (true, digits)⟩ => some (-(Numeral.value digits : Int))
  | ⟨_, _, some (false, digits)⟩ => some (Numeral.value digits)

/-- The double nearest to `digits · 10^power`. Powers so large or small that
the result is certainly infinite or zero are not computed. -/
def scale (digits : Nat) (count : Nat) (power : Int) : Binary64 :=
  if digits = 0 then .zero
  else if 400 < power then .infinite
  else if power + count < -400 then .zero
  else Binary64.nearest (digits * Nat.pow 10 power.toNat) (Nat.pow 10 (-power).toNat)

/-- The value of a literal, or none if the literal is invalid. -/
def value? (text : String) : Option Binary64 :=
  let parts := split text.toList
  let digits := parts.whole ++ parts.fraction
  parts.power?.map fun power =>
    scale (Numeral.value digits) digits.length (power - parts.fraction.length)

end FloatLiteral

end Gsx
