import Gsx.Text.Hex
/-!
# Non-negative doubles

Doubles as exact numbers `m · 2^e`, so that rounding is arithmetic on natural
numbers. A quotient goes to the nearest double, a tie to the even mantissa,
and what lies beyond the largest double to infinity.
-/

namespace Gsx

/-- A non-negative double: `mantissa · 2^exponent`, or infinity. The mantissa
is below `2^53`, and at least `2^52` unless the exponent is the least one,
`-1074`. -/
inductive Binary64 where
  | finite (mantissa : Nat) (exponent : Int)
  | infinite
  deriving DecidableEq, Repr

namespace Binary64

/-- Zero. -/
def zero : Binary64 := .finite 0 (-1074)

/-- The quotient rounded to the nearest whole number, a tie to the even one. -/
def roundDiv (num den : Nat) : Nat :=
  let q := num / den
  let r := num % den
  if den < 2 * r || (2 * r = den && q % 2 = 1) then q + 1 else q

/-- Numerator and denominator of `num / den / 2^exponent`. -/
def scaled (num den : Nat) (exponent : Int) : Nat × Nat :=
  (Nat.shiftLeft num (-exponent).toNat, Nat.shiftLeft den exponent.toNat)

/-- The exponent at which `num / den` has a mantissa of 53 bits, or the least
exponent where that one is smaller. -/
def exponentOf (num den : Nat) : Int :=
  let guess := max (-1074) ((num.log2 : Int) - (den.log2 : Int) - 53)
  let (n, d) := scaled num den guess
  if Nat.shiftLeft 1 53 ≤ n / d then guess + 1 else guess

/-- The double nearest to `num / den`. -/
def nearest (num den : Nat) : Binary64 :=
  if num = 0 then zero
  else
    let e := exponentOf num den
    let (n, d) := scaled num den e
    let m := roundDiv n d
    let (m, e) := if m = Nat.shiftLeft 1 53 then (Nat.shiftLeft 1 52, e + 1) else (m, e)
    if 971 < e then .infinite else .finite m e

/-- A hundred times a double, rounded. -/
def timesHundred : Binary64 → Binary64
  | .infinite => .infinite
  | .finite m e => nearest (Nat.shiftLeft (100 * m) e.toNat) (Nat.shiftLeft 1 (-e).toNat)

/-- The 64 bits of a double. -/
def bits : Binary64 → Nat
  | .infinite => Nat.shiftLeft 0x7FF 52
  | .finite m e =>
    if m < Nat.shiftLeft 1 52 then m
    else Nat.shiftLeft (e + 1075).toNat 52 + (m - Nat.shiftLeft 1 52)

/-- The bits as sixteen hexadecimal digits. -/
def hexBits (x : Binary64) : String :=
  String.ofList (Text.hexDigits 16 x.bits)

/-- The text with exactly two decimal places, rounded from the exact value. -/
def twoPlaces : Binary64 → String
  | .infinite => "inf"
  | .finite m e =>
    let hundredths := roundDiv (Nat.shiftLeft (100 * m) e.toNat) (Nat.shiftLeft 1 (-e).toNat)
    let cents := hundredths % 100
    toString (hundredths / 100) ++ "." ++ (if cents < 10 then "0" else "") ++ toString cents

end Binary64

end Gsx
