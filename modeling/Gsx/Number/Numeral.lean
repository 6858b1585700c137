import Gsx.Unicode.Digit
/-!
# Decimal numerals

The value of a run of decimal digits of any script. Numerals of more than 4300
digits are refused, leading zeros included.
-/

namespace Gsx

/-- Why a number could not be computed. -/
inductive NumberError where
  /-- A numeral has more digits than are converted. -/
  | tooManyDigits (count : Nat)
  /-- A quotient is larger than the largest double. -/
  | quotientTooLarge
  deriving DecidableEq, Repr

/-- The most digits that a numeral may have. -/
def Numeral.maxDigits : Nat := 4300

/-- The text of a number error. -/
def NumberError.message : NumberError → String
  | .tooManyDigits count =>
    "Exceeds the limit (4300 digits) for integer string conversion: value has "
      ++ toString count ++ " digits; use sys.set_int_max_str_digits() to increase the limit"
  | .quotientTooLarge => "integer division result too large for a float"

/-- The number that a run of decimal digits denotes. -/
def Numeral.value (digits : List Char) : Nat :=
  digits.foldl (fun n c => 10 * n + Unicode.decimalValue c) 0

/-- Reads a numeral of admissible length. -/
def Numeral.read (digits : List Char) : Except NumberError Nat :=
  if Numeral.maxDigits < digits.length then .error (.tooManyDigits digits.length)
  else .ok (Numeral.value digits)

theorem Numeral.read_eq_error_iff {digits : List Char} {e : NumberError} :
    Numeral.read digits = .error e ↔
      Numeral.maxDigits < digits.length ∧ e = .tooManyDigits digits.length := by
  unfold Numeral.read
  split
  · rename_i h
    constructor
    · intro h'
      cases h'
      exact ⟨h, rfl⟩
    · intro h'
      rw [h'.2]
  · rename_i h
    constructor
    · intro h'
      cases h'
    · intro h'
      exact absurd h'.1 h

end Gsx
