/-
This file writes numbers with a fixed count of decimal places.
-/
import ImportMeter.Decimal.Exact
import ImportMeter.Text.Basic

namespace ImportMeter.Decimal

/-- The whole number nearest to a quotient. A tie goes to the even neighbour. -/
def roundQuotient (numerator denominator : Nat) : Nat :=
  let quotient := numerator / denominator
  let remainder := numerator % denominator
  if 2 * remainder > denominator || (2 * remainder = denominator && quotient % 2 = 1) then
    quotient + 1
  else quotient

/-- Writes a count of units of the last place with a point in front of the places. -/
def pointed (places units : Nat) : Text :=
  let digits := Nat.toDigits 10 units
  let padded := List.replicate (places + 1 - digits.length) '0' ++ digits
  padded.take (padded.length - places) ++ '.' :: padded.drop (padded.length - places)

/-- The text of a number rounded to some places. A zero keeps its sign. -/
def fixed (places : Nat) (number : Float) : Text :=
  let exact := Exact.ofFloat number
  let sign := if exact.negative then ['-'] else []
  match exact.magnitude with
  | .notANumber => ['N', 'a', 'N']
  | .infinite => sign ++ ['i', 'n', 'f']
  | .finite significand exponent =>
    let (numerator, denominator) := fraction significand exponent
    sign ++ pointed places (roundQuotient (numerator * Nat.pow 10 places) denominator)

end ImportMeter.Decimal
