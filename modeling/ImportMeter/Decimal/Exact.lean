/-
This file reads the exact value of a floating-point number off its bits.
-/

namespace ImportMeter.Decimal

/-- How large a floating-point number is, its sign apart. A finite one is a whole number times a
power of two. -/
inductive Magnitude where
  | notANumber
  | infinite
  | finite (significand : Nat) (exponent : Int)
  deriving DecidableEq

/-- The value of a floating-point number. -/
structure Exact where
  negative : Bool
  magnitude : Magnitude
  deriving DecidableEq

/-- The magnitude that the exponent field and the fraction field spell. -/
def Magnitude.ofFields (biased fraction : Nat) : Magnitude :=
  if biased = 2047 then if fraction = 0 then .infinite else .notANumber
  else if biased = 0 then .finite fraction (-1074)
  else .finite (fraction + Nat.pow 2 52) (biased - 1075)

def Exact.ofBits (bits : UInt64) : Exact :=
  ⟨bits.toNat / Nat.pow 2 63 = 1,
    .ofFields (bits.toNat / Nat.pow 2 52 % Nat.pow 2 11) (bits.toNat % Nat.pow 2 52)⟩

/-- The value of a number. -/
def Exact.ofFloat (number : Float) : Exact := .ofBits number.toBits

/-- The numerator and denominator of a whole number times a power of two. -/
def fraction (significand : Nat) (exponent : Int) : Nat × Nat :=
  (significand * Nat.pow 2 exponent.toNat, Nat.pow 2 (-exponent).toNat)

end ImportMeter.Decimal
