/-
This file finds the shortest decimal that reads back as a given number. Of several shortest ones the
nearest to the number is taken, and of two equally near the one with the even last digit.
-/
import ImportMeter.Decimal.Exact
import ImportMeter.Text.Basic

namespace ImportMeter.Decimal

/-- A whole number times a power of ten. -/
structure Digits where
  significand : Nat
  exponent : Int
  deriving DecidableEq

/-- The numbers that round to one floating-point number: bounds around its value, all counted in the
same power of two, and whether the bounds belong to it. -/
structure Rounding where
  low : Nat
  value : Nat
  high : Nat
  exponent : Int
  closed : Bool

/-- The interval around a significand times a power of two. Below a power of two the gap to the next
number is half as wide. -/
def Rounding.around (significand : Nat) (exponent : Int) : Rounding :=
  let below := if significand = Nat.pow 2 52 && exponent > -1074 then 1 else 2
  ⟨4 * significand - below, 4 * significand, 4 * significand + 2, exponent - 2,
    significand % 2 = 0⟩

/-- True if a count of units lies in the interval, the other two counts being the units of the
interval and of the count. -/
def Rounding.holds (interval : Rounding) (boundUnit pointUnit point : Nat) : Bool :=
  if interval.closed then
    interval.low * boundUnit ≤ point * pointUnit && point * pointUnit ≤ interval.high * boundUnit
  else
    interval.low * boundUnit < point * pointUnit && point * pointUnit < interval.high * boundUnit

/-- The nearest multiple of a power of ten in the interval, if one of the two neighbours of the value
lies in it. -/
def Rounding.pick? (interval : Rounding) (power : Int) : Option Nat :=
  let pointUnit := Nat.pow 10 power.toNat * Nat.pow 2 (-interval.exponent).toNat
  let boundUnit := Nat.pow 10 (-power).toNat * Nat.pow 2 interval.exponent.toNat
  let lower := interval.value * boundUnit / pointUnit
  let twice := 2 * interval.value * boundUnit
  let middle := (2 * lower + 1) * pointUnit
  let prefersLower := twice < middle || (twice = middle && lower % 2 = 0)
  let candidates := if prefersLower then [lower, lower + 1] else [lower + 1, lower]
  candidates.find? (interval.holds boundUnit pointUnit)

/-- How many digits stand before the point; a value below one tenth has a negative count. -/
def digitCount (significand : Nat) (exponent : Int) : Int :=
  let (numerator, denominator) := fraction significand exponent
  (Nat.toDigits 10 (numerator * Nat.pow 10 340 / denominator)).length - (340 : Int)

/-- Drops zeros from the end of a number, at most `fuel` of them. -/
def stripZeros : Nat → Digits → Digits
  | 0, digits => digits
  | fuel + 1, digits =>
    if digits.significand % 10 = 0 then
      stripZeros fuel ⟨digits.significand / 10, digits.exponent + 1⟩
    else digits

/-- The shortest decimal that rounds to a significand times a power of two. -/
def shortest (significand : Nat) (exponent : Int) : Digits :=
  let interval := Rounding.around significand exponent
  let count := digitCount significand exponent
  let powers := (List.range 17).map fun length : Nat => count - length - 1
  let found := powers.findSome? fun power => (interval.pick? power).map (Digits.mk · power)
  stripZeros 20 (found.getD ⟨significand, 0⟩)

end ImportMeter.Decimal
