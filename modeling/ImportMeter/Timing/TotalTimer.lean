/-
This file adds up the time of all loads. Both counters have 64 bits: one load's time is cut to what
fits into them, and sums wrap around.
-/
import ImportMeter.Decimal.Fixed

namespace ImportMeter

/-- The running total, and whether its report at exit has been asked for. -/
structure TotalTimer where
  nanoseconds : UInt64
  loads : UInt64
  reportClaimed : Bool
  deriving DecidableEq

namespace TotalTimer

def start : TotalTimer := ⟨0, 0, false⟩

/-- A time in 64 bits, the greatest that fits if it is longer. -/
def saturate (nanoseconds : Nat) : UInt64 :=
  if nanoseconds < Nat.pow 2 64 then .ofNat nanoseconds else .ofNat (Nat.pow 2 64 - 1)

/-- Adds the time of one load. -/
def add (timer : TotalTimer) (nanoseconds : Nat) : TotalTimer :=
  { timer with
    nanoseconds := timer.nanoseconds + saturate nanoseconds, loads := timer.loads + 1 }

def milliseconds (timer : TotalTimer) : Float := timer.nanoseconds.toFloat / 1000000.0

/-- The line that reports the total. -/
def line (timer : TotalTimer) : Text :=
  "Total cumulative dynamic import() time: ".toList ++ Decimal.fixed 3 timer.milliseconds ++
    ['m', 's']

/-- Claims the report at exit. Only the first claim succeeds. -/
def claimReport (timer : TotalTimer) : Bool × TotalTimer :=
  (!timer.reportClaimed, { timer with reportClaimed := true })

end TotalTimer

end ImportMeter
