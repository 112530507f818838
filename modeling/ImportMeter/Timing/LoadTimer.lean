/-
This file keeps the load times that one caller sees. Every module has one record, in the order in
which the modules were first timed.
-/
import ImportMeter.Decimal.Fixed

namespace ImportMeter

structure LoadRecord where
  moduleName : Text
  milliseconds : Float

namespace LoadRecord

/-- From this time on a load counts as slow. -/
def slowFrom : Float := 1000.0

/-- Turns the text behind it red. -/
def red : Text := '\x1b' :: "[31m".toList

/-- Ends a coloured text. -/
def plain : Text := '\x1b' :: "[0m".toList

/-- The line that reports a load. The time of a slow one is red. -/
def line (record : LoadRecord) : Text :=
  let time := Decimal.fixed 2 record.milliseconds
  let shown := if record.milliseconds ≥ slowFrom then red ++ time ++ plain else time
  '[' :: record.moduleName ++ "] (importTime: ".toList ++ shown ++ "ms)".toList

end LoadRecord

/-- The loads of one caller. -/
structure LoadTimer where
  caller : Text
  package : Option Text
  records : List LoadRecord
  last : Option LoadRecord
  /-- From the start to the latest report, in nanoseconds. -/
  total : Nat

namespace LoadTimer

def start (caller : Text) (package : Option Text) : LoadTimer := ⟨caller, package, [], none, 0⟩

/-- Puts a record in the place of the one with its name, or at the end. -/
def replace (record : LoadRecord) : List LoadRecord → List LoadRecord
  | [] => [record]
  | head :: rest =>
    if head.moduleName = record.moduleName then record :: rest
    else head :: replace record rest

/-- Records the time of one load. -/
def track (timer : LoadTimer) (moduleName : Text) (milliseconds : Float) : LoadTimer :=
  let record := ⟨moduleName, milliseconds⟩
  { timer with records := replace record timer.records, last := some record }

/-- The recorded time of a module. -/
def get? (timer : LoadTimer) (moduleName : Text) : Option Float :=
  (timer.records.find? fun record => record.moduleName = moduleName).map LoadRecord.milliseconds

/-- The line that reports the latest load, if there was one. -/
def summary? (timer : LoadTimer) : Option Text := timer.last.map LoadRecord.line

/-- Reports the latest load, if there was one, some nanoseconds after the start. -/
def summarize (timer : LoadTimer) (elapsed : Nat) : Option Text × LoadTimer :=
  match timer.summary? with
  | some line => (some line, { timer with total := elapsed })
  | none => (none, timer)

end LoadTimer

end ImportMeter
