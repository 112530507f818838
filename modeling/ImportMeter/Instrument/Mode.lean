/-
This file names the two ways to change a script.
-/
import ImportMeter.Instrument.Inject
import ImportMeter.Instrument.Remove

namespace ImportMeter

/-- Whether instrumentation is added or removed. -/
inductive Mode where
  | inject
  | remove
  deriving DecidableEq

namespace Mode

def name : Mode → String
  | .inject => "Inject"
  | .remove => "Remove"

/-- Changes a script, or gives `none` if the text is not one. -/
def change? (mode : Mode) (workingDirectory : Path) (source : Text) (file : Path)
    (instrumentation : Instrumentation) : Option Outcome :=
  match mode with
  | .inject => Instrument.inject? workingDirectory source file instrumentation
  | .remove => Instrument.remove? workingDirectory source file instrumentation

end Mode

end ImportMeter
