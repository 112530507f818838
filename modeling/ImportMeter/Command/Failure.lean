/-
This file writes failures with what caused them, the way the program ends with one.
-/
import ImportMeter.Configuration

namespace ImportMeter

/-- The messages of a failure and of its causes, the outermost first. -/
structure Failure where
  message : Text
  causes : List Text
  deriving DecidableEq

namespace Failure

def plain (message : Text) : Failure := ⟨message, []⟩

def ofError (error : Error) : Failure := ⟨error.message, error.causes⟩

/-- Says what was being done when a failure came about. -/
def within (failure : Failure) (context : Text) : Failure :=
  ⟨context, failure.message :: failure.causes⟩

def ofConfiguration (fault : ConfigurationFault) : Failure :=
  match fault.chain with
  | [] => plain []
  | message :: causes => ⟨message, causes⟩

/-- The failure on one line. -/
def line (failure : Failure) : Text :=
  Text.joinWith ": ".toList (failure.message :: failure.causes)

/-- A text of which every line but the first begins with an indentation. -/
def indentLines (indentation text : Text) : Text :=
  text.flatMap fun letter => if letter = '\n' then '\n' :: indentation else [letter]

/-- The causes with their numbers, from a number on. -/
def numbered (number : Nat) : List Text → Text
  | [] => []
  | cause :: rest =>
    let digits := Nat.toDigits 10 number
    '\n' :: List.replicate (5 - digits.length) ' ' ++ digits ++ ": ".toList ++
      indentLines "       ".toList cause ++ numbered (number + 1) rest

/-- The failure with its causes below. A single cause has no number. -/
def report (failure : Failure) : Text :=
  failure.message ++ match failure.causes with
    | [] => []
    | [cause] =>
      "\n\nCaused by:\n    ".toList ++ indentLines "    ".toList cause
    | causes => "\n\nCaused by:".toList ++ numbered 0 causes

end Failure

end ImportMeter
