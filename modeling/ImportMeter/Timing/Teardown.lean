/-
This file keeps the work that waits for the end of a session, and the timers that put their reports
there.
-/
import ImportMeter.Timing.TotalTimer

namespace ImportMeter

/-- Work that waits, the earliest first. -/
structure Teardown (Hook : Type) where
  pending : List Hook
  deriving DecidableEq

namespace Teardown

variable {Hook : Type}

def empty : Teardown Hook := ⟨[]⟩

def register (teardown : Teardown Hook) (hook : Hook) : Teardown Hook :=
  ⟨teardown.pending ++ [hook]⟩

/-- Takes all work that waits. -/
def take (teardown : Teardown Hook) : List Hook × Teardown Hook := (teardown.pending, empty)

end Teardown

/-- What can wait for the end of a session. -/
inductive ExitHook where
  /-- The report of a timer. -/
  | report (timer : Nat)
  /-- Something of the caller's own. -/
  | tagged (tag : Text)
  deriving DecidableEq

/-- Any number of timers that share one teardown, and the work that has been run. -/
structure Session where
  timer : Nat → TotalTimer
  teardown : Teardown ExitHook
  ran : List ExitHook

namespace Session

/-- A session in which nothing has been timed yet. -/
def start : Session := ⟨fun _ => .start, .empty, []⟩

def setTimer (session : Session) (index : Nat) (timer : TotalTimer) : Session :=
  { session with timer := fun other => if other = index then timer else session.timer other }

def add (session : Session) (index nanoseconds : Nat) : Session :=
  session.setTimer index ((session.timer index).add nanoseconds)

/-- Registers a hook of the caller's own. -/
def register (session : Session) (tag : Text) : Session :=
  { session with teardown := session.teardown.register (.tagged tag) }

/-- Registers the report of a timer unless that was done before, and tells whether it was done now. -/
def ensureReport (session : Session) (index : Nat) : Bool × Session :=
  let (claimed, timer) := (session.timer index).claimReport
  let session := session.setTimer index timer
  if claimed then
    (true, { session with teardown := session.teardown.register (.report index) })
  else (false, session)

/-- Runs all work that waits. -/
def exit (session : Session) : Session :=
  let (hooks, teardown) := session.teardown.take
  { session with teardown := teardown, ran := session.ran ++ hooks }

end Session

end ImportMeter
