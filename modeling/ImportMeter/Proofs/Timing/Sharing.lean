/-
This file lets any number of clients share the timers and the teardown of a session. The claim of a report
and its registration are two steps, and so are the taking of hooks and the running of each, with steps of
other clients between them.
-/
import ImportMeter.Timing.Teardown
import Mathlib.Algebra.BigOperators.Group.Finset.Piecewise
import Mathlib.Data.List.DropRight

namespace ImportMeter

/-- What a client is in the middle of. -/
inductive Activity where
  | idle
  /-- It has claimed the report of a timer, which it has still to register. -/
  | reporting (timer : Nat)
  /-- It has taken the hooks that waited and has these of them still to run. -/
  | leaving (hooks : List ExitHook)
  deriving DecidableEq

/-- The hooks that a client has still to run. -/
def Activity.hooks : Activity → List ExitHook
  | .leaving hooks => hooks
  | _ => []

/-- What a client does in one step. A hook that registers another one does so as a client of its own. -/
inductive SessionEvent where
  | added (client timer nanoseconds : Nat)
  | claimed (client timer : Nat) (won : Bool)
  | registered (client : Nat) (hook : ExitHook)
  | took (client : Nat)
  | ran (client : Nat) (hook : ExitHook)
  | left (client : Nat)
  deriving DecidableEq

namespace SessionEvent

def client : SessionEvent → Nat
  | added client _ _ | claimed client _ _ | registered client _ | took client | ran client _
  | left client => client

/-- True for the claims of a timer's report that succeed. -/
def wins (timer : Nat) : SessionEvent → Bool
  | claimed _ other won => other = timer && won
  | _ => false

/-- True for the claims of a timer's report. -/
def claims (timer : Nat) : SessionEvent → Bool
  | claimed _ other _ => other = timer
  | _ => false

def isTake : SessionEvent → Bool
  | took _ => true
  | _ => false

def registered? : SessionEvent → Option ExitHook
  | registered _ hook => some hook
  | _ => none

def ran? : SessionEvent → Option ExitHook
  | ran _ hook => some hook
  | _ => none

/-- The hooks that are registered, in order. -/
def registrations (events : List SessionEvent) : List ExitHook := events.filterMap registered?

/-- The hooks that are run, in order. -/
def runs (events : List SessionEvent) : List ExitHook := events.filterMap ran?

/-- The hooks that one client runs, in order. -/
def runsOf (client : Nat) (events : List SessionEvent) : List ExitHook :=
  runs (events.filter (·.client = client))

/-- What has happened since hooks were taken for the last time. -/
def sinceTake (events : List SessionEvent) : List SessionEvent := events.rtakeWhile fun event => !event.isTake

/-- What happens until a client is done with its hooks. -/
def untilLeft (client : Nat) (events : List SessionEvent) : List SessionEvent :=
  events.takeWhile (· ≠ .left client)

theorem registrations_append (first second : List SessionEvent) :
    registrations (first ++ second) = registrations first ++ registrations second :=
  List.filterMap_append

theorem runs_append (first second : List SessionEvent) :
    runs (first ++ second) = runs first ++ runs second :=
  List.filterMap_append

theorem runsOf_append (client : Nat) (first second : List SessionEvent) :
    runsOf client (first ++ second) = runsOf client first ++ runsOf client second := by
  rw [runsOf, List.filter_append, runs_append]
  rfl

theorem runsOf_of_client_ne {client : Nat} {event : SessionEvent} (other : event.client ≠ client) :
    runsOf client [event] = [] := by
  rw [runsOf, List.filter_cons_of_neg (by rwa [decide_eq_true_eq])]
  rfl

theorem runsOf_ran (client : Nat) (hook : ExitHook) : runsOf client [.ran client hook] = [hook] := by
  have own : [ran client hook].filter (·.client = client) = [ran client hook] :=
    List.filter_cons_of_pos (decide_eq_true rfl)
  rw [runsOf, own]
  rfl

theorem left_notMem_concat {client : Nat} {events : List SessionEvent} {event : SessionEvent}
    (notDone : .left client ∉ events) (other : event ≠ .left client) :
    .left client ∉ events ++ [event] := by
  intro member
  rcases List.mem_append.mp member with earlier | last
  · exact notDone earlier
  · exact other (List.mem_singleton.mp last).symm

theorem untilLeft_append_of_mem {client : Nat} {events : List SessionEvent} (isDone : .left client ∈ events)
    (later : List SessionEvent) : untilLeft client (events ++ later) = untilLeft client events := by
  induction events with
  | nil => exact absurd isDone List.not_mem_nil
  | cons event events inductionHypothesis =>
      rw [untilLeft, List.cons_append, List.takeWhile_cons, untilLeft, List.takeWhile_cons]
      split
      next other =>
        have inRest : .left client ∈ events :=
          (List.mem_cons.mp isDone).resolve_left fun same => of_decide_eq_true other same.symm
        exact congrArg (event :: ·) (inductionHypothesis inRest)
      next => rfl

theorem untilLeft_concat_left {client : Nat} {events : List SessionEvent}
    (notDone : .left client ∉ events) :
    untilLeft client (events ++ [.left client]) = events := by
  have all : ∀ event ∈ events, decide (event ≠ .left client) = true :=
    fun event member => decide_eq_true fun same => notDone (same ▸ member)
  rw [untilLeft, List.takeWhile_append_of_pos all,
    List.takeWhile_cons_of_neg (by rw [decide_eq_true_eq]; exact fun other => other rfl), List.append_nil]

theorem sinceTake_concat (events : List SessionEvent) (event : SessionEvent) :
    sinceTake (events ++ [event]) = if event.isTake then [] else sinceTake events ++ [event] := by
  rw [sinceTake, List.rtakeWhile_concat]
  cases event.isTake <;> rfl

end SessionEvent

/-- What a step does to the session. -/
def Session.apply (session : Session) : SessionEvent → Session
  | .added _ timer nanoseconds => session.add timer nanoseconds
  | .claimed _ timer _ => session.setTimer timer (session.timer timer).claimReport.2
  | .registered _ hook => { session with teardown := session.teardown.register hook }
  | .took _ => { session with teardown := session.teardown.take.2 }
  | .ran _ hook => { session with ran := session.ran ++ [hook] }
  | .left _ => session

/-- The steps that a client can take, with what it is in the middle of before and after. -/
inductive Moves (session : Session) : SessionEvent → Activity → Activity → Prop where
  | add (client timer nanoseconds : Nat) : Moves session (.added client timer nanoseconds) .idle .idle
  | win (client timer : Nat) (won : (session.timer timer).claimReport.1 = true) :
      Moves session (.claimed client timer true) .idle (.reporting timer)
  | lose (client timer : Nat) (lost : (session.timer timer).claimReport.1 = false) :
      Moves session (.claimed client timer false) .idle .idle
  | report (client timer : Nat) :
      Moves session (.registered client (.report timer)) (.reporting timer) .idle
  | register (client : Nat) (tag : Text) :
      Moves session (.registered client (.tagged tag)) .idle .idle
  | take (client : Nat) : Moves session (.took client) .idle (.leaving session.teardown.take.1)
  | run (client : Nat) (hook : ExitHook) (hooks : List ExitHook) :
      Moves session (.ran client hook) (.leaving (hook :: hooks)) (.leaving hooks)
  | leave (client : Nat) : Moves session (.left client) (.leaving []) .idle

/-- A step moves hooks on: from the registration to those that wait, from there to the hands of a client, and
from there to those that have been run. -/
theorem Moves.count_hooks {session : Session} {event : SessionEvent} {before next : Activity}
    (moves : Moves session event before next) (hook : ExitHook) :
    event.ran?.toList.count hook + next.hooks.count hook +
        (session.apply event).teardown.pending.count hook =
      before.hooks.count hook + session.teardown.pending.count hook +
        event.registered?.toList.count hook := by
  have appended : ∀ registered, (session.teardown.register registered).pending.count hook =
      session.teardown.pending.count hook + [registered].count hook :=
    fun registered => List.count_append
  cases moves with
  | add | win | lose | leave => rfl
  | report client timer =>
      show 0 + 0 + (session.teardown.register (.report timer)).pending.count hook =
        0 + session.teardown.pending.count hook + [ExitHook.report timer].count hook
      rw [appended]
      omega
  | register client tag =>
      show 0 + 0 + (session.teardown.register (.tagged tag)).pending.count hook =
        0 + session.teardown.pending.count hook + [ExitHook.tagged tag].count hook
      rw [appended]
      omega
  | take =>
      show 0 + session.teardown.pending.count hook + 0 = 0 + session.teardown.pending.count hook + 0
      rfl
  | run client ran hooks =>
      show [ran].count hook + hooks.count hook + session.teardown.pending.count hook =
        ([ran] ++ hooks).count hook + session.teardown.pending.count hook + 0
      rw [List.count_append, Nat.add_zero]

/-- A session that clients share. -/
structure SharedSession where
  session : Session
  activity : Nat → Activity

namespace SharedSession

open SessionEvent

/-- Nobody has done anything yet. -/
def start : SharedSession := ⟨.start, fun _ => .idle⟩

/-- One client takes a step. -/
inductive Step (shared : SharedSession) (event : SessionEvent) : SharedSession → Prop where
  | mk {before next : Activity} (was : shared.activity event.client = before)
      (moves : Moves shared.session event before next) :
      Step shared event
        ⟨shared.session.apply event, Function.update shared.activity event.client next⟩

/-- Steps of clients, in any order that they allow. -/
inductive Run (first : SharedSession) : List SessionEvent → SharedSession → Prop where
  | nil : Run first [] first
  | step {events : List SessionEvent} {shared after : SharedSession} {event : SessionEvent}
      (run : Run first events shared) (step : Step shared event after) :
      Run first (events ++ [event]) after

variable {first shared after : SharedSession} {events : List SessionEvent} {event : SessionEvent}

theorem Run.trans {later : List SessionEvent} {last : SharedSession} (run : Run first events shared)
    (next : Run shared later last) : Run first (events ++ later) last := by
  induction next with
  | nil => rwa [List.append_nil]
  | step _ step inductionHypothesis =>
      rw [← List.append_assoc]
      exact inductionHypothesis.step step

/-- What happens can be cut at any of its steps. -/
theorem Run.split {before later : List SessionEvent} (run : Run first (before ++ event :: later) after) :
    ∃ middle next, Run first before middle ∧ Step middle event next ∧ Run next later after := by
  generalize whole : before ++ event :: later = all at run
  induction run generalizing later with
  | nil => exact absurd whole (List.append_ne_nil_of_right_ne_nil before (List.cons_ne_nil event later))
  | @step events shared after last run step inductionHypothesis =>
      rcases List.eq_nil_or_concat' later with rfl | ⟨later, other, rfl⟩
      · obtain ⟨rfl, same⟩ := List.append_inj' whole rfl
        obtain rfl := List.singleton_inj.mp same
        exact ⟨shared, after, run, step, .nil⟩
      · rw [← List.cons_append, ← List.append_assoc] at whole
        obtain ⟨front, same⟩ := List.append_inj' whole rfl
        obtain rfl := List.singleton_inj.mp same
        obtain ⟨middle, next, earlier, own, behind⟩ := inductionHypothesis front
        exact ⟨middle, next, earlier, own, behind.step step⟩

/-! ### The hooks that wait -/

theorem Step.pending_eq (step : Step shared event after) :
    after.session.teardown.pending =
      if event.isTake then [] else
        shared.session.teardown.pending ++ event.registered?.toList := by
  obtain ⟨_, _⟩ := step
  cases event with
  | added | claimed | ran | left => exact (List.append_nil _).symm
  | registered | took => rfl

theorem Step.ran_eq (step : Step shared event after) :
    after.session.ran = shared.session.ran ++ event.ran?.toList := by
  obtain ⟨_, _⟩ := step
  cases event with
  | ran => rfl
  | added | claimed | registered | took | left => exact (List.append_nil _).symm

/-- The hooks that wait are those registered since hooks were taken for the last time. -/
theorem Run.pending_eq (run : Run start events shared) :
    shared.session.teardown.pending = registrations (sinceTake events) := by
  induction run with
  | nil => rfl
  | @step events shared after event _ step inductionHypothesis =>
      rw [step.pending_eq, inductionHypothesis, sinceTake_concat]
      split
      next => rfl
      next =>
        rw [registrations_append, registrations, registrations]
        cases event <;> rfl

theorem Run.ran_eq (run : Run start events shared) : shared.session.ran = runs events := by
  induction run with
  | nil => rfl
  | @step events shared after event _ step inductionHypothesis =>
      rw [step.ran_eq, inductionHypothesis, runs_append]
      cases event <;> rfl

/-! ### What a client does with the hooks it has taken -/

/-- Nobody changes what another client is in the middle of. -/
theorem Step.activity_of_ne (step : Step shared event after) {client : Nat}
    (other : event.client ≠ client) : after.activity client = shared.activity client := by
  obtain ⟨_, _⟩ := step
  exact Function.update_of_ne (Ne.symm other) _ _

/-- A client that has taken hooks runs the next one, or is done. -/
theorem Step.leaving {client : Nat} {hooks : List ExitHook} (step : Step shared event after)
    (leaving : shared.activity client = .leaving hooks) :
    (event.client ≠ client ∧ after.activity client = .leaving hooks) ∨
      (∃ hook rest, hooks = hook :: rest ∧ event = .ran client hook ∧
        after.activity client = .leaving rest) ∨
      (hooks = [] ∧ event = .left client) := by
  by_cases own : event.client = client
  · subst own
    obtain ⟨rfl, moves⟩ := step
    rw [leaving] at moves
    cases moves with
    | run client hook rest => exact .inr (.inl ⟨hook, rest, rfl, rfl, Function.update_self ..⟩)
    | leave => exact .inr (.inr ⟨rfl, rfl⟩)
  · exact .inl ⟨own, (step.activity_of_ne own).trans leaving⟩

/-- It runs them one by one in their order, until it is done. -/
theorem Run.leaving {client : Nat} {hooks : List ExitHook} (run : Run first events shared)
    (leaving : first.activity client = .leaving hooks) :
    (.left client ∈ events ∧ runsOf client (untilLeft client events) = hooks) ∨
      (.left client ∉ events ∧ ∃ rest, shared.activity client = .leaving rest ∧
        runsOf client events ++ rest = hooks) := by
  induction run with
  | nil => exact .inr ⟨List.not_mem_nil, hooks, leaving, rfl⟩
  | @step events shared after event _ step inductionHypothesis =>
      obtain ⟨isDone, all⟩ | ⟨notDone, rest, still, split⟩ := inductionHypothesis
      · refine .inl ⟨List.mem_append_left _ isDone, ?_⟩
        rwa [untilLeft_append_of_mem isDone]
      · obtain ⟨other, stays⟩ | ⟨hook, others, rfl, rfl, stays⟩ | ⟨rfl, rfl⟩ := step.leaving still
        · refine .inr ⟨left_notMem_concat notDone ?_, rest, stays, ?_⟩
          · rintro rfl
            exact other rfl
          · rwa [runsOf_append, runsOf_of_client_ne other, List.append_nil]
        · refine .inr ⟨left_notMem_concat notDone (by simp), others, stays, ?_⟩
          rwa [runsOf_append, runsOf_ran, List.append_assoc]
        · refine .inl ⟨List.mem_append_right _ List.mem_cons_self, ?_⟩
          rwa [untilLeft_concat_left notDone, ← List.append_nil (runsOf client events)]

/-- A client that runs hooks has taken them before, and is not done since. -/
theorem Run.exists_took (run : Run start events shared) {client : Nat} {hooks : List ExitHook}
    (leaving : shared.activity client = .leaving hooks) :
    ∃ earlier later, events = earlier ++ .took client :: later ∧ .left client ∉ later := by
  induction run generalizing hooks with
  | nil => cases leaving
  | @step events shared after event _ step inductionHypothesis =>
      have extend : ∀ {hooks}, shared.activity client = .leaving hooks → event ≠ .left client →
          ∃ earlier later, events ++ [event] = earlier ++ .took client :: later ∧
            .left client ∉ later := by
        intro hooks before other
        obtain ⟨earlier, later, rfl, notDone⟩ := inductionHypothesis before
        exact ⟨earlier, later ++ [event], List.append_assoc .., left_notMem_concat notDone other⟩
      by_cases own : event.client = client
      · subst own
        obtain ⟨was, moves⟩ := step
        obtain rfl := (Function.update_self ..).symm.trans leaving
        cases moves with
        | take => exact ⟨events, [], rfl, List.not_mem_nil⟩
        | run => exact extend was (by simp)
      · refine extend ((step.activity_of_ne own).symm.trans leaving) ?_
        rintro rfl
        exact own rfl

/-- A client that has taken hooks can run them all. -/
theorem run_taken {client : Nat} {hooks : List ExitHook}
    (leaving : shared.activity client = .leaving hooks) :
    Run shared (hooks.map (.ran client) ++ [.left client])
      ⟨{ shared.session with ran := shared.session.ran ++ hooks },
        Function.update shared.activity client .idle⟩ := by
  induction hooks generalizing shared with
  | nil =>
      rw [List.append_nil]
      exact Run.nil.step (.mk leaving (.leave client))
  | cons hook hooks inductionHypothesis =>
      let next : SharedSession := ⟨shared.session.apply (.ran client hook),
        Function.update shared.activity client (.leaving hooks)⟩
      have step : Step shared (.ran client hook) next := .mk leaving (.run client hook hooks)
      have becomes : next.activity client = .leaving hooks := Function.update_self ..
      have last : Function.update next.activity client .idle =
          Function.update shared.activity client .idle := Function.update_idem ..
      have ran : next.session.ran ++ hooks = shared.session.ran ++ hook :: hooks :=
        List.append_assoc shared.session.ran [hook] hooks
      have others := (Run.nil.step step).trans (inductionHypothesis becomes)
      rw [last, ran] at others
      exact others

/-! ### A single client -/

/-- A session that no client is in the middle of using. -/
def quiet (session : Session) : SharedSession := ⟨session, fun _ => .idle⟩

theorem quiet_of_idle (session : Session) (client : Nat) (activity : Activity) :
    ⟨session, Function.update (Function.update (quiet session).activity client activity) client .idle⟩ =
      quiet session := by
  rw [Function.update_idem]
  exact congrArg (SharedSession.mk session) (Function.update_eq_self client (quiet session).activity)

/-- A client that asks for a report without others between its steps does what the session does. -/
theorem run_ensureReport (session : Session) (client timer : Nat) :
    Run (quiet session)
      (if (session.ensureReport timer).1 then
        [.claimed client timer true, .registered client (.report timer)]
      else [.claimed client timer false])
      (quiet (session.ensureReport timer).2) := by
  cases won : (session.timer timer).claimReport.1 with
  | true =>
      have told : session.ensureReport timer = (true, (session.apply (.claimed client timer true)).apply
          (.registered client (.report timer))) := if_pos won
      have claimed : Step (quiet session) (.claimed client timer true) _ := .mk rfl (.win client timer won)
      have registered : Step ⟨session.apply (.claimed client timer true),
            Function.update (quiet session).activity client (.reporting timer)⟩
          (.registered client (.report timer)) _ :=
        .mk (Function.update_self ..) (.report client timer)
      have idle := quiet_of_idle ((session.apply (.claimed client timer true)).apply
        (.registered client (.report timer))) client (.reporting timer)
      rw [told, if_pos rfl]
      exact idle ▸ (Run.nil.step claimed).step registered
  | false =>
      have told : session.ensureReport timer =
          (false, session.apply (.claimed client timer false)) := if_neg (Bool.not_eq_true _ ▸ won)
      have claimed : Step (quiet session) (.claimed client timer false) _ := .mk rfl (.lose client timer won)
      have idle := quiet_of_idle (session.apply (.claimed client timer false)) client .idle
      rw [Function.update_idem] at idle
      rw [told, if_neg Bool.false_ne_true]
      exact idle ▸ Run.nil.step claimed

/-- A client that runs the hooks that wait does what the session does at its end. -/
theorem run_exit (session : Session) (client : Nat) :
    Run (quiet session) (.took client :: (session.teardown.pending.map (.ran client) ++ [.left client]))
      (quiet session.exit) := by
  have took : Step (quiet session) (.took client) _ := .mk rfl (.take client)
  rw [← quiet_of_idle session.exit client (.leaving session.teardown.pending)]
  exact (Run.nil.step took).trans (run_taken (Function.update_self ..))

/-! ### The reports of the timers -/

/-- How far the report of a timer has come: nobody has claimed it, one client has claimed it and has still to
register it, or it has been registered. -/
inductive ReportPhase (events : List SessionEvent) (shared : SharedSession) (timer : Nat) : Prop where
  | free (unclaimed : (shared.session.timer timer).reportClaimed = false)
      (wins : events.countP (·.wins timer) = 0)
      (reports : (registrations events).count (.report timer) = 0)
      (nobody : ∀ client, shared.activity client ≠ .reporting timer)
  | claimed (claimer : Nat) (claimed : (shared.session.timer timer).reportClaimed = true)
      (wins : events.countP (·.wins timer) = 1)
      (reports : (registrations events).count (.report timer) = 0)
      (only : ∀ client, shared.activity client = .reporting timer → client = claimer)
  | registered (claimed : (shared.session.timer timer).reportClaimed = true)
      (wins : events.countP (·.wins timer) = 1)
      (reports : (registrations events).count (.report timer) = 1)
      (nobody : ∀ client, shared.activity client ≠ .reporting timer)

theorem reportClaimed_apply (session : Session) (event : SessionEvent) (timer : Nat) :
    ((session.apply event).timer timer).reportClaimed =
      ((session.timer timer).reportClaimed || event.claims timer) := by
  cases event with
  | registered | took | ran | left => exact (Bool.or_false _).symm
  | added client other nanoseconds =>
      rw [show SessionEvent.claims timer (.added client other nanoseconds) = false from rfl, Bool.or_false]
      show (if timer = other then (session.timer other).add nanoseconds
        else session.timer timer).reportClaimed = _
      split
      next same => rw [TotalTimer.add, same]
      next => rfl
  | claimed client other won =>
      show (if timer = other then (session.timer other).claimReport.2
        else session.timer timer).reportClaimed = (_ || decide (other = timer))
      split
      next same => rw [decide_eq_true same.symm, Bool.or_true, TotalTimer.claimReport]
      next different => rw [decide_eq_false (Ne.symm different), Bool.or_false]

/-- A step begins to report a timer, registers its report, or does neither. -/
theorem Step.report_cases (step : Step shared event after) (timer : Nat) :
    (event.wins timer = false ∧ event.registered? ≠ some (.report timer) ∧
        (after.session.timer timer).reportClaimed = (shared.session.timer timer).reportClaimed ∧
        ∀ client, after.activity client = .reporting timer →
          shared.activity client = .reporting timer) ∨
      (event = .claimed event.client timer true ∧
        (shared.session.timer timer).reportClaimed = false ∧
        ∀ client, after.activity client = .reporting timer →
          client = event.client ∨ shared.activity client = .reporting timer) ∨
      (event = .registered event.client (.report timer) ∧
        shared.activity event.client = .reporting timer ∧
        ∀ client, after.activity client = .reporting timer →
          client ≠ event.client ∧ shared.activity client = .reporting timer) := by
  obtain @⟨before, next, was, moves⟩ := step
  have others : ∀ client, Function.update shared.activity event.client next client = .reporting timer →
      (client = event.client ∧ next = .reporting timer) ∨
        (client ≠ event.client ∧ shared.activity client = .reporting timer) := by
    intro client reporting
    rw [Function.update_apply] at reporting
    split at reporting
    next own => exact .inl ⟨own, reporting⟩
    next other => exact .inr ⟨other, reporting⟩
  have stays : next ≠ .reporting timer → ∀ client,
      Function.update shared.activity event.client next client = .reporting timer →
        client ≠ event.client ∧ shared.activity client = .reporting timer := by
    intro notNext client reporting
    exact (others client reporting).resolve_left fun both => notNext both.2
  have unclaimed : event.claims timer = false →
      ((shared.session.apply event).timer timer).reportClaimed =
        (shared.session.timer timer).reportClaimed := by
    intro notClaimed
    rw [reportClaimed_apply, notClaimed, Bool.or_false]
  cases moves with
  | add | register | take | run | leave =>
      exact .inl ⟨rfl, by simp [SessionEvent.registered?], unclaimed rfl,
        fun client reporting => (stays (by simp) client reporting).2⟩
  | win client other won =>
      by_cases same : other = timer
      · subst same
        refine .inr (.inl ⟨rfl, ?_, fun client reporting => ?_⟩)
        · exact (Bool.not_eq_true' _).mp won
        · exact (others client reporting).imp And.left And.right
      · refine .inl ⟨?_, by simp [SessionEvent.registered?], unclaimed (decide_eq_false same), ?_⟩
        · exact Bool.and_eq_false_imp.mpr fun isSame => absurd (of_decide_eq_true isSame) same
        · exact fun client reporting => (stays (by simpa using same) client reporting).2
  | lose client other lost =>
      refine .inl ⟨Bool.and_false _, by simp [SessionEvent.registered?], ?_,
        fun client reporting => (stays (by simp) client reporting).2⟩
      by_cases same : other = timer
      · subst same
        rw [reportClaimed_apply, (Bool.not_eq_false' _).mp lost, Bool.true_or]
      · exact unclaimed (decide_eq_false same)
  | report client other =>
      by_cases same : other = timer
      · subst same
        exact .inr (.inr ⟨rfl, was, stays (by simp)⟩)
      · refine .inl ⟨rfl, ?_, unclaimed rfl, fun client reporting => (stays (by simp) client reporting).2⟩
        simpa [SessionEvent.registered?] using same

theorem ReportPhase.step {timer : Nat} (phase : ReportPhase events shared timer)
    (step : Step shared event after) : ReportPhase (events ++ [event]) after timer := by
  have claimed : (after.session.timer timer).reportClaimed =
      ((shared.session.timer timer).reportClaimed || event.claims timer) := by
    obtain ⟨_, _⟩ := step
    exact reportClaimed_apply shared.session event timer
  have wins : (events ++ [event]).countP (·.wins timer) =
      events.countP (·.wins timer) + if event.wins timer then 1 else 0 := by
    rw [List.countP_append, List.countP_singleton]
  have reports : (registrations (events ++ [event])).count (.report timer) =
      (registrations events).count (.report timer) +
        event.registered?.toList.count (.report timer) := by
    rw [registrations_append, List.count_append]
    cases event <;> rfl
  obtain ⟨notWon, notReported, same, fewer⟩ | ⟨isWin, unclaimed, atMost⟩ | ⟨isReport, reporting, fewer⟩ :=
    step.report_cases timer
  · have none : event.registered?.toList.count (.report timer) = 0 := by
      rw [List.count_eq_zero, Option.mem_toList]
      exact notReported
    rw [notWon, if_neg Bool.false_ne_true, Nat.add_zero] at wins
    rw [none, Nat.add_zero] at reports
    cases phase with
    | free unclaimed noWins noReports nobody =>
        exact .free (same.trans unclaimed) (wins.trans noWins) (reports.trans noReports)
          fun client reporting => nobody client (fewer client reporting)
    | claimed claimer claimed oneWin noReports only =>
        exact .claimed claimer (same.trans claimed) (wins.trans oneWin) (reports.trans noReports)
          fun client reporting => only client (fewer client reporting)
    | registered claimed oneWin oneReport nobody =>
        exact .registered (same.trans claimed) (wins.trans oneWin) (reports.trans oneReport)
          fun client reporting => nobody client (fewer client reporting)
  · cases phase with
    | free _ noWins noReports nobody =>
        generalize event.client = claimer at isWin atMost
        subst isWin
        refine .claimed claimer ?_ ?_ (reports.trans noReports) ?_
        · rw [claimed, SessionEvent.claims, decide_eq_true rfl, Bool.or_true]
        · rw [wins, noWins, SessionEvent.wins, decide_eq_true rfl]
          rfl
        · exact fun client reporting => (atMost client reporting).resolve_right (nobody client)
    | claimed _ already | registered already => exact absurd (already.symm.trans unclaimed) (by simp)
  · cases phase with
    | free _ _ _ nobody | registered _ _ _ nobody => exact absurd reporting (nobody _)
    | claimed claimer already oneWin noReports only =>
        have isClaimer := only _ reporting
        generalize event.client = reporter at isReport isClaimer fewer
        subst isReport
        refine .registered ?_ (wins.trans oneWin) ?_ ?_
        · rw [claimed, already, Bool.true_or]
        · rw [reports, noReports]
          show 0 + [ExitHook.report timer].count (.report timer) = 1
          rw [List.count_singleton_self]
        · intro client reporting
          obtain ⟨other, before⟩ := fewer client reporting
          exact other ((only client before).trans isClaimer.symm)

theorem Run.reportPhase (run : Run start events shared) (timer : Nat) :
    ReportPhase events shared timer := by
  induction run with
  | nil => exact .free rfl rfl rfl fun _ => by simp [start]
  | step _ step inductionHypothesis => exact inductionHypothesis.step step

/-- At most one client wins the claim of a timer's report, and the report is registered at most once. -/
theorem Run.reports_le (run : Run start events shared) (timer : Nat) :
    (registrations events).count (.report timer) ≤ events.countP (·.wins timer) ∧
      events.countP (·.wins timer) ≤ 1 := by
  cases run.reportPhase timer with
  | free _ wins reports | claimed _ _ wins reports | registered _ wins reports => omega

/-! ### No hook is lost, and none is run twice -/

/-- Every hook that was registered has been run, waits, or is in the hands of a client that has taken it. -/
theorem Run.count_hooks (run : Run start events shared) (clients : Finset Nat)
    (all : ∀ event ∈ events, event.client ∈ clients) (hook : ExitHook) :
    (runs events).count hook +
        ∑ client ∈ clients, (shared.activity client).hooks.count hook +
        shared.session.teardown.pending.count hook =
      (registrations events).count hook := by
  induction run with
  | nil =>
      have none : ∑ client ∈ clients, (start.activity client).hooks.count hook = 0 :=
        Finset.sum_eq_zero fun client _ => rfl
      rw [none]
      rfl
  | @step events shared after event _ step inductionHypothesis =>
      have before := inductionHypothesis fun event member => all event (List.mem_append_left _ member)
      have own := all event (List.mem_append_right _ List.mem_cons_self)
      obtain @⟨was, next, isWas, moves⟩ := step
      have moved := moves.count_hooks hook
      have ran : (runs (events ++ [event])).count hook =
          (runs events).count hook + event.ran?.toList.count hook := by
        rw [runs_append, List.count_append]
        cases event <;> rfl
      have registered : (registrations (events ++ [event])).count hook =
          (registrations events).count hook + event.registered?.toList.count hook := by
        rw [registrations_append, List.count_append]
        cases event <;> rfl
      -- Only the client that takes the step has other hooks in its hands than before.
      have others : ∑ client ∈ clients.erase event.client,
            (Function.update shared.activity event.client next client).hooks.count hook =
          ∑ client ∈ clients.erase event.client, (shared.activity client).hooks.count hook := by
        apply Finset.sum_congr rfl
        intro client member
        rw [Function.update_of_ne (Finset.ne_of_mem_erase member)]
      rw [← Finset.add_sum_erase clients _ own] at before ⊢
      rw [isWas] at before
      rw [others, ran, registered]
      dsimp only
      rw [Function.update_self]
      omega

/-- When no client is in the middle of running hooks, all that were registered have been run or wait. -/
theorem Run.hooks_perm (run : Run start events shared)
    (quiet : ∀ client, (shared.activity client).hooks = []) :
    (runs events ++ shared.session.teardown.pending).Perm (registrations events) := by
  rw [List.perm_iff_count]
  intro hook
  have counted := run.count_hooks (events.map SessionEvent.client).toFinset
    (fun event member => List.mem_toFinset.mpr (List.mem_map_of_mem member)) hook
  rw [Finset.sum_eq_zero fun client _ => by rw [quiet]; rfl, Nat.add_zero] at counted
  rw [List.count_append, counted]

/-! ### Whole runs -/

/-- For each timer at most one client is told that it registered the report, and at most one report is
registered. The hooks that wait are those registered since hooks were taken for the last time. Who takes hooks
runs them all, one by one in the order of their registration, until it is done, and no other hooks are run. So
when no client is in the middle of this, every hook has been run once for each time it was registered, or
waits; and a client in the middle of it can go on. -/
theorem run_hooks (run : Run start events shared) :
    (∀ timer, (registrations events).count (.report timer) ≤ events.countP (·.wins timer) ∧
        events.countP (·.wins timer) ≤ 1) ∧
      shared.session.teardown.pending = registrations (sinceTake events) ∧
      (∀ before client after, events = before ++ .took client :: after →
        (.left client ∈ after ∧ runsOf client (untilLeft client after) =
            registrations (sinceTake before)) ∨
          (.left client ∉ after ∧ ∃ rest, shared.activity client = .leaving rest ∧
            runsOf client after ++ rest = registrations (sinceTake before))) ∧
      (∀ before client hook after, events = before ++ .ran client hook :: after →
        ∃ earlier later, before = earlier ++ .took client :: later ∧ .left client ∉ later) ∧
      shared.session.ran = runs events ∧
      ((∀ client, (shared.activity client).hooks = []) →
        (runs events ++ shared.session.teardown.pending).Perm (registrations events)) ∧
      ∀ client hooks, shared.activity client = .leaving hooks →
        ∃ last, Run shared (hooks.map (.ran client) ++ [.left client]) last := by
  refine ⟨run.reports_le, run.pending_eq, ?_, ?_, run.ran_eq, run.hooks_perm, ?_⟩
  · rintro before client after rfl
    obtain ⟨middle, next, front, step, behind⟩ := run.split
    obtain @⟨_, _, _, moves⟩ := step
    cases moves with
    | take =>
        rw [← front.pending_eq]
        exact behind.leaving (Function.update_self ..)
  · rintro before client hook after rfl
    obtain ⟨middle, next, front, step, -⟩ := run.split
    obtain @⟨_, _, was, moves⟩ := step
    cases moves with
    | run => exact front.exists_took was
  · intro client hooks leaving
    exact ⟨_, run_taken leaving⟩

/-- Two clients take hooks in turn while a third registers the report of a timer that a fourth wants to
report as well. -/
def interleaved : List SessionEvent :=
  [.claimed 0 7 true, .registered 1 (.tagged ['a']), .took 1, .registered 0 (.report 7),
    .ran 1 (.tagged ['a']), .claimed 3 7 false, .took 2, .left 1, .registered 1 (.tagged ['b']),
    .ran 2 (.report 7), .left 2]

theorem run_hooks_interleaved : ∃ shared, Run start interleaved shared ∧
    (registrations interleaved).count (.report 7) ≤ 1 ∧
      shared.session.teardown.pending = [.tagged ['b']] ∧
      shared.session.ran = [.tagged ['a'], .report 7] := by
  have first : Run start _ _ := Run.nil
    |>.step (.mk rfl (.win 0 7 rfl))
    |>.step (.mk rfl (.register 1 ['a']))
    |>.step (.mk rfl (.take 1))
    |>.step (.mk rfl (.report 0 7))
    |>.step (.mk rfl (.run 1 (.tagged ['a']) []))
    |>.step (.mk rfl (.lose 3 7 rfl))
  have run : Run start interleaved _ := first
    |>.step (.mk rfl (.take 2))
    |>.step (.mk rfl (.leave 1))
    |>.step (.mk rfl (.register 1 ['b']))
    |>.step (.mk rfl (.run 2 (.report 7) []))
    |>.step (.mk rfl (.leave 2))
  obtain ⟨reports, pending, -, -, ran, -⟩ := run_hooks run
  refine ⟨_, run, (reports 7).1.trans (reports 7).2, pending.trans ?_, ran.trans ?_⟩
  · decide
  · decide

end SharedSession

end ImportMeter
