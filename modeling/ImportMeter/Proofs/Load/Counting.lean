/-
This file proves that a load counts wholly or not at all. A request that fails leaves the timers and the
hooks as they were; a load that succeeds calls one loader once, is counted once, and has the total
reported at exit if it is the first.
-/
import Mathlib.Algebra.Ring.Nat
import Mathlib.Data.List.Basic
import ImportMeter.Load.Resolver
import ImportMeter.Proofs.Timing.Total

namespace ImportMeter

/-- A call of a loader: whether the request brought the loader, and the target it was to load. -/
structure LoaderCall where
  own : Bool
  target : Text
  deriving DecidableEq

/-- Does what a loader does and writes the call down. -/
def Loader.noting {σ : Type} (own : Bool) (loader : Loader σ) : Loader (σ × List LoaderCall) :=
  fun target state =>
    let (result, next) := loader target state.1
    (result, next, state.2 ++ [⟨own, target⟩])

/-- A module to be loaded, and the time that its loader takes. -/
structure LoadRequest (σ : Type) where
  specifier : Text
  importer : Option Text
  /-- The loader that goes before the resolver's. -/
  own : Option (Loader σ)
  nanoseconds : Nat

/-- What is asked of a resolver and of the teardown that goes with it. -/
inductive Request (σ : Type) where
  | classify (specifier : Text)
  | resolve (specifier importer : Text)
  | load (request : LoadRequest σ)
  | profileImport (request : LoadRequest σ)
  | exit

inductive Answer where
  | kind (kind : ModuleKind)
  | target (result : Except Error Target)
  | outcome (result : Except Error LoadOutcome)
  | value (result : Except Error Json)
  | done

def Answer.error? : Answer → Option Error
  | .target (.error error) | .outcome (.error error) | .value (.error error) => some error
  | _ => none

/-- A session, the state that loaders keep, and the calls of loaders so far. -/
structure Setting (σ : Type) where
  session : Session
  loaders : σ
  calls : List LoaderCall

namespace Setting

variable {σ : Type}

/-- Nothing has been timed or loaded yet. -/
def start (loaders : σ) : Setting σ := ⟨.start, loaders, []⟩

def timer (setting : Setting σ) (resolver : Resolver σ) : TotalTimer :=
  setting.session.timer resolver.timer

end Setting

/-- All hooks that were ever registered: those that have run and those that wait. -/
def Session.registered (session : Session) : List ExitHook :=
  session.ran ++ session.teardown.pending

variable {σ : Type}

/-- The same resolver with the calls of its loader written down. -/
def Resolver.noting (resolver : Resolver σ) : Resolver (σ × List LoaderCall) where
  scope := resolver.scope
  matching := resolver.matching
  packages := resolver.packages
  loader := resolver.loader.noting false
  timer := resolver.timer

namespace LoadRequest

def ownNoting (request : LoadRequest σ) : Option (Loader (σ × List LoaderCall)) :=
  request.own.map (Loader.noting true)

/-- Loads a module, with the calls of loaders written down. -/
def load (request : LoadRequest σ) (resolver : Resolver σ) (setting : Setting σ) :
    Except Error LoadOutcome × Setting σ :=
  let (result, session, loaders, calls) := resolver.noting.load request.specifier request.importer
    request.ownNoting request.nanoseconds setting.session (setting.loaders, setting.calls)
  (result, ⟨session, loaders, calls⟩)

/-- Loads a module the way an injected call does. -/
def profileImport (request : LoadRequest σ) (resolver : Resolver σ) (setting : Setting σ) :
    Except Error Json × Setting σ :=
  let (result, session, loaders, calls) := resolver.noting.profileImport request.specifier
    request.importer request.ownNoting request.nanoseconds setting.session
      (setting.loaders, setting.calls)
  (result, ⟨session, loaders, calls⟩)

end LoadRequest

namespace Request

/-- The module that a request wants loaded. -/
def loads? : Request σ → Option (LoadRequest σ)
  | .load request | .profileImport request => some request
  | _ => none

def run (resolver : Resolver σ) (setting : Setting σ) : Request σ → Answer × Setting σ
  | .classify specifier => (.kind (resolver.classify specifier), setting)
  | .resolve specifier importer => (.target (resolver.resolve specifier importer), setting)
  | .load request => Prod.map .outcome id (request.load resolver setting)
  | .profileImport request => Prod.map .value id (request.profileImport resolver setting)
  | .exit => (.done, { setting with session := setting.session.exit })

/-- Runs requests one after the other. Gives what was answered to each, and what they leave. -/
def runAll (resolver : Resolver σ) :
    Setting σ → List (Request σ) → List (Request σ × Answer) × Setting σ
  | setting, [] => ([], setting)
  | setting, request :: requests =>
    let (answer, next) := request.run resolver setting
    let (answers, last) := runAll resolver next requests
    ((request, answer) :: answers, last)

/-- The time of a load that succeeded. -/
def time? (entry : Request σ × Answer) : Option Nat :=
  match entry.1.loads?, entry.2.error? with
  | some request, none => some request.nanoseconds
  | _, _ => none

/-- The times of all loads that succeeded. -/
def times (answers : List (Request σ × Answer)) : List Nat := answers.filterMap time?

end Request

namespace Session

theorem timer_setTimer (session : Session) (index : Nat) (timer : TotalTimer) :
    (session.setTimer index timer).timer index = timer := if_pos rfl

/-- The work that waits is run once: it stays registered. -/
theorem registered_exit (session : Session) : session.exit.registered = session.registered := by
  simp [registered, exit, Teardown.take, Teardown.empty]

theorem timer_ensureReport (session : Session) (index : Nat) :
    (session.ensureReport index).2.timer index =
      { session.timer index with reportClaimed := true } := by
  rw [ensureReport, TotalTimer.claimReport]
  cases (session.timer index).reportClaimed <;> exact timer_setTimer _ _ _

/-- A report is registered only by the first claim. -/
theorem registered_ensureReport (session : Session) (index : Nat) :
    (session.ensureReport index).2.registered =
      session.registered ++
        if (session.timer index).reportClaimed then [] else [.report index] := by
  rw [ensureReport, TotalTimer.claimReport]
  cases (session.timer index).reportClaimed
  · exact (List.append_assoc _ _ _).symm
  · exact (List.append_nil _).symm

end Session

namespace Resolver

/-- Without an importer there is nothing to load. -/
theorem plan_importerMissing (resolver : Resolver σ) (specifier : Text) {importer : Option Text}
    (missing : importer.getD [] = []) :
    resolver.plan specifier importer = .error .importerMissing := by
  have nobody : importer.filter (· ≠ []) = none := by
    cases importer with
    | none => rfl
    | some importer => simp [show importer = [] from missing]
  rw [plan, nobody]

/-- With an importer the plan follows the resolution. -/
theorem plan_eq (resolver : Resolver σ) (specifier : Text) {importer : Text} (given : importer ≠ []) :
    resolver.plan specifier (some importer) =
      (resolver.resolve specifier importer).map fun target =>
        ⟨specifier, importer, resolver.classify specifier, target,
          (resolver.packageOf importer).bind Except.toOption⟩ := by
  rw [plan, Option.filter_some, if_pos (by simpa using given)]
  dsimp only
  cases resolver.resolve specifier importer <;> rfl

end Resolver

namespace LoadRequest

/-- What a load does: nothing if nothing can be planned, and else one call of one loader; only if that
gives a module, the load is counted. -/
theorem load_eq (request : LoadRequest σ) (resolver : Resolver σ) (setting : Setting σ) :
    request.load resolver setting =
      match resolver.plan request.specifier request.importer with
      | .error error => (.error error, setting)
      | .ok plan =>
        let calls := setting.calls ++ [⟨request.own.isSome, plan.target.letters⟩]
        match request.own.getD resolver.loader plan.target.letters setting.loaders with
        | (.error error, loaders) => (.error error, ⟨setting.session, loaders, calls⟩)
        | (.ok value, loaders) => (.ok (plan.outcome request.nanoseconds value),
            ⟨resolver.count request.nanoseconds setting.session, loaders, calls⟩) := by
  have samePlan : resolver.noting.plan request.specifier request.importer =
      resolver.plan request.specifier request.importer := rfl
  rw [load, Resolver.load, samePlan]
  cases resolver.plan request.specifier request.importer with
  | error error => rfl
  | ok plan =>
      have called : request.ownNoting.getD resolver.noting.loader =
          (request.own.getD resolver.loader).noting request.own.isSome := by
        rw [ownNoting]
        cases request.own <;> rfl
      simp only [called, Loader.noting]
      rcases request.own.getD resolver.loader plan.target.letters setting.loaders with
        ⟨error | value, loaders⟩ <;> rfl

/-- That the calls are written down changes nothing else. -/
theorem load_noting (request : LoadRequest σ) (resolver : Resolver σ) (setting : Setting σ) :
    resolver.load request.specifier request.importer request.own request.nanoseconds setting.session
        setting.loaders =
      ((request.load resolver setting).1, (request.load resolver setting).2.session,
        (request.load resolver setting).2.loaders) := by
  rw [load_eq, Resolver.load]
  cases resolver.plan request.specifier request.importer with
  | error error => rfl
  | ok plan =>
      dsimp only
      rcases request.own.getD resolver.loader plan.target.letters setting.loaders with
        ⟨error | value, loaders⟩ <;> rfl

theorem profileImport_eq (request : LoadRequest σ) (resolver : Resolver σ) (setting : Setting σ) :
    request.profileImport resolver setting =
      Prod.map (Except.map fun outcome => outcome.value.unwrapDefault) id
        (request.load resolver setting) := rfl

end LoadRequest

theorem Resolver.timer_count (resolver : Resolver σ) (nanoseconds : Nat) (session : Session) :
    (resolver.count nanoseconds session).timer resolver.timer =
      { (session.timer resolver.timer).add nanoseconds with reportClaimed := true } := by
  rw [count, Session.timer_ensureReport, Session.add, Session.timer_setTimer]

theorem Resolver.registered_count (resolver : Resolver σ) (nanoseconds : Nat) (session : Session) :
    (resolver.count nanoseconds session).registered =
      session.registered ++
        if (session.timer resolver.timer).reportClaimed then [] else [.report resolver.timer] := by
  rw [count, Session.registered_ensureReport, Session.add, Session.timer_setTimer]
  rfl

/-- The timer of a resolver and the hooks after loads of some times. -/
structure Counted (resolver : Resolver σ) (session : Session) (times : List Nat) : Prop where
  loads : (session.timer resolver.timer).loads.toNat = times.length % 2 ^ 64
  total : (session.timer resolver.timer).nanoseconds.toNat =
    (times.map (min · (2 ^ 64 - 1))).sum % 2 ^ 64
  claimed : (session.timer resolver.timer).reportClaimed = !times.isEmpty
  /-- The report is registered once, by the first load. -/
  registered : session.registered = if times = [] then [] else [.report resolver.timer]

namespace Counted

variable {resolver : Resolver σ} {session : Session} {times : List Nat}

theorem start (resolver : Resolver σ) : Counted resolver .start [] := ⟨rfl, rfl, rfl, rfl⟩

theorem exit (counted : Counted resolver session times) : Counted resolver session.exit times :=
  ⟨counted.loads, counted.total, counted.claimed,
    session.registered_exit.trans counted.registered⟩

/-- One more load is counted. -/
theorem count (counted : Counted resolver session times) (nanoseconds : Nat) :
    Counted resolver (resolver.count nanoseconds session) (times ++ [nanoseconds]) := by
  have timer := resolver.timer_count nanoseconds session
  refine ⟨?_, ?_, ?_, ?_⟩
  · rw [timer, TotalTimer.loads_add, counted.loads, List.length_append, List.length_singleton,
      TotalTimer.greatest_add_one, Nat.mod_add_mod]
  · rw [timer, TotalTimer.nanoseconds_add, counted.total, List.map_append, List.sum_append,
      TotalTimer.greatest_add_one, Nat.mod_add_mod]
    simp [TotalTimer.greatest_eq]
  · rw [timer]
    simp
  · rw [resolver.registered_count, counted.registered, counted.claimed]
    cases times <;> simp

end Counted

namespace Request

/-- The two ways to ask for a load differ only in what they answer. -/
theorem run_of_loads? {request : Request σ} {load : LoadRequest σ} (wanted : request.loads? = some load)
    (resolver : Resolver σ) (setting : Setting σ) :
    (request.run resolver setting).2 = (load.load resolver setting).2 ∧
      (request.run resolver setting).1.error? =
        match (load.load resolver setting).1 with
        | .error error => some error
        | .ok _ => none := by
  cases request with
  | classify specifier => cases wanted
  | resolve specifier importer => cases wanted
  | exit => cases wanted
  | load _ =>
      cases wanted
      rw [run]
      rcases load.load resolver setting with ⟨error | outcome, next⟩ <;> exact ⟨rfl, rfl⟩
  | profileImport _ =>
      cases wanted
      rw [run, LoadRequest.profileImport_eq]
      rcases load.load resolver setting with ⟨error | outcome, next⟩ <;> exact ⟨rfl, rfl⟩

/-- What else is asked calls no loader and counts nothing. -/
theorem run_of_loads?_none {request : Request σ} (other : request.loads? = none)
    (resolver : Resolver σ) (setting : Setting σ) :
    (request.run resolver setting).2.calls = setting.calls ∧
      ((request.run resolver setting).2.session = setting.session ∨
        (request.run resolver setting).1.error? = none ∧
          (request.run resolver setting).2.session = setting.session.exit) := by
  cases request with
  | classify specifier => exact ⟨rfl, .inl rfl⟩
  | resolve specifier importer => exact ⟨rfl, .inl rfl⟩
  | exit => exact ⟨rfl, .inr ⟨rfl, rfl⟩⟩
  | load request => cases other
  | profileImport request => cases other

/-- The session after a load. -/
theorem session_load (load : LoadRequest σ) (resolver : Resolver σ) (setting : Setting σ) :
    (load.load resolver setting).2.session =
      match (load.load resolver setting).1 with
      | .error _ => setting.session
      | .ok _ => resolver.count load.nanoseconds setting.session := by
  rw [load.load_eq]
  cases resolver.plan load.specifier load.importer with
  | error error => rfl
  | ok plan =>
      dsimp only
      rcases load.own.getD resolver.loader plan.target.letters setting.loaders with
        ⟨error | value, loaders⟩ <;> rfl

/-- A request counts one load if it is a load that succeeds, and nothing otherwise. -/
theorem counted_run {resolver : Resolver σ} {setting : Setting σ} {times : List Nat}
    (counted : Counted resolver setting.session times) (request : Request σ) :
    Counted resolver (request.run resolver setting).2.session
      (times ++ (time? (request, (request.run resolver setting).1)).toList) := by
  cases wanted : request.loads? with
  | none =>
      have untimed : time? (request, (request.run resolver setting).1) = none := by
        rw [time?]
        simp only [wanted]
      rw [untimed, Option.toList_none, List.append_nil]
      rcases (run_of_loads?_none wanted resolver setting).2 with same | ⟨_, exited⟩
      · rw [same]
        exact counted
      · rw [exited]
        exact counted.exit
  | some load =>
      obtain ⟨next, error⟩ := run_of_loads? wanted resolver setting
      rw [next, session_load, time?]
      simp only [wanted, error]
      cases (load.load resolver setting).1 with
      | error error => simpa using counted
      | ok outcome => exact counted.count load.nanoseconds

theorem times_cons (entry : Request σ × Answer) (answers : List (Request σ × Answer)) :
    times (entry :: answers) = (time? entry).toList ++ times answers := by
  rw [times, List.filterMap_cons]
  cases time? entry <;> rfl

theorem counted_runAll {resolver : Resolver σ} {setting : Setting σ} {counted : List Nat}
    (before : Counted resolver setting.session counted) (requests : List (Request σ)) :
    Counted resolver (runAll resolver setting requests).2.session
      (counted ++ times (runAll resolver setting requests).1) := by
  induction requests generalizing setting counted with
  | nil => simpa [runAll, times] using before
  | cons request requests inductionHypothesis =>
      have rest := inductionHypothesis (counted_run before request)
      rw [List.append_assoc] at rest
      rw [runAll, times_cons]
      exact rest

/-- A request that fails leaves the session as it was. -/
theorem session_of_error {resolver : Resolver σ} {setting : Setting σ} {request : Request σ}
    (failed : (request.run resolver setting).1.error?.isSome = true) :
    (request.run resolver setting).2.session = setting.session := by
  cases wanted : request.loads? with
  | none =>
      rcases (run_of_loads?_none wanted resolver setting).2 with same | ⟨succeeded, _⟩
      · exact same
      · rw [succeeded] at failed
        cases failed
  | some load =>
      obtain ⟨next, error⟩ := run_of_loads? wanted resolver setting
      rw [next, session_load]
      rw [error] at failed
      cases result : (load.load resolver setting).1 with
      | error error => rfl
      | ok outcome =>
          rw [result] at failed
          cases failed

/-- A profiled load is all or nothing. After any requests the timer has counted the loads that succeeded,
and its report was registered once, by the first of them. A request that fails leaves all this as it was,
and it calls no loader unless its specifier leads somewhere. A load whose specifier does calls one loader
once, the one that it brings if it brings one, and is counted if that gives a module. -/
theorem counts_all_or_nothing (resolver : Resolver σ) (loaders : σ) (requests : List (Request σ))
    (request : Request σ) :
    let before := runAll resolver (.start loaders) requests
    let setting := before.2
    let answer := (request.run resolver setting).1
    let next := (request.run resolver setting).2
    Counted resolver setting.session (times before.1) ∧
      (answer.error?.isSome = true → next.session = setting.session) ∧
      (request.loads? = none → next.calls = setting.calls) ∧
      ∀ load, request.loads? = some load →
        (load.importer.getD [] = [] → answer.error? = some .importerMissing ∧ next = setting) ∧
        ∀ importer, load.importer = some importer → importer ≠ [] →
          match resolver.resolve load.specifier importer with
          | .error error => answer.error? = some error ∧ next = setting
          | .ok target =>
            next.calls = setting.calls ++ [⟨load.own.isSome, target.letters⟩] ∧
              match load.own.getD resolver.loader target.letters setting.loaders with
              | (.error error, kept) => answer.error? = some error ∧ next.loaders = kept
              | (.ok _, kept) => answer.error? = none ∧ next.loaders = kept ∧
                (next.timer resolver).loads.toNat =
                  ((setting.timer resolver).loads.toNat + 1) % 2 ^ 64 ∧
                (next.timer resolver).nanoseconds.toNat =
                  ((setting.timer resolver).nanoseconds.toNat +
                    min load.nanoseconds (2 ^ 64 - 1)) % 2 ^ 64 ∧
                Counted resolver next.session (times before.1 ++ [load.nanoseconds]) := by
  intro before setting answer next
  have fresh : Counted resolver (Setting.start loaders).session [] := Counted.start resolver
  have counted : Counted resolver setting.session (times before.1) := counted_runAll fresh requests
  refine ⟨counted, session_of_error, fun other => (run_of_loads?_none other resolver setting).1,
    fun load wanted => ?_⟩
  obtain ⟨sameNext, sameError⟩ := run_of_loads? wanted resolver setting
  have isLoad := load.load_eq resolver setting
  refine ⟨fun missing => ?_, fun importer given nonempty => ?_⟩
  · rw [resolver.plan_importerMissing load.specifier missing] at isLoad
    rw [isLoad] at sameNext sameError
    exact ⟨sameError, sameNext⟩
  · rw [given, resolver.plan_eq load.specifier nonempty] at isLoad
    cases resolved : resolver.resolve load.specifier importer with
    | error error =>
        rw [resolved] at isLoad
        rw [isLoad] at sameNext sameError
        exact ⟨sameError, sameNext⟩
    | ok target =>
        simp only [resolved, Except.map] at isLoad
        dsimp only
        rcases called : load.own.getD resolver.loader target.letters setting.loaders with
          ⟨error | value, kept⟩
        · simp only [called] at isLoad
          rw [isLoad] at sameNext sameError
          exact ⟨congrArg Setting.calls sameNext, sameError, congrArg Setting.loaders sameNext⟩
        · simp only [called] at isLoad
          rw [isLoad] at sameNext sameError
          have session : next.session = resolver.count load.nanoseconds setting.session :=
            congrArg Setting.session sameNext
          have timer := resolver.timer_count load.nanoseconds setting.session
          refine ⟨congrArg Setting.calls sameNext, sameError, congrArg Setting.loaders sameNext,
            ?_, ?_, ?_⟩
          · rw [Setting.timer, session, timer]
            exact (setting.timer resolver).loads_add load.nanoseconds
          · rw [Setting.timer, session, timer]
            exact (setting.timer resolver).nanoseconds_add load.nanoseconds
          · rw [session]
            exact counted.count load.nanoseconds

/-- A resolver that loads from a table, with no package known. -/
def tableResolver : Resolver Unit :=
  ⟨[], .exact, .fixed none none, .ofTable [("m".toList, .null)], 0⟩

/-- A load that fails, one that succeeds, the end of the session, and a load with a loader of its own. -/
theorem counts_all_or_nothing_ownLoader :
    let failing : LoadRequest Unit := ⟨"n".toList, some "/f".toList, none, 3⟩
    let first : LoadRequest Unit := ⟨"m".toList, some "/f".toList, none, 5⟩
    let second : LoadRequest Unit :=
      ⟨"n".toList, some "/f".toList, some (.ofTable [("n".toList, .null)]), 7⟩
    let setting := (runAll tableResolver (.start ()) [.load failing, .load first, .exit]).2
    Counted tableResolver setting.session [5] ∧
      ((Request.load second).run tableResolver setting).2.calls =
        setting.calls ++ [⟨true, "n".toList⟩] ∧
      Counted tableResolver ((Request.load second).run tableResolver setting).2.session [5, 7] := by
  intro failing first second setting
  obtain ⟨counted, _, _, each⟩ := counts_all_or_nothing tableResolver ()
    [.load failing, .load first, .exit] (.load second)
  obtain ⟨_, loads⟩ := each second rfl
  obtain ⟨calls, _, _, _, _, next⟩ := loads "/f".toList rfl (by decide)
  exact ⟨counted, calls, next⟩

end Request

end ImportMeter
