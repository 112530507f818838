/-
This file compares the timer of one caller with the loads that it was told of. Its records are a map that
keeps the names in the order in which they first came, with the latest time of each.
-/
import Mathlib.Data.List.Induction
import Mathlib.Data.List.Nodup
import ImportMeter.Timing.LoadTimer

namespace ImportMeter

/-- What is asked of the timer of one caller. -/
inductive TimerCall where
  | track (moduleName : Text) (milliseconds : Float)
  | summarize (elapsed : Nat)
  | get (moduleName : Text)

namespace TimerCall

/-- The load that a call tells of. -/
def load? : TimerCall → Option LoadRecord
  | track moduleName milliseconds => some ⟨moduleName, milliseconds⟩
  | _ => none

/-- The loads that calls tell of, the earliest first. -/
def loads (calls : List TimerCall) : List LoadRecord := calls.filterMap load?

end TimerCall

namespace LoadRecord

/-- The names of modules, each where it came first. -/
def names (loads : List LoadRecord) : List Text := (loads.map moduleName).eraseDups

/-- True for the last of the loads of a module. -/
def IsLatest (loads : List LoadRecord) (record : LoadRecord) : Prop :=
  ∃ earlier later, loads = earlier ++ record :: later ∧
    ∀ load ∈ later, load.moduleName ≠ record.moduleName

variable {loads : List LoadRecord} {load record : LoadRecord}

theorem mem_names {name : Text} : name ∈ names loads ↔ name ∈ loads.map moduleName :=
  List.mem_eraseDups

/-- Another load adds a name at the end, unless the name has come before. -/
theorem names_concat (loads : List LoadRecord) (load : LoadRecord) :
    names (loads ++ [load]) =
      if load.moduleName ∈ names loads then names loads else names loads ++ [load.moduleName] := by
  have split : names (loads ++ [load]) =
      names loads ++ ([load.moduleName].removeAll (loads.map moduleName)).eraseDups := by
    rw [names, List.map_append, List.eraseDups_append]
    rfl
  by_cases known : load.moduleName ∈ names loads
  · have isKnown := List.elem_eq_true_of_mem (mem_names.mp known)
    rw [if_pos known, split, List.removeAll, List.filter_cons, isKnown]
    exact List.append_nil _
  · have isNew : (loads.map moduleName).elem load.moduleName = false :=
      Bool.eq_false_iff.mpr fun isKnown => known (mem_names.mpr (List.mem_of_elem_eq_true isKnown))
    rw [if_neg known, split, List.removeAll, List.filter_cons, isNew]
    rfl

theorem nodup_names (loads : List LoadRecord) : (names loads).Nodup := by
  induction loads using List.reverseRecOn with
  | nil => exact List.nodup_nil
  | append_singleton loads load inductionHypothesis =>
      rw [names_concat]
      split
      next => exact inductionHypothesis
      next unknown =>
        rw [← List.concat_eq_append]
        exact inductionHypothesis.concat unknown

/-- Another load is the latest of its module and leaves the latest of the others. -/
theorem isLatest_concat : IsLatest (loads ++ [load]) record ↔
    record = load ∨ (IsLatest loads record ∧ record.moduleName ≠ load.moduleName) := by
  constructor
  · rintro ⟨earlier, later, split, others⟩
    rcases List.eq_nil_or_concat later with rfl | ⟨between, last, rfl⟩
    · exact .inl (List.singleton_inj.mp (List.append_inj_right' split rfl)).symm
    · rw [List.concat_eq_append, ← List.cons_append, ← List.append_assoc] at split
      rw [List.concat_eq_append] at others
      obtain ⟨rfl, same⟩ := List.append_inj' split rfl
      obtain rfl := List.singleton_inj.mp same
      refine .inr ⟨⟨earlier, between, rfl, fun next member => ?_⟩, ?_⟩
      · exact others next (List.mem_append_left _ member)
      · exact (others load (List.mem_append_right _ List.mem_cons_self)).symm
  · rintro (rfl | ⟨⟨earlier, later, rfl, others⟩, other⟩)
    · exact ⟨loads, [], rfl, fun _ member => absurd member List.not_mem_nil⟩
    · refine ⟨earlier, later ++ [load], by simp, fun next member => ?_⟩
      rcases List.mem_append.mp member with inLater | isLoad
      · exact others next inLater
      · exact List.mem_singleton.mp isLoad ▸ other.symm

end LoadRecord

namespace LoadTimer

variable {records : List LoadRecord} {record other : LoadRecord}

theorem map_moduleName_replace (record : LoadRecord) (records : List LoadRecord) :
    (replace record records).map LoadRecord.moduleName =
      if record.moduleName ∈ records.map LoadRecord.moduleName then records.map LoadRecord.moduleName
      else records.map LoadRecord.moduleName ++ [record.moduleName] := by
  induction records with
  | nil => rfl
  | cons head rest inductionHypothesis =>
      by_cases same : head.moduleName = record.moduleName
      · rw [replace, if_pos same, List.map_cons, List.map_cons, same, if_pos List.mem_cons_self]
      · rw [replace, if_neg same, List.map_cons, List.map_cons, inductionHypothesis]
        by_cases known : record.moduleName ∈ rest.map LoadRecord.moduleName
        · rw [if_pos known, if_pos (List.mem_cons_of_mem _ known)]
        · rw [if_neg known, if_neg, List.cons_append]
          exact fun member => (List.mem_cons.mp member).elim (fun isHead => same isHead.symm) known

/-- Where no name is repeated, a record takes the place of all others with its name. -/
theorem mem_replace (unique : (records.map LoadRecord.moduleName).Nodup) :
    other ∈ replace record records ↔
      other = record ∨ (other ∈ records ∧ other.moduleName ≠ record.moduleName) := by
  induction records with
  | nil => simp [replace]
  | cons head rest inductionHypothesis =>
      obtain ⟨notInRest, uniqueRest⟩ := List.nodup_cons.mp unique
      rw [replace]
      split
      next same =>
        have differs : ∀ other ∈ rest, other.moduleName ≠ record.moduleName :=
          fun other member isName => notInRest (same ▸ isName ▸ List.mem_map_of_mem member)
        rw [List.mem_cons, List.mem_cons]
        constructor
        · rintro (isRecord | inRest)
          · exact .inl isRecord
          · exact .inr ⟨.inr inRest, differs other inRest⟩
        · rintro (isRecord | ⟨rfl | inRest, differ⟩)
          · exact .inl isRecord
          · exact absurd same differ
          · exact .inr inRest
      next differ =>
        rw [List.mem_cons, List.mem_cons, inductionHypothesis uniqueRest]
        constructor
        · rintro (rfl | isRecord | ⟨inRest, differs⟩)
          · exact .inr ⟨.inl rfl, differ⟩
          · exact .inl isRecord
          · exact .inr ⟨.inr inRest, differs⟩
        · rintro (isRecord | ⟨rfl | inRest, differs⟩)
          · exact .inr (.inl isRecord)
          · exact .inl rfl
          · exact .inr (.inr ⟨inRest, differs⟩)

/-- Where no name is repeated, the record that is found is the one with the name. -/
theorem find?_eq_some_iff (unique : (records.map LoadRecord.moduleName).Nodup) {moduleName : Text} :
    (records.find? fun record => record.moduleName = moduleName) = some record ↔
      record ∈ records ∧ record.moduleName = moduleName := by
  constructor
  · intro found
    have isName := List.find?_some found
    exact ⟨List.mem_of_find?_eq_some found, of_decide_eq_true isName⟩
  · rintro ⟨member, rfl⟩
    have isFound : (records.find? fun other => other.moduleName = record.moduleName).isSome = true :=
      List.find?_isSome.mpr ⟨record, member, decide_eq_true rfl⟩
    obtain ⟨other, found⟩ := Option.isSome_iff_exists.mp isFound
    have sameName := List.find?_some found
    have same := List.inj_on_of_nodup_map unique (List.mem_of_find?_eq_some found) member
      (of_decide_eq_true sameName)
    rw [found, same]

/-- What a call leaves of a timer. -/
def call (timer : LoadTimer) : TimerCall → LoadTimer
  | .track moduleName milliseconds => timer.track moduleName milliseconds
  | .summarize elapsed => (timer.summarize elapsed).2
  | .get _ => timer

/-- True for a timer that keeps the latest of some loads of each module. -/
structure Keeps (timer : LoadTimer) (loads : List LoadRecord) : Prop where
  names : timer.records.map LoadRecord.moduleName = LoadRecord.names loads
  records : ∀ record, record ∈ timer.records ↔ LoadRecord.IsLatest loads record
  last : timer.last = loads.getLast?

variable {timer : LoadTimer} {loads : List LoadRecord}

theorem summarize_snd (timer : LoadTimer) (elapsed : Nat) :
    (timer.summarize elapsed).2 =
      { timer with total := if timer.last.isSome then elapsed else timer.total } := by
  rcases timer with ⟨caller, package, records, last, total⟩
  cases last <;> rfl

theorem summarize_fst (timer : LoadTimer) (elapsed : Nat) :
    (timer.summarize elapsed).1 = timer.summary? := by
  rw [summarize]
  cases timer.summary? <;> rfl

namespace Keeps

theorem nodup (keeps : timer.Keeps loads) : (timer.records.map LoadRecord.moduleName).Nodup :=
  keeps.names ▸ LoadRecord.nodup_names loads

theorem start (caller : Text) (package : Option Text) : (start caller package).Keeps [] where
  names := rfl
  records record := by
    refine iff_of_false List.not_mem_nil ?_
    rintro ⟨earlier, later, split, _⟩
    exact List.append_ne_nil_of_right_ne_nil _ (List.cons_ne_nil _ _) split.symm
  last := rfl

theorem track (keeps : timer.Keeps loads) (load : LoadRecord) :
    (timer.track load.moduleName load.milliseconds).Keeps (loads ++ [load]) where
  names := by
    rw [LoadTimer.track, map_moduleName_replace, LoadRecord.names_concat, keeps.names]
  records record := by
    rw [LoadTimer.track, mem_replace keeps.nodup, LoadRecord.isLatest_concat, keeps.records]
  last := by
    rw [LoadTimer.track, List.getLast?_concat]

/-- A call that tells of a load adds it, and the other calls leave what is kept. -/
theorem call (keeps : timer.Keeps loads) (call : TimerCall) :
    (timer.call call).Keeps (loads ++ call.load?.toList) := by
  cases call with
  | track moduleName milliseconds => exact keeps.track ⟨moduleName, milliseconds⟩
  | summarize elapsed =>
      rw [show (TimerCall.summarize elapsed).load?.toList = [] from rfl, List.append_nil,
        LoadTimer.call, summarize_snd]
      exact ⟨keeps.names, keeps.records, keeps.last⟩
  | get moduleName =>
      rw [show (TimerCall.get moduleName).load?.toList = [] from rfl, List.append_nil]
      exact keeps

theorem foldl_call (keeps : timer.Keeps loads) (calls : List TimerCall) :
    (calls.foldl LoadTimer.call timer).Keeps (loads ++ TimerCall.loads calls) := by
  induction calls generalizing timer loads with
  | nil => rwa [TimerCall.loads, List.filterMap_nil, List.append_nil]
  | cons first calls inductionHypothesis =>
      have others := inductionHypothesis (keeps.call first)
      have split : TimerCall.loads (first :: calls) =
          first.load?.toList ++ TimerCall.loads calls := by
        rw [TimerCall.loads, List.filterMap_cons]
        cases first.load? <;> rfl
      rwa [List.foldl_cons, split, ← List.append_assoc]

theorem get?_eq_some_iff (keeps : timer.Keeps loads) {moduleName : Text} {milliseconds : Float} :
    timer.get? moduleName = some milliseconds ↔
      LoadRecord.IsLatest loads ⟨moduleName, milliseconds⟩ := by
  rw [← keeps.records, get?, Option.map_eq_some_iff]
  constructor
  · rintro ⟨⟨name, time⟩, found, rfl⟩
    obtain ⟨member, rfl⟩ := (find?_eq_some_iff keeps.nodup).mp found
    exact member
  · intro member
    exact ⟨_, (find?_eq_some_iff keeps.nodup).mpr ⟨member, rfl⟩, rfl⟩

theorem get?_eq_none_iff (keeps : timer.Keeps loads) {moduleName : Text} :
    timer.get? moduleName = none ↔ moduleName ∉ loads.map LoadRecord.moduleName := by
  rw [← LoadRecord.mem_names, ← keeps.names, get?, Option.map_eq_none_iff, List.find?_eq_none]
  constructor
  · rintro differs member
    obtain ⟨record, isRecord, rfl⟩ := List.mem_map.mp member
    exact differs record isRecord (decide_eq_true rfl)
  · intro unknown record isRecord same
    exact unknown (of_decide_eq_true same ▸ List.mem_map_of_mem isRecord)

end Keeps

/-- Whatever was asked of a timer, its records have the names of the modules in the order in which they
were first timed, each once, and hold the latest time of each, which is what a look-up finds. The last load
stands beside them. A summary reports it, and changes nothing but the time of the report. -/
theorem records_of_calls (caller : Text) (package : Option Text) (calls : List TimerCall) :
    let timer := calls.foldl call (start caller package)
    let loads := TimerCall.loads calls
    (timer.records.map LoadRecord.moduleName).Nodup ∧
      timer.records.map LoadRecord.moduleName = (loads.map LoadRecord.moduleName).eraseDups ∧
      (∀ record, record ∈ timer.records ↔ LoadRecord.IsLatest loads record) ∧
      (∀ moduleName milliseconds, timer.get? moduleName = some milliseconds ↔
        LoadRecord.IsLatest loads ⟨moduleName, milliseconds⟩) ∧
      (∀ moduleName, timer.get? moduleName = none ↔ moduleName ∉ loads.map LoadRecord.moduleName) ∧
      timer.last = loads.getLast? ∧
      ∀ elapsed, (timer.summarize elapsed).1 = loads.getLast?.map LoadRecord.line ∧
        ((timer.summarize elapsed).1 = none ↔ loads = []) ∧
        (timer.summarize elapsed).2 =
          { timer with total := if loads = [] then timer.total else elapsed } := by
  intro timer loads
  have keeps : timer.Keeps loads := (Keeps.start caller package).foldl_call calls
  refine ⟨keeps.nodup, keeps.names, keeps.records, fun _ _ => keeps.get?_eq_some_iff,
    fun _ => keeps.get?_eq_none_iff, keeps.last, fun elapsed => ?_⟩
  have line : (timer.summarize elapsed).1 = loads.getLast?.map LoadRecord.line := by
    rw [summarize_fst, summary?, keeps.last]
  refine ⟨line, ?_, ?_⟩
  · rw [line, Option.map_eq_none_iff, List.getLast?_eq_none_iff]
  · rw [summarize_snd, keeps.last]
    by_cases nothing : loads = []
    · rw [if_pos nothing, nothing]
      rfl
    · rw [if_neg nothing, if_pos (List.getLast?_isSome.mpr nothing)]

end LoadTimer

end ImportMeter
