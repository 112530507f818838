/-
This file proves what an accepted configuration is good for: what injection writes with it, removal finds
again, provided that the entry name is a name and that the written calls are read as calls.
-/
import ImportMeter.Proofs.Instrument.Recognition
import ImportMeter.Configuration

namespace ImportMeter.Instrument

open Script

variable {source : Text} {statements : List Tree} {directory : Path}
  {instrumentation : Instrumentation}

/-- Removal finds every call that injection wrote behind a declaration of its own. -/
theorem rewritten_injected (isName : IsName instrumentation.entryName)
    (plain : IsPlainText (instrumentation.modulePath.importSpecifier directory))
    (resolves : (directory.join ⟨instrumentation.modulePath.importSpecifier directory⟩).normalize =
      instrumentation.modulePath.normalize)
    (parsed : parse? source = some (.node none .program statements))
    (systemLine : SystemLineLeads statements)
    (bound : findBinding? (.node none .program statements) directory instrumentation.modulePath = none)
    (unmarked : (Script.Tree.node none .program statements).markedCount [instrumentation.entryName]
      instrumentation.marker = 0)
    (reads : parse? (Tree.textOfAll (callsWrapped instrumentation statements)) =
      some (.node none .program (callsWrapped instrumentation statements))) :
    let outcome := injectTree source (.node none .program statements) directory instrumentation
    ∃ again, parse? (outcome.textOr source) = some again ∧
      (removeTree (outcome.textOr source) again directory instrumentation).rewritten =
        outcome.rewritten := by
  intro outcome
  obtain ⟨same, wellFormed, _⟩ := parse?_sound parsed
  obtain ⟨front, leading, _, _, readsAgain⟩ := parse?_injectedCalls isName.isIdentifier plain parsed
    systemLine bound (callsReadBack_none.mpr reads)
  refine ⟨_, readsAgain, ?_⟩
  obtain ⟨_, againWellFormed, _⟩ := parse?_sound readsAgain
  obtain ⟨_, _, _, _, rewritten, _⟩ :=
    injectTree_spec directory instrumentation wellFormed same bound localNames_none rfl
  have unmarkedAmong := unmarked_behind leading
    (fun tree member => againWellFormed.children tree (List.mem_append_left _ member)) unmarked
  rw [removeTree_rewritten, localNames_declarationOf _ leading resolves,
    markedCount_injectedCalls _ wellFormed.children unmarkedAmong]
  exact rewritten.symm

end ImportMeter.Instrument

namespace ImportMeter.Configuration

open Script Instrument

/-- An accepted configuration is the one that its text spells, and its settings are not empty. -/
theorem read_eq_ok {text : Text} {configuration : Configuration}
    (accepted : read text = .ok configuration) :
    ofText? text = some configuration ∧ configuration.entryName ≠ [] ∧ configuration.marker ≠ [] ∧
      configuration.extensions ≠ [] := by
  rw [read] at accepted
  split at accepted
  next spelled found =>
    rw [check] at accepted
    split at accepted
    next => cases accepted
    next named =>
      split at accepted
      next => cases accepted
      next marked =>
        split at accepted
        next => cases accepted
        next extended =>
          cases accepted
          exact ⟨found, named, marked, extended⟩
  next => cases accepted

/-- Seen from an absolute directory, the module of the entry point has an absolute path. -/
theorem isAbsolute_instrumentation (configuration : Configuration) {workingDirectory : Path}
    (absolute : workingDirectory.isAbsolute = true) :
    (configuration.instrumentation workingDirectory).modulePath.isAbsolute = true :=
  Path.isAbsolute_absolutize _ absolute

/-- An accepted configuration has an absolute module path and neither an empty name nor an empty marker. If
the name is a name, and the calls in a script without the entry point are read as calls once they are written
with it, then what injection writes is a script and removal finds in it every call that injection wrote. -/
theorem read_instruments {text source : Text} {configuration : Configuration}
    (accepted : read text = .ok configuration) (workingDirectory file : Path)
    (absolute : workingDirectory.isAbsolute = true) {tree : Tree}
    (parsed : parse? source = some tree) :
    let instrumentation := configuration.instrumentation workingDirectory
    let directory := directoryOf workingDirectory file
    let wrapped := callsWrapped instrumentation tree.children
    instrumentation.modulePath.isAbsolute = true ∧ instrumentation.entryName ≠ [] ∧
      instrumentation.marker ≠ [] ∧
      ∃ outcome, inject? workingDirectory source file instrumentation = some outcome ∧
        (findBinding? tree directory instrumentation.modulePath = none →
          tree.markedCount [instrumentation.entryName] instrumentation.marker = 0 →
          IsName instrumentation.entryName →
          IsPlainText (instrumentation.modulePath.importSpecifier directory) →
          SystemLineLeads tree.children →
          parse? (Tree.textOfAll wrapped) = some (.node none .program wrapped) →
          outcome.importAdded = true ∧
            outcome.rewritten = (fates [instrumentation.entryName] .plain tree).count .rewritten ∧
            ∃ again removed, parse? (outcome.textOr source) = some again ∧
              remove? workingDirectory (outcome.textOr source) file instrumentation = some removed ∧
              removed.rewritten = outcome.rewritten) := by
  intro instrumentation directory wrapped
  obtain ⟨_, named, marked, _⟩ := read_eq_ok accepted
  have moduleAbsolute := isAbsolute_instrumentation configuration absolute
  obtain ⟨same, wellFormed, statements, rfl⟩ := parse?_sound parsed
  refine ⟨moduleAbsolute, named, marked,
    injectTree source (.node none .program statements) directory instrumentation,
    by rw [inject?, injectBy?, parsed, Option.map_some], ?_⟩
  intro bound unmarked isName plain systemLine reads
  obtain ⟨_, added, _, _, rewritten, _⟩ :=
    injectTree_spec directory instrumentation wellFormed same bound localNames_none rfl
  have resolves := Path.normalize_join_importSpecifier (isAbsolute_directoryOf file absolute)
    moduleAbsolute
  obtain ⟨again, readsAgain, sameCount⟩ :=
    rewritten_injected isName plain resolves parsed systemLine bound unmarked reads
  exact ⟨added, rewritten, again, _, readsAgain,
    by rw [remove?, removeBy?, readsAgain, Option.map_some], sameCount⟩

/-- A configuration with a short name and a short marker. -/
def smallSettings : Text :=
  "[instrumentation]\nentry_module=\"/p\"\nentry_name=\"p\"\nmarker=\"m\"".toList

theorem read_instruments_smallSettings :
    ∃ configuration outcome again removed, read smallSettings = .ok configuration ∧
      inject? ⟨['/']⟩ "import('a')".toList ⟨"/f".toList⟩ (configuration.instrumentation ⟨['/']⟩) =
        some outcome ∧ outcome.rewritten = 1 ∧
      parse? (outcome.textOr "import('a')".toList) = some again ∧
      remove? ⟨['/']⟩ (outcome.textOr "import('a')".toList) ⟨"/f".toList⟩
        (configuration.instrumentation ⟨['/']⟩) = some removed ∧ removed.rewritten = 1 := by
  have checked : (match read smallSettings with
      | .ok configuration =>
        (parse? "import('a')".toList).any fun tree =>
          let instrumentation := configuration.instrumentation ⟨['/']⟩
          let directory := directoryOf ⟨['/']⟩ ⟨"/f".toList⟩
          let wrapped := callsWrapped instrumentation tree.children
          Decidable.decide (instrumentation.entryName = "p".toList) &&
            Decidable.decide (instrumentation.modulePath.importSpecifier directory = "./p".toList) &&
            (findBinding? tree directory instrumentation.modulePath).isNone &&
            Decidable.decide (tree.markedCount ["p".toList] instrumentation.marker = 0) &&
            Decidable.decide ((fates ["p".toList] .plain tree).count .rewritten = 1) &&
            Decidable.decide (SystemLineLeads tree.children) &&
            Decidable.decide (parse? (Tree.textOfAll wrapped) = some (.node none .program wrapped))
      | .error _ => false) = true := by
    decide +kernel
  have isName : IsName "p".toList :=
    ⟨⟨'p', [], rfl, by decide⟩, List.all_eq_true.mp (by decide)⟩
  have plain : IsPlainText "./p".toList := by decide
  split at checked
  next configuration accepted =>
    obtain ⟨tree, parsed, checked⟩ := (Option.any_eq_true _ _).mp checked
    simp only [Bool.and_eq_true, decide_eq_true_eq, Option.isNone_iff_eq_none] at checked
    obtain ⟨⟨⟨⟨⟨⟨named, specifier⟩, bound⟩, unmarked⟩, once⟩, systemLine⟩, reads⟩ := checked
    obtain ⟨_, _, _, outcome, injected, instruments⟩ :=
      read_instruments accepted ⟨['/']⟩ ⟨"/f".toList⟩ rfl parsed
    obtain ⟨_, rewritten, again, removed, readsAgain, isRemoved, sameCount⟩ :=
      instruments bound (by rw [named]; exact unmarked) (by rw [named]; exact isName)
        (by rw [specifier]; exact plain) systemLine reads
    rw [named, once] at rewritten
    exact ⟨configuration, outcome, again, removed, accepted, injected, rewritten, readsAgain, isRemoved,
      sameCount.trans rewritten⟩
  next => cases checked

/-- A configuration with a quote in the marker. -/
def quoteInMarker : Text := "[instrumentation]\nmarker=\"it's\"".toList

/-- Such a configuration is accepted, though the quote ends the literal of the marker in the calls that are
written. -/
theorem read_instruments_quoteInMarker :
    ∃ configuration outcome, read quoteInMarker = .ok configuration ∧
      inject? ⟨['/']⟩ "import('a')".toList ⟨"/f".toList⟩ (configuration.instrumentation ⟨['/']⟩) =
        some outcome ∧ outcome.rewritten = 1 ∧
      parse? (outcome.textOr "import('a')".toList) = none := by
  have checked : (match read quoteInMarker with
      | .ok configuration =>
        (inject? ⟨['/']⟩ "import('a')".toList ⟨"/f".toList⟩
          (configuration.instrumentation ⟨['/']⟩)).any fun outcome =>
            Decidable.decide (outcome.rewritten = 1 ∧
              parse? (outcome.textOr "import('a')".toList) = none)
      | .error _ => false) = true := by
    decide +kernel
  split at checked
  next configuration accepted =>
    obtain ⟨outcome, injected, fails⟩ := (Option.any_eq_true _ _).mp checked
    exact ⟨configuration, outcome, accepted, injected, of_decide_eq_true fails⟩
  next => cases checked

end ImportMeter.Configuration
