/-
This file compares the three ways to run over files: writing them, finding out what would be written, and
printing it.
-/
import ImportMeter.Proofs.Run.Confinement

namespace ImportMeter

namespace RunOptions

variable {options : RunOptions} {instrumentation : Instrumentation} {tree now after : FileTree}
  {path : Path} {files : List Path} {source text : Text} {outcome : Outcome}

/-- The report on a file whose change comes to what its present text says. -/
def predicted (options : RunOptions) (instrumentation : Instrumentation) (tree : FileTree)
    (path : Path) : FileReport :=
  ⟨path, (options.transform instrumentation tree path).map Prod.snd⟩

/-- What can be read under a path once the file is changed. -/
def predictedText (options : RunOptions) (instrumentation : Instrumentation) (tree : FileTree)
    (path : Path) : Except FileFault Text :=
  match options.transform instrumentation tree path with
  | .ok (source, outcome) => .ok (outcome.textOr source)
  | .error _ => tree.readText path

/-- True if the text of a file does not change. -/
def LeavesAlone (options : RunOptions) (instrumentation : Instrumentation) (tree : FileTree)
    (path : Path) : Prop :=
  ∀ source outcome, options.transform instrumentation tree path = .ok (source, outcome) →
    outcome.text = none

/-- True if no file that changes is visited twice, be it under two paths. -/
def ChangesOnce (options : RunOptions) (instrumentation : Instrumentation) (tree : FileTree)
    (files : List Path) : Prop :=
  files.Pairwise fun path other => tree.location? other = tree.location? path →
    options.LeavesAlone instrumentation tree path ∧ options.LeavesAlone instrumentation tree other

/-- True if each text that a run wants to write can be written. -/
def CanWrite (options : RunOptions) (instrumentation : Instrumentation) (tree : FileTree)
    (files : List Path) : Prop :=
  ∀ path ∈ files, ∀ source outcome text,
    options.transform instrumentation tree path = .ok (source, outcome) → outcome.text = some text →
      (tree.writeText path text).isOk = true

theorem changed?_predicted (alone : options.LeavesAlone instrumentation tree path) :
    (options.predicted instrumentation tree path).changed? = none := by
  rw [predicted]
  cases transformed : options.transform instrumentation tree path with
  | error error => rfl
  | ok pair =>
      have same := alone pair.1 pair.2 transformed
      simp [FileReport.changed?, Except.map, Outcome.isChanged, same]

/-- A change that writes nothing is reported as predicted. -/
theorem change_of_leavesAlone (alone : options.LeavesAlone instrumentation tree path) :
    options.change instrumentation tree path =
      (options.predicted instrumentation tree path, tree) := by
  rw [change, predicted]
  cases transformed : options.transform instrumentation tree path with
  | error error => rfl
  | ok pair =>
      obtain ⟨source, outcome⟩ := pair
      dsimp only
      rw [alone source outcome transformed]
      rfl

theorem change_of_dryRun (isDry : options.dryRun = true) (instrumentation : Instrumentation)
    (tree : FileTree) (path : Path) :
    options.change instrumentation tree path =
      (options.predicted instrumentation tree path, tree) := by
  rw [change, predicted]
  cases options.transform instrumentation tree path with
  | error error => rfl
  | ok pair =>
      dsimp only
      cases pair.2.text with
      | none => rfl
      | some text =>
          dsimp only
          rw [if_pos isDry]
          rfl

/-- A change that is written is reported as predicted. -/
theorem change_of_writeText (notDry : options.dryRun = false)
    (transformed : options.transform instrumentation tree path = .ok (source, outcome))
    (changes : outcome.text = some text) (written : tree.writeText path text = .ok after) :
    options.change instrumentation tree path =
      (options.predicted instrumentation tree path, after) := by
  rw [change, predicted, transformed]
  dsimp only
  rw [changes]
  dsimp only
  rw [notDry, written]
  rfl

/-- A run that writes nothing reports what the present texts say. -/
theorem changeAll_of_dryRun (isDry : options.dryRun = true) (instrumentation : Instrumentation)
    (tree : FileTree) (files : List Path) :
    options.changeAll instrumentation tree files =
      (files.map (options.predicted instrumentation tree), tree) := by
  induction files with
  | nil => rfl
  | cons path rest inductionHypothesis =>
      rw [changeAll, change_of_dryRun isDry]
      dsimp only
      rw [inductionHypothesis]
      rfl

/-- A file whose visits are all reported as no change is not written. -/
theorem changeAll_file (notDry : options.dryRun = false) {location : Location}
    (reported : (options.changeAll instrumentation now files).1 =
      files.map (options.predicted instrumentation tree))
    (alone : ∀ path ∈ files, now.location? path = some location →
      options.LeavesAlone instrumentation tree path) :
    (options.changeAll instrumentation now files).2.file location = now.file location := by
  have replayed := replay?_changeAllUnder notDry instrumentation now (files.map (·, .none)) location
  rw [changeAllUnder_none, reported, replay?_of_notHere, Option.some.injEq] at replayed
  · exact replayed.symm
  · intro report member
    obtain ⟨path, visited, rfl⟩ := List.mem_map.mp member
    by_cases here : now.location? path = some location
    · exact .inl (changed?_predicted (alone path visited here))
    · exact .inr here

/-- A part of the tree that a run starts from is still there: where paths lead, and the files to come. -/
structure Untouched (tree now : FileTree) (files : List Path) : Prop where
  layout : FileTree.SameLayout tree now
  file : ∀ path ∈ files, ∀ location, tree.location? path = some location →
    now.file location = tree.file location

theorem Untouched.readText (untouched : Untouched tree now files) (visited : path ∈ files) :
    now.readText path = tree.readText path :=
  untouched.layout.readText fun location found => untouched.file path visited location (by
    rw [FileTree.location?, found]
    rfl)

theorem Untouched.transform (untouched : Untouched tree now files) (visited : path ∈ files)
    (options : RunOptions) (instrumentation : Instrumentation) :
    options.transform instrumentation now path = options.transform instrumentation tree path := by
  rw [RunOptions.transform, RunOptions.transform, untouched.readText visited,
    untouched.layout.workingDirectory]

theorem Untouched.tail (untouched : Untouched tree now (path :: files)) :
    Untouched tree now files :=
  ⟨untouched.layout, fun other visited => untouched.file other (List.mem_cons_of_mem path visited)⟩

/-- A file that can be written in the tree at the start can be written later on. -/
theorem Untouched.writeText (untouched : Untouched tree now files) (visited : path ∈ files)
    (writes : (tree.writeText path text).isOk = true) :
    ∃ location, tree.location? path = some location ∧
      now.writeText path text = .ok (now.setText location text) := by
  cases written : tree.writeText path text with
  | error fault =>
      rw [written] at writes
      cases writes
  | ok wrote =>
      obtain ⟨location, found, _⟩ := FileTree.writeText_eq_ok_iff.mp written
      have located : tree.location? path = some location := by
        rw [FileTree.location?, found]
        rfl
      refine ⟨location, located, ?_⟩
      rw [untouched.layout.writeText found (untouched.file path visited location located), written]
      rfl

/-- One change in a run that writes: it is reported as predicted, leaves the files to come alone, and
the file that it is about can be read as predicted. -/
theorem change_predicted (notDry : options.dryRun = false)
    (untouched : Untouched tree now (path :: files))
    (once : options.ChangesOnce instrumentation tree (path :: files))
    (canWrite : options.CanWrite instrumentation tree (path :: files)) :
    ∃ next, options.change instrumentation now path =
        (options.predicted instrumentation tree path, next) ∧
      Untouched tree next files ∧
      next.readText path = options.predictedText instrumentation tree path := by
  have visited : path ∈ path :: files := List.mem_cons_self
  have transformed := untouched.transform visited options instrumentation
  have predicts : options.predicted instrumentation now path =
      options.predicted instrumentation tree path := by rw [predicted, predicted, transformed]
  by_cases alone : options.LeavesAlone instrumentation tree path
  · refine ⟨now, ?_, untouched.tail, ?_⟩
    · rw [change_of_leavesAlone (by rw [LeavesAlone, transformed]; exact alone), predicts]
    · rw [untouched.readText visited, predictedText]
      cases result : options.transform instrumentation tree path with
      | error error => rfl
      | ok pair =>
          rw [(transform_eq_ok_iff.mp result).1]
          dsimp only
          rw [Outcome.textOr, alone pair.1 pair.2 result]
          rfl
  · obtain ⟨source, outcome, result, text, changes⟩ : ∃ source outcome,
        options.transform instrumentation tree path = .ok (source, outcome) ∧
          ∃ text, outcome.text = some text := by
      simpa [LeavesAlone, ← ne_eq, Option.ne_none_iff_exists'] using alone
    obtain ⟨location, located, written⟩ :=
      untouched.writeText visited (canWrite path visited source outcome text result changes)
    refine ⟨now.setText location text, ?_, ⟨?_, ?_⟩, ?_⟩
    · rw [change_of_writeText notDry (transformed.trans result) changes written, predicts]
    · exact untouched.layout.trans (now.sameLayout_setText location text)
    · intro other later place found
      -- a file to come that were this one would make it change twice
      have different : place ≠ location := by
        rintro rfl
        exact alone ((List.pairwise_cons.mp once).1 other later (found.trans located.symm)).1
      rw [FileTree.file_setText_of_ne different,
        untouched.file other (List.mem_cons_of_mem path later) place found]
    · have isRead := (transform_eq_ok_iff.mp result).1
      obtain ⟨place, found, _⟩ := FileTree.readText_eq_ok_iff.mp isRead
      have same : place = location := by
        rw [FileTree.location?, found] at located
        exact Option.some.inj located
      have readable : now.readText path = .ok source := by rw [untouched.readText visited, isRead]
      rw [predictedText, result, FileTree.readText_setText
        (by rw [untouched.layout.locate, found, same]) readable]
      dsimp only
      rw [Outcome.textOr, changes]
      rfl

/-- A run that writes reports what a run that does not would report, and leaves what was predicted. -/
theorem changeAll_predicted (notDry : options.dryRun = false) (untouched : Untouched tree now files)
    (once : options.ChangesOnce instrumentation tree files)
    (canWrite : options.CanWrite instrumentation tree files) :
    (options.changeAll instrumentation now files).1 =
        files.map (options.predicted instrumentation tree) ∧
      ∀ path ∈ files, (options.changeAll instrumentation now files).2.readText path =
        options.predictedText instrumentation tree path := by
  induction files generalizing now with
  | nil => exact ⟨rfl, nofun⟩
  | cons path rest inductionHypothesis =>
      obtain ⟨next, changed, kept, isRead⟩ := change_predicted notDry untouched once canWrite
      obtain ⟨reported, restRead⟩ := inductionHypothesis kept (List.pairwise_cons.mp once).2
        fun other visited => canWrite other (List.mem_cons_of_mem path visited)
      have layout := changeAllUnder_layout options instrumentation next (rest.map (·, .none))
      rw [changeAllUnder_none] at layout
      rw [changeAll, changed]
      dsimp only
      refine ⟨by rw [reported, List.map_cons], ?_⟩
      rintro other (_ | ⟨_, visited⟩)
      · rw [← isRead]
        refine layout.readText fun location found => changeAll_file notDry reported ?_
        intro other visited located
        have here : tree.location? path = some location := by
          rw [← kept.layout.location?, FileTree.location?, found]
          rfl
        rw [kept.layout.location?] at located
        exact ((List.pairwise_cons.mp once).1 other visited (located.trans here.symm)).2
      · exact restRead other visited

/-- What is printed of a file is the text that was predicted for it. -/
theorem printFile_predictedText (options : RunOptions) (instrumentation : Instrumentation)
    (tree : FileTree) (path : Path) :
    ((Program.printFile options instrumentation tree path).failure = none →
      options.predictedText instrumentation tree path =
        .ok (Program.printFile options instrumentation tree path).output) ∧
    ((Program.printFile options instrumentation tree path).failure.isSome = true →
      (Program.printFile options instrumentation tree path).output = [] ∧
        options.predictedText instrumentation tree path = tree.readText path) := by
  rw [predictedText, Program.printFile]
  cases options.transform instrumentation tree path with
  | error error => exact ⟨nofun, fun _ => ⟨rfl, rfl⟩⟩
  | ok pair => exact ⟨fun _ => rfl, nofun⟩

/-- If every text can be written and no file that changes is visited twice, a run that writes comes to the
summary that a run without writing gives, and leaves in every file the text that is printed for it. -/
theorem trial_predicts_writing (options : RunOptions) (instrumentation : Instrumentation)
    (tree : FileTree) (paths files : List Path)
    (collected : options.selection.collect tree paths = .ok files)
    (once : options.ChangesOnce instrumentation tree files)
    (canWrite : options.CanWrite instrumentation tree files) :
    ∃ summary after,
      options.trial.run instrumentation tree paths = .ok (summary, tree) ∧
      options.writing.run instrumentation tree paths = .ok (summary, after) ∧
      (Program.printChanged options instrumentation tree paths).output =
        files.flatMap (fun path => (Program.printFile options instrumentation tree path).output) ∧
      ∀ path ∈ files,
        ((Program.printFile options instrumentation tree path).failure = none →
          after.readText path = .ok (Program.printFile options instrumentation tree path).output) ∧
        ((Program.printFile options instrumentation tree path).failure.isSome = true →
          (Program.printFile options instrumentation tree path).output = [] ∧
            after.readText path = tree.readText path) := by
  have untouched : Untouched tree tree files := ⟨.refl tree, fun _ _ _ _ => rfl⟩
  have notDry : options.writing.dryRun = false := rfl
  have isDry : options.trial.dryRun = true := rfl
  obtain ⟨reported, isRead⟩ := changeAll_predicted notDry untouched once canWrite
  refine ⟨⟨files.map (options.predicted instrumentation tree)⟩,
    (options.writing.changeAll instrumentation tree files).2, ?_, ?_, ?_, ?_⟩
  · rw [run, show options.trial.selection.collect tree paths = .ok files from collected]
    exact congrArg (fun changed => Except.ok (RunSummary.mk changed.1, changed.2))
      (changeAll_of_dryRun isDry instrumentation tree files)
  · rw [run, show options.writing.selection.collect tree paths = .ok files from collected]
    exact congrArg (fun reports => Except.ok (RunSummary.mk reports, _)) reported
  · rw [Program.printChanged, collected]
    dsimp only
    rw [List.flatMap_map]
  · intro path visited
    rw [isRead path visited]
    exact printFile_predictedText options instrumentation tree path

theorem trial_predicts_writing_twoFiles :
    ∃ summary after,
      injecting.trial.run rootEntry twoFiles [⟨"a.js".toList⟩, ⟨"b.js".toList⟩] =
        .ok (summary, twoFiles) ∧
      injecting.writing.run rootEntry twoFiles [⟨"a.js".toList⟩, ⟨"b.js".toList⟩] =
        .ok (summary, after) ∧
      summary.changed = 2 ∧
      after.readText ⟨"b.js".toList⟩ =
        .ok ("import profileImport from './profile.js';\n" ++
          "profileImport('./x.js', import.meta.url, null, '__AUTO_PROFILE__');").toList := by
  have once : injecting.ChangesOnce rootEntry twoFiles [⟨"a.js".toList⟩, ⟨"b.js".toList⟩] := by
    refine .cons ?_ (.cons nofun .nil)
    rintro _ (_ | ⟨_, ⟨⟩⟩) same
    exact absurd same (by decide +kernel)
  have canWrite : injecting.CanWrite rootEntry twoFiles [⟨"a.js".toList⟩, ⟨"b.js".toList⟩] := by
    rintro _ (_ | ⟨_, _ | ⟨_, ⟨⟩⟩⟩) _ _ text _ _
    · rfl
    · rfl
  obtain ⟨summary, after, dry, real, _, printed⟩ := trial_predicts_writing injecting rootEntry twoFiles
    [⟨"a.js".toList⟩, ⟨"b.js".toList⟩] [⟨"a.js".toList⟩, ⟨"b.js".toList⟩] rfl once canWrite
  have changed : (injecting.trial.run rootEntry twoFiles
      [⟨"a.js".toList⟩, ⟨"b.js".toList⟩]).toOption.map (fun result => result.1.changed) = some 2 := by
    decide +kernel
  rw [dry] at changed
  refine ⟨summary, after, dry, real, Option.some.inj changed, ?_⟩
  rw [(printed ⟨"b.js".toList⟩ (.tail _ (.head _))).1 (by rfl)]
  exact congrArg Except.ok (by decide +kernel)

/-- A path that is listed twice is written once, but expected to be written twice. -/
theorem trial_counts_repeatedPath_twice :
    ((injecting.trial.run rootEntry twoFiles [⟨"a.js".toList⟩, ⟨"a.js".toList⟩]).toOption.map
        fun result => result.1.files.map FileReport.changed?) = some [some 1, some 1] ∧
    ((injecting.writing.run rootEntry twoFiles [⟨"a.js".toList⟩, ⟨"a.js".toList⟩]).toOption.map
        fun result => result.1.files.map FileReport.changed?) = some [some 1, none] ∧
    ((injecting.writing.run rootEntry twoFiles [⟨"a.js".toList⟩, ⟨"a.js".toList⟩]).toOption.map
        fun result => result.1.failures.length) = some 0 := by
  decide +kernel

end RunOptions

end ImportMeter
