/-
This file proves that a run touches only the files that it collects, each by its own reports, whatever goes
wrong with single files on the way.
-/
import Mathlib.Algebra.Ring.Nat
import Mathlib.Data.List.Forall2
import ImportMeter.Command.Program
import ImportMeter.FileTree.Build
import ImportMeter.Proofs.FileTree

namespace ImportMeter

/-- What goes wrong with one file for reasons that the tree does not show: at this moment it cannot be read, or
not be written. -/
structure Disturbance where
  read : Option FileFault
  write : Option FileFault

def Disturbance.none : Disturbance := ⟨.none, .none⟩

/-- Puts a text into the file that a path leads to, unless writing is disturbed. -/
def FileTree.writeTextUnder (tree : FileTree) (path : Path) (text : Text)
    (disturbance : Disturbance) : Except FileFault FileTree :=
  match disturbance.write with
  | some fault => .error fault
  | none => tree.writeText path text

/-- Where a path leads, or `none` if it leads nowhere. -/
def FileTree.location? (tree : FileTree) (path : Path) : Option Location :=
  (tree.locate true path).toOption

theorem FileTree.SameLayout.location? {first second : FileTree} (layout : SameLayout first second)
    (path : Path) : second.location? path = first.location? path := by
  rw [FileTree.location?, FileTree.location?, layout.locate]

namespace RunOptions

/-- The options of a run that writes. -/
def writing (options : RunOptions) : RunOptions := { options with dryRun := false }

/-- The options of a run that writes nothing. -/
def trial (options : RunOptions) : RunOptions := { options with dryRun := true }

/-- The text of a file and what changing it comes to, unless reading is disturbed. -/
def transformUnder (options : RunOptions) (instrumentation : Instrumentation) (tree : FileTree)
    (path : Path) (disturbance : Disturbance) : Except Error (Text × Outcome) :=
  match disturbance.read with
  | some fault => .error (.unusable path fault)
  | none => options.transform instrumentation tree path

/-- Changes one file under a disturbance. A write that fails leaves the tree as it was. -/
def changeUnder (options : RunOptions) (instrumentation : Instrumentation) (tree : FileTree)
    (visit : Path × Disturbance) : FileReport × FileTree :=
  let (path, disturbance) := visit
  match options.transformUnder instrumentation tree path disturbance with
  | .error error => (⟨path, .error error⟩, tree)
  | .ok (_, outcome) =>
    match outcome.text with
    | none => (⟨path, .ok outcome⟩, tree)
    | some text =>
      if options.dryRun then (⟨path, .ok outcome⟩, tree)
      else match tree.writeTextUnder path text disturbance with
        | .ok tree => (⟨path, .ok outcome⟩, tree)
        | .error fault => (⟨path, .error (.unusable path fault)⟩, tree)

/-- Changes files one after the other, each under a disturbance of its own. -/
def changeAllUnder (options : RunOptions) (instrumentation : Instrumentation) :
    FileTree → List (Path × Disturbance) → List FileReport × FileTree
  | tree, [] => ([], tree)
  | tree, visit :: rest =>
    let (report, tree) := options.changeUnder instrumentation tree visit
    let (reports, tree) := changeAllUnder options instrumentation tree rest
    (report :: reports, tree)

/-- Without disturbances this is what a run does. -/
theorem changeAllUnder_none (options : RunOptions) (instrumentation : Instrumentation)
    (tree : FileTree) (files : List Path) :
    options.changeAllUnder instrumentation tree (files.map (·, .none)) =
      options.changeAll instrumentation tree files := by
  induction files generalizing tree with
  | nil => rfl
  | cons path rest inductionHypothesis =>
      rw [List.map_cons, changeAllUnder, changeAll]
      simp only [inductionHypothesis]
      rfl

/-- What a file is like after it was changed under a path, or `none` if that changes nothing in it. -/
def rewriteFile? (options : RunOptions) (instrumentation : Instrumentation) (tree : FileTree)
    (file : File) (path : Path) : Option File :=
  match file.content with
  | .text letters => do
    let outcome ← options.mode.change? tree.workingDirectory letters path instrumentation
    let text ← outcome.text
    some { file with content := .text text }
  | .binary _ => none

/-- The paths that lead to a location and whose reports are of a change, in the order of the reports. -/
def changesAt (tree : FileTree) (location : Location) (reports : List FileReport) : List Path :=
  (reports.filter fun report =>
    report.changed?.isSome && tree.location? report.path = some location).map FileReport.path

/-- Changes a file once for each change that was reported at its location. -/
def replay? (options : RunOptions) (instrumentation : Instrumentation) (tree : FileTree)
    (location : Location) (reports : List FileReport) (file : File) : Option File :=
  (changesAt tree location reports).foldlM (options.rewriteFile? instrumentation tree) file

variable {options : RunOptions} {instrumentation : Instrumentation} {tree after first second : FileTree}
  {path : Path} {visit : Path × Disturbance} {report : FileReport} {location : Location}

/-- A file that could be changed was read, and its text is a script. -/
theorem transform_eq_ok_iff {source : Text} {outcome : Outcome} :
    options.transform instrumentation tree path = .ok (source, outcome) ↔
      tree.readText path = .ok source ∧
        options.mode.change? tree.workingDirectory source path instrumentation = some outcome := by
  rw [transform]
  cases tree.readText path with
  | error fault => simp
  | ok text =>
      dsimp only
      cases changed : options.mode.change? tree.workingDirectory text path instrumentation with
      | none =>
          refine ⟨nofun, fun ⟨same, found⟩ => ?_⟩
          cases same
          rw [changed] at found
          cases found
      | some other =>
          constructor
          · rintro ⟨rfl, rfl⟩
            exact ⟨rfl, changed⟩
          · rintro ⟨same, found⟩
            cases same
            rw [changed] at found
            cases found
            rfl

theorem transform_of_transformUnder {disturbance : Disturbance} {pair : Text × Outcome}
    (transformed : options.transformUnder instrumentation tree path disturbance = .ok pair) :
    options.transform instrumentation tree path = .ok pair := by
  rw [transformUnder] at transformed
  split at transformed
  · cases transformed
  · exact transformed

theorem eq_setText_of_writeTextUnder {disturbance : Disturbance} {text : Text}
    (written : tree.writeTextUnder path text disturbance = .ok after) :
    ∃ location, tree.location? path = some location ∧ after = tree.setText location text := by
  rw [FileTree.writeTextUnder] at written
  split at written
  · cases written
  · obtain ⟨location, located, _, _, same⟩ := FileTree.writeText_eq_ok_iff.mp written
    refine ⟨location, ?_, same⟩
    rw [FileTree.location?, located]
    rfl

/-- All that changing one file can come to: a failure, a report without a write, or a write. -/
theorem changeUnder_cases (options : RunOptions) (instrumentation : Instrumentation)
    (tree : FileTree) (visit : Path × Disturbance) :
    (∃ error, options.changeUnder instrumentation tree visit = (⟨visit.1, .error error⟩, tree)) ∨
      ∃ source outcome, options.transform instrumentation tree visit.1 = .ok (source, outcome) ∧
        ((outcome.text = none ∨ options.dryRun = true) ∧
            options.changeUnder instrumentation tree visit = (⟨visit.1, .ok outcome⟩, tree) ∨
          ∃ text location, outcome.text = some text ∧ options.dryRun = false ∧
            tree.location? visit.1 = some location ∧
              options.changeUnder instrumentation tree visit =
                (⟨visit.1, .ok outcome⟩, tree.setText location text)) := by
  obtain ⟨path, disturbance⟩ := visit
  rw [changeUnder]
  dsimp only
  cases transformed : options.transformUnder instrumentation tree path disturbance with
  | error error => exact .inl ⟨error, rfl⟩
  | ok pair =>
      obtain ⟨source, outcome⟩ := pair
      refine (?_ : _ ∨ _ ∧ (_ ∨ _)).imp id fun cases => ⟨source, outcome, cases⟩
      dsimp only
      cases text : outcome.text with
      | none => exact .inr ⟨transform_of_transformUnder transformed, .inl ⟨.inl rfl, rfl⟩⟩
      | some letters =>
          dsimp only
          split
          next isDry => exact .inr ⟨transform_of_transformUnder transformed, .inl ⟨.inr isDry, rfl⟩⟩
          next notDry =>
            cases written : tree.writeTextUnder path letters disturbance with
            | error fault => exact .inl ⟨_, rfl⟩
            | ok wrote =>
                obtain ⟨location, located, same⟩ := eq_setText_of_writeTextUnder written
                exact .inr ⟨transform_of_transformUnder transformed,
                  .inr ⟨letters, location, rfl, by simpa using notDry, located, by rw [same]⟩⟩

/-- A file whose change fails is left as it was, and so is everything else. -/
theorem changeUnder_of_failure
    (failed : (options.changeUnder instrumentation tree visit).1.failure?.isSome = true) :
    (options.changeUnder instrumentation tree visit).2 = tree := by
  rcases changeUnder_cases options instrumentation tree visit with
    ⟨_, failure⟩ | ⟨_, _, _, ⟨_, kept⟩ | ⟨_, _, _, _, _, written⟩⟩
  · rw [failure]
  · rw [kept]
  · rw [written] at failed
    cases failed

theorem changeUnder_path (options : RunOptions) (instrumentation : Instrumentation) (tree : FileTree)
    (visit : Path × Disturbance) :
    (options.changeUnder instrumentation tree visit).1.path = visit.1 := by
  rcases changeUnder_cases options instrumentation tree visit with
    ⟨_, failure⟩ | ⟨_, _, _, ⟨_, kept⟩ | ⟨_, _, _, _, _, written⟩⟩
  · rw [failure]
  · rw [kept]
  · rw [written]

theorem changeUnder_layout (options : RunOptions) (instrumentation : Instrumentation)
    (tree : FileTree) (visit : Path × Disturbance) :
    FileTree.SameLayout tree (options.changeUnder instrumentation tree visit).2 := by
  rcases changeUnder_cases options instrumentation tree visit with
    ⟨_, failure⟩ | ⟨_, _, _, ⟨_, kept⟩ | ⟨text, location, _, _, _, written⟩⟩
  · rw [failure]
    exact .refl tree
  · rw [kept]
    exact .refl tree
  · rw [written]
    exact tree.sameLayout_setText location text

theorem changeUnder_of_dryRun (isDry : options.dryRun = true) (instrumentation : Instrumentation)
    (tree : FileTree) (visit : Path × Disturbance) :
    (options.changeUnder instrumentation tree visit).2 = tree := by
  rcases changeUnder_cases options instrumentation tree visit with
    ⟨_, failure⟩ | ⟨_, _, _, ⟨_, kept⟩ | ⟨_, _, _, notDry, _⟩⟩
  · rw [failure]
  · rw [kept]
  · rw [isDry] at notDry
    cases notDry

theorem replay?_append (options : RunOptions) (instrumentation : Instrumentation) (tree : FileTree)
    (location : Location) (reports others : List FileReport) (file : File) :
    options.replay? instrumentation tree location (reports ++ others) file =
      (options.replay? instrumentation tree location reports file).bind
        (options.replay? instrumentation tree location others) := by
  rw [replay?, changesAt, List.filter_append, List.map_append, List.foldlM_append]
  rfl

/-- Reports that are of no change, or of a change elsewhere, leave a file as it is. -/
theorem replay?_of_notHere {reports : List FileReport}
    (notHere : ∀ report ∈ reports, report.changed? = none ∨ tree.location? report.path ≠ some location)
    (file : File) : options.replay? instrumentation tree location reports file = some file := by
  rw [replay?, changesAt, List.filter_eq_nil_iff.mpr]
  · rfl
  · intro report member
    rcases notHere report member with same | elsewhere
    · simp [same]
    · simp [elsewhere]

/-- What becomes of a file depends on where paths lead, and on no other file. -/
theorem replay?_layout (layout : FileTree.SameLayout first second) (options : RunOptions)
    (instrumentation : Instrumentation) :
    options.replay? instrumentation second = options.replay? instrumentation first := by
  have rewrite : options.rewriteFile? instrumentation second =
      options.rewriteFile? instrumentation first := by
    funext file path
    rw [rewriteFile?, rewriteFile?, layout.workingDirectory]
  funext location reports file
  rw [replay?, replay?, changesAt, changesAt, rewrite]
  simp only [layout.location?]

/-- A file after one report is what it was before, changed once if the report is of a change of it. -/
theorem replay?_changeUnder (notDry : options.dryRun = false) (instrumentation : Instrumentation)
    (tree : FileTree) (visit : Path × Disturbance) (location : Location) :
    options.replay? instrumentation tree location [(options.changeUnder instrumentation tree visit).1]
      (tree.file location) = some ((options.changeUnder instrumentation tree visit).2.file location) := by
  rcases changeUnder_cases options instrumentation tree visit with
    ⟨error, failure⟩ | ⟨source, outcome, transformed, ⟨noText | isDry, kept⟩ |
      ⟨text, place, hasText, _, located, written⟩⟩
  · rw [failure, replay?_of_notHere]
    rintro _ (_ | ⟨_, ⟨⟩⟩)
    exact .inl rfl
  · rw [kept, replay?_of_notHere]
    rintro _ (_ | ⟨_, ⟨⟩⟩)
    exact .inl (by simp [FileReport.changed?, Outcome.isChanged, noText])
  · rw [notDry] at isDry
    cases isDry
  · rw [written]
    by_cases here : location = place
    · subst here
      obtain ⟨isRead, changed⟩ := transform_eq_ok_iff.mp transformed
      obtain ⟨_, found, _, _, content⟩ := FileTree.readText_eq_ok_iff.mp isRead
      have same := located
      rw [FileTree.location?, found] at same
      cases same
      rw [FileTree.file_setText, replay?, changesAt, List.filter_cons_of_pos
        (by simp [FileReport.changed?, Outcome.isChanged, hasText, located])]
      simp [rewriteFile?, content, changed, hasText]
    · rw [FileTree.file_setText_of_ne here, replay?_of_notHere]
      rintro _ (_ | ⟨_, ⟨⟩⟩)
      exact .inr (by simpa [located] using fun same : place = location => here same.symm)

/-- Files are changed one after the other. -/
theorem changeAllUnder_cons (options : RunOptions) (instrumentation : Instrumentation)
    (tree : FileTree) (visit : Path × Disturbance) (rest : List (Path × Disturbance)) :
    options.changeAllUnder instrumentation tree (visit :: rest) =
      ((options.changeUnder instrumentation tree visit).1 ::
          (options.changeAllUnder instrumentation
            (options.changeUnder instrumentation tree visit).2 rest).1,
        (options.changeAllUnder instrumentation
          (options.changeUnder instrumentation tree visit).2 rest).2) := rfl

theorem changeAllUnder_paths (options : RunOptions) (instrumentation : Instrumentation)
    (tree : FileTree) (visits : List (Path × Disturbance)) :
    (options.changeAllUnder instrumentation tree visits).1.map FileReport.path =
      visits.map Prod.fst := by
  induction visits generalizing tree with
  | nil => rfl
  | cons visit rest inductionHypothesis =>
      rw [changeAllUnder_cons, List.map_cons, List.map_cons, changeUnder_path, inductionHypothesis]

theorem changeAllUnder_layout (options : RunOptions) (instrumentation : Instrumentation)
    (tree : FileTree) (visits : List (Path × Disturbance)) :
    FileTree.SameLayout tree (options.changeAllUnder instrumentation tree visits).2 := by
  induction visits generalizing tree with
  | nil => exact .refl tree
  | cons visit rest inductionHypothesis =>
      exact (changeUnder_layout options instrumentation tree visit).trans (inductionHypothesis _)

theorem changeAllUnder_of_dryRun (isDry : options.dryRun = true) (instrumentation : Instrumentation)
    (tree : FileTree) (visits : List (Path × Disturbance)) :
    (options.changeAllUnder instrumentation tree visits).2 = tree := by
  induction visits generalizing tree with
  | nil => rfl
  | cons visit rest inductionHypothesis =>
      rw [changeAllUnder_cons, inductionHypothesis, changeUnder_of_dryRun isDry]

/-- A file after a run is what it was before, changed once for each change that was reported of it. -/
theorem replay?_changeAllUnder (notDry : options.dryRun = false) (instrumentation : Instrumentation)
    (tree : FileTree) (visits : List (Path × Disturbance)) (location : Location) :
    options.replay? instrumentation tree location
        (options.changeAllUnder instrumentation tree visits).1 (tree.file location) =
      some ((options.changeAllUnder instrumentation tree visits).2.file location) := by
  induction visits generalizing tree with
  | nil => rfl
  | cons visit rest inductionHypothesis =>
      rw [changeAllUnder_cons, ← List.singleton_append, replay?_append, replay?_changeUnder notDry,
        Option.bind_some, ← replay?_layout (changeUnder_layout options instrumentation tree visit),
        inductionHypothesis]

/-- A file that no visited path leads to is left alone. -/
theorem changeAllUnder_file_of_notVisited {visits : List (Path × Disturbance)}
    (notVisited : ∀ visit ∈ visits, tree.location? visit.1 ≠ some location) :
    (options.changeAllUnder instrumentation tree visits).2.file location = tree.file location := by
  cases mode : options.dryRun with
  | true => rw [changeAllUnder_of_dryRun mode]
  | false =>
      have replayed := replay?_changeAllUnder mode instrumentation tree visits location
      rw [replay?_of_notHere, Option.some.injEq] at replayed
      · exact replayed.symm
      · intro report member
        have isVisited : report.path ∈ visits.map Prod.fst := by
          rw [← changeAllUnder_paths options instrumentation tree]
          exact List.mem_map_of_mem member
        obtain ⟨visit, visited, same⟩ := List.mem_map.mp isVisited
        exact .inr (same ▸ notVisited visit visited)

/-- A run with a failure is the run without the file that failed, but for the report of the failure. -/
theorem changeAllUnder_eraseIdx {visits : List (Path × Disturbance)} {index : Nat}
    (reported : (options.changeAllUnder instrumentation tree visits).1[index]? = some report)
    (failed : report.failure?.isSome = true) :
    options.changeAllUnder instrumentation tree (visits.eraseIdx index) =
      ((options.changeAllUnder instrumentation tree visits).1.eraseIdx index,
        (options.changeAllUnder instrumentation tree visits).2) := by
  induction visits generalizing tree index with
  | nil => cases reported
  | cons visit rest inductionHypothesis =>
      rw [changeAllUnder_cons] at reported ⊢
      cases index with
      | zero =>
          cases reported
          rw [List.eraseIdx_cons_zero, List.eraseIdx_cons_zero, changeUnder_of_failure failed]
      | succ index =>
          rw [List.eraseIdx_cons_succ, List.eraseIdx_cons_succ, changeAllUnder_cons,
            inductionHypothesis reported]

/-- Only the file that a path leads to is changed under it. -/
theorem changeUnder_apart (options : RunOptions) (instrumentation : Instrumentation) (tree : FileTree)
    (located : tree.location? visit.1 = some location) :
    FileTree.AgreeApart location tree (options.changeUnder instrumentation tree visit).2 := by
  rcases changeUnder_cases options instrumentation tree visit with
    ⟨_, failure⟩ | ⟨_, _, _, ⟨_, kept⟩ | ⟨text, place, _, _, found, written⟩⟩
  · rw [failure]
    exact FileTree.agreeApart_refl location tree
  · rw [kept]
    exact FileTree.agreeApart_refl location tree
  · rw [located] at found
    cases found
    rw [written]
    exact FileTree.agreeApart_setText tree location text

/-- A write elsewhere goes the same way in both trees. -/
theorem writeTextUnder_apart (agree : FileTree.AgreeApart location first second)
    (elsewhere : first.location? path ≠ some location) (text : Text) (disturbance : Disturbance) :
    (∃ fault, first.writeTextUnder path text disturbance = .error fault ∧
        second.writeTextUnder path text disturbance = .error fault) ∨
      ∃ place, place ≠ location ∧
        first.writeTextUnder path text disturbance = .ok (first.setText place text) ∧
        second.writeTextUnder path text disturbance = .ok (second.setText place text) := by
  rw [FileTree.writeTextUnder, FileTree.writeTextUnder]
  cases disturbance.write with
  | some fault => exact .inl ⟨fault, rfl, rfl⟩
  | none =>
      dsimp only
      cases found : first.locate true path with
      | error fault =>
          refine .inl ⟨fault, ?_, ?_⟩
          · rw [FileTree.writeText, found]
            rfl
          · rw [FileTree.writeText, agree.1.locate, found]
            rfl
      | ok place =>
          have different : place ≠ location := by
            rintro rfl
            rw [FileTree.location?, found] at elsewhere
            exact elsewhere rfl
          rw [agree.1.writeText found (agree.2 place different)]
          cases written : first.writeText path text with
          | error fault => exact .inl ⟨fault, rfl, rfl⟩
          | ok wrote =>
              obtain ⟨_, located, _, _, same⟩ := FileTree.writeText_eq_ok_iff.mp written
              rw [found] at located
              cases located
              exact .inr ⟨place, different, by rw [same], rfl⟩

/-- A file elsewhere is changed the same way in both trees. -/
theorem changeUnder_agree (options : RunOptions) (instrumentation : Instrumentation)
    (agree : FileTree.AgreeApart location first second)
    (elsewhere : first.location? visit.1 ≠ some location) :
    (options.changeUnder instrumentation second visit).1 =
        (options.changeUnder instrumentation first visit).1 ∧
      FileTree.AgreeApart location (options.changeUnder instrumentation first visit).2
        (options.changeUnder instrumentation second visit).2 := by
  obtain ⟨path, disturbance⟩ := visit
  have transformed : options.transformUnder instrumentation second path disturbance =
      options.transformUnder instrumentation first path disturbance := by
    have isRead : second.readText path = first.readText path := by
      refine agree.1.readText fun place found => agree.2 place ?_
      rintro rfl
      rw [FileTree.location?, found] at elsewhere
      exact elsewhere rfl
    rw [transformUnder, transformUnder, transform, transform, isRead, agree.1.workingDirectory]
  rw [changeUnder, changeUnder, transformed]
  cases options.transformUnder instrumentation first path disturbance with
  | error error => exact ⟨rfl, agree⟩
  | ok pair =>
      obtain ⟨source, outcome⟩ := pair
      dsimp only
      cases outcome.text with
      | none => exact ⟨rfl, agree⟩
      | some text =>
          dsimp only
          split
          next => exact ⟨rfl, agree⟩
          next =>
            rcases writeTextUnder_apart agree elsewhere text disturbance with
              ⟨fault, one, other⟩ | ⟨place, different, one, other⟩
            · rw [one, other]
              exact ⟨rfl, agree⟩
            · rw [one, other]
              exact ⟨rfl, agree.setText place text different⟩

/-- The same visit in two runs, unless it leads to a location. There, other things may go wrong. -/
def VisitApart (tree : FileTree) (location : Location) (visit other : Path × Disturbance) : Prop :=
  other.1 = visit.1 ∧ (tree.location? visit.1 ≠ some location → other.2 = visit.2)

/-- The same report in two runs, unless it is of the file at a location. -/
def ReportApart (tree : FileTree) (location : Location) (report other : FileReport) : Prop :=
  other.path = report.path ∧ (tree.location? report.path ≠ some location → other = report)

/-- One visit in two runs is reported the same unless it leads to the location, and the trees still differ
in nothing else. -/
theorem changeUnder_visitApart (options : RunOptions) (instrumentation : Instrumentation)
    {other : Path × Disturbance} (same : VisitApart tree location visit other)
    (layout : FileTree.SameLayout tree first) (agree : FileTree.AgreeApart location first second) :
    ReportApart tree location (options.changeUnder instrumentation first visit).1
        (options.changeUnder instrumentation second other).1 ∧
      FileTree.AgreeApart location (options.changeUnder instrumentation first visit).2
        (options.changeUnder instrumentation second other).2 := by
  obtain ⟨samePath, sameDisturbance⟩ := same
  by_cases here : tree.location? visit.1 = some location
  · have inFirst : first.location? visit.1 = some location := by rw [layout.location?, here]
    have inSecond : second.location? other.1 = some location := by
      rw [agree.1.location?, samePath, inFirst]
    refine ⟨⟨?_, fun elsewhere => ?_⟩, ?_⟩
    · rw [changeUnder_path, changeUnder_path, samePath]
    · rw [changeUnder_path] at elsewhere
      exact absurd here elsewhere
    · exact ((changeUnder_apart options instrumentation first inFirst).symm.trans agree).trans
        (changeUnder_apart options instrumentation second inSecond)
  · have visited : other = visit := Prod.ext samePath (sameDisturbance here)
    have elsewhere : first.location? visit.1 ≠ some location := by
      rw [layout.location?]
      exact here
    obtain ⟨reported, further⟩ := changeUnder_agree options instrumentation agree elsewhere
    rw [visited]
    exact ⟨⟨by rw [reported], fun _ => reported⟩, further⟩

/-- What one file holds, and what goes wrong with it, has no effect on the reports on other files, nor on
what those hold afterwards. -/
theorem changeAllUnder_agree {visits others : List (Path × Disturbance)}
    (same : List.Forall₂ (VisitApart tree location) visits others)
    (layout : FileTree.SameLayout tree first) (agree : FileTree.AgreeApart location first second) :
    List.Forall₂ (ReportApart tree location) (options.changeAllUnder instrumentation first visits).1
        (options.changeAllUnder instrumentation second others).1 ∧
      FileTree.AgreeApart location (options.changeAllUnder instrumentation first visits).2
        (options.changeAllUnder instrumentation second others).2 := by
  induction same generalizing first second with
  | nil => exact ⟨.nil, agree⟩
  | @cons visit other visits others same _ inductionHypothesis =>
      have step := changeUnder_visitApart options instrumentation same layout agree
      have rest := inductionHypothesis
        (layout.trans (changeUnder_layout options instrumentation first visit)) step.2
      rw [changeAllUnder_cons, changeAllUnder_cons]
      exact ⟨.cons step.1 rest.1, rest.2⟩

end RunOptions

namespace RunSummary

/-- Every file changed, or stayed as it was, or failed. -/
theorem count_results (summary : RunSummary) :
    summary.changed + summary.unmodified + summary.failures.length = summary.files.length := by
  obtain ⟨reports⟩ := summary
  rw [changed, unmodified, failures]
  dsimp only
  induction reports with
  | nil => rfl
  | cons report rest inductionHypothesis =>
      obtain ⟨path, result⟩ := report
      rw [List.filterMap_cons, List.filterMap_cons, List.countP_cons, List.length_cons,
        ← inductionHypothesis]
      cases result with
      | error error => simp [FileReport.changed?, FileReport.isUnmodified, FileReport.failure?]; omega
      | ok outcome =>
          cases changes : outcome.isChanged <;>
            simp [FileReport.changed?, FileReport.isUnmodified, FileReport.failure?, changes] <;> omega

theorem rewritten_eq_sum (summary : RunSummary) :
    summary.rewritten = (summary.files.map fun report => report.changed?.getD 0).sum := by
  obtain ⟨reports⟩ := summary
  rw [rewritten]
  dsimp only
  induction reports with
  | nil => rfl
  | cons report rest inductionHypothesis =>
      rw [List.map_cons, List.sum_cons, ← inductionHypothesis]
      cases changes : report.changed? with
      | none => rw [List.filterMap_cons_none changes, Option.getD_none, Nat.zero_add]
      | some count => rw [List.filterMap_cons_some changes, Option.getD_some, List.foldr_cons]

end RunSummary

namespace RunOptions

/-- The files that paths stand for depend on no text. -/
theorem collect_layout (layout : FileTree.SameLayout first second) (selection : Selection)
    (paths : List Path) : selection.collect second paths = selection.collect first paths := by
  have node : second.node = first.node := by
    funext path
    rw [FileTree.node, FileTree.node, layout.locate, layout.root]
  have collectOne : Selection.collectOne second = Selection.collectOne first := by
    funext patterns extensions path
    rw [Selection.collectOne, Selection.collectOne, node]
  rw [Selection.collect, Selection.collect, collectOne]

/-- What holds of a run over files, of its reports and of the tree after it, whatever goes wrong with single
files. -/
structure Confined (options : RunOptions) (instrumentation : Instrumentation) (tree : FileTree)
    (visits : List (Path × Disturbance)) (reports : List FileReport) (after : FileTree) : Prop where
  paths : reports.map FileReport.path = visits.map Prod.fst
  counts : RunSummary.changed ⟨reports⟩ + RunSummary.unmodified ⟨reports⟩ +
    (RunSummary.failures ⟨reports⟩).length = reports.length
  rewritten : RunSummary.rewritten ⟨reports⟩ = (reports.map fun report => report.changed?.getD 0).sum
  layout : FileTree.SameLayout tree after
  /-- A file that is not visited stays as it is. -/
  notVisited : ∀ location, (∀ visit ∈ visits, tree.location? visit.1 ≠ some location) →
    after.file location = tree.file location
  dry : options.dryRun = true → after = tree
  /-- Every file is changed once for each change that is reported of it. -/
  replayed : options.dryRun = false → ∀ location,
    options.replay? instrumentation tree location reports (tree.file location) =
      some (after.file location)
  /-- Without a file that fails, the run comes to the same, but for the report of the failure. -/
  failed : ∀ index report, reports[index]? = some report → report.failure?.isSome = true →
    options.changeAllUnder instrumentation tree (visits.eraseIdx index) =
      (reports.eraseIdx index, after)
  /-- What a file holds and what goes wrong with it has no effect on others. -/
  isolated : ∀ location second others, FileTree.AgreeApart location tree second →
    List.Forall₂ (VisitApart tree location) visits others →
    List.Forall₂ (ReportApart tree location) reports
        (options.changeAllUnder instrumentation second others).1 ∧
      FileTree.AgreeApart location after (options.changeAllUnder instrumentation second others).2

theorem changeAllUnder_confined (options : RunOptions) (instrumentation : Instrumentation)
    (tree : FileTree) (visits : List (Path × Disturbance)) :
    options.Confined instrumentation tree visits
      (options.changeAllUnder instrumentation tree visits).1
      (options.changeAllUnder instrumentation tree visits).2 where
  paths := changeAllUnder_paths options instrumentation tree visits
  counts := RunSummary.count_results _
  rewritten := RunSummary.rewritten_eq_sum _
  layout := changeAllUnder_layout options instrumentation tree visits
  notVisited := fun _ => changeAllUnder_file_of_notVisited
  dry := fun isDry => changeAllUnder_of_dryRun isDry instrumentation tree visits
  replayed := fun notDry => replay?_changeAllUnder notDry instrumentation tree visits
  failed := fun _ _ => changeAllUnder_eraseIdx
  isolated := fun _ _ _ agree same => changeAllUnder_agree same (.refl tree) agree

/-- A run touches nothing if its files cannot be collected. If they can, it touches only those, each by its
own reports, and no failure spreads from one file to another. -/
theorem run_confined (options : RunOptions) (instrumentation : Instrumentation) (tree : FileTree)
    (paths : List Path) :
    (∀ error, options.selection.collect tree paths = .error error →
      options.run instrumentation tree paths = .error error ∧
        (Program.changeFiles options instrumentation tree paths).tree = tree ∧
        (Program.changeFiles options instrumentation tree paths).written = []) ∧
    ∀ files, options.selection.collect tree paths = .ok files →
      options.run instrumentation tree paths =
          .ok (⟨(options.changeAllUnder instrumentation tree (files.map (·, .none))).1⟩,
            (options.changeAllUnder instrumentation tree (files.map (·, .none))).2) ∧
        (∀ second, FileTree.SameLayout tree second →
          options.selection.collect second paths = .ok files) ∧
        ∀ visits, visits.map Prod.fst = files →
          options.Confined instrumentation tree visits
            (options.changeAllUnder instrumentation tree visits).1
            (options.changeAllUnder instrumentation tree visits).2 := by
  constructor
  · intro error failed
    have failedRun : options.run instrumentation tree paths = .error error := by
      rw [run, failed]
      rfl
    refine ⟨failedRun, ?_, ?_⟩
    · rw [Program.changeFiles, failedRun]
      rfl
    · rw [Program.changeFiles, failedRun]
      rfl
  · intro files collected
    refine ⟨?_, fun second layout => ?_, fun visits _ =>
      changeAllUnder_confined options instrumentation tree visits⟩
    · rw [run, collected, changeAllUnder_none]
      rfl
    · rw [collect_layout layout, collected]

/-- A file with a call to wrap. -/
def loadingFile : File := ⟨.text "import('./x.js');".toList, true, true⟩

/-- Two such files in one directory. -/
def twoFiles : FileTree :=
  (FileTree.empty.putFile ["a.js".toList] loadingFile).putFile ["b.js".toList] loadingFile

/-- An entry point next to them. -/
def rootEntry : Instrumentation := .ofModule ⟨['/']⟩ ⟨"profile.js".toList⟩

/-- Instrumentation of what is selected where nothing is configured. -/
def injecting : RunOptions := ⟨.inject, .default, true⟩

/-- The first of two files cannot be written. -/
def failedWrite : List (Path × Disturbance) :=
  [(⟨"a.js".toList⟩, ⟨none, some .denied⟩), (⟨"b.js".toList⟩, .none)]

theorem run_confined_failedWrite :
    injecting.writing.Confined rootEntry twoFiles failedWrite
        (injecting.writing.changeAllUnder rootEntry twoFiles failedWrite).1
        (injecting.writing.changeAllUnder rootEntry twoFiles failedWrite).2 ∧
      (injecting.writing.changeAllUnder rootEntry twoFiles failedWrite).1.map FileReport.changed? =
        [none, some 1] ∧
      (injecting.writing.changeAllUnder rootEntry twoFiles failedWrite).2.file ["a.js".toList] =
        loadingFile := by
  refine ⟨?_, by decide +kernel, by decide +kernel⟩
  exact ((run_confined injecting.writing rootEntry twoFiles
    [⟨"a.js".toList⟩, ⟨"b.js".toList⟩]).2 [⟨"a.js".toList⟩, ⟨"b.js".toList⟩] rfl).2.2 failedWrite rfl

end RunOptions

end ImportMeter
