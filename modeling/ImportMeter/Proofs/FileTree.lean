/-
This file shows what writing into a file leaves alone: where paths lead, and what all other files hold.
-/
import Mathlib.Data.List.Basic
import ImportMeter.FileTree.Basic

namespace ImportMeter

namespace FileTree

variable {first second tree after : FileTree} {path : Path} {location other : Location} {text : Text}

/-- The same directories, links and working directory. Files may hold something else. -/
structure SameLayout (first second : FileTree) : Prop where
  root : second.root = first.root
  workingDirectory : second.workingDirectory = first.workingDirectory

namespace SameLayout

theorem refl (tree : FileTree) : SameLayout tree tree := ⟨rfl, rfl⟩

theorem trans {third : FileTree} (layout : SameLayout first second)
    (further : SameLayout second third) : SameLayout first third :=
  ⟨further.root.trans layout.root, further.workingDirectory.trans layout.workingDirectory⟩

theorem follow (layout : SameLayout first second) (followsLast : Bool) (location : Location)
    (pieces : List Text) :
    second.follow followsLast location pieces = first.follow followsLast location pieces := by
  induction pieces generalizing location with
  | nil => rfl
  | cons piece rest inductionHypothesis =>
      simp only [FileTree.follow, layout.root, inductionHypothesis]

theorem resolve (layout : SameLayout first second) (followsLast : Bool) (links : Nat)
    (location : Location) (pieces : List Text) :
    second.resolve followsLast links location pieces =
      first.resolve followsLast links location pieces := by
  induction links generalizing location pieces with
  | zero => rfl
  | succ links inductionHypothesis =>
      simp only [FileTree.resolve, layout.follow, inductionHypothesis]

/-- Paths lead to the same places. -/
theorem locate (layout : SameLayout first second) (followsLast : Bool) (path : Path) :
    second.locate followsLast path = first.locate followsLast path := by
  simp only [FileTree.locate, layout.resolve, layout.workingDirectory]

theorem textAt (layout : SameLayout first second)
    (same : second.file location = first.file location) :
    second.textAt location = first.textAt location := by
  simp only [FileTree.textAt, layout.root, same]

/-- A path is read the same if the file it leads to is the same. -/
theorem readText (layout : SameLayout first second)
    (same : ∀ location, first.locate true path = .ok location →
      second.file location = first.file location) :
    second.readText path = first.readText path := by
  rw [FileTree.readText, FileTree.readText, layout.locate]
  cases found : first.locate true path with
  | error fault => rfl
  | ok location => exact layout.textAt (same location found)

end SameLayout

/-- The tree with a text in the file at a location. -/
def setText (tree : FileTree) (location : Location) (text : Text) : FileTree :=
  { tree with
    file := fun other =>
      if other = location then { tree.file location with content := .text text } else tree.file other }

theorem sameLayout_setText (tree : FileTree) (location : Location) (text : Text) :
    SameLayout tree (tree.setText location text) := ⟨rfl, rfl⟩

theorem file_setText (tree : FileTree) (location : Location) (text : Text) :
    (tree.setText location text).file location =
      { tree.file location with content := .text text } := if_pos rfl

theorem file_setText_of_ne (different : other ≠ location) (text : Text) :
    (tree.setText location text).file other = tree.file other := if_neg different

theorem writeAt_eq_ok_iff : tree.writeAt location text = .ok after ↔
    tree.root.at? location = some .file ∧ (tree.file location).writable = true ∧
      after = tree.setText location text := by
  rw [writeAt]
  split
  next isFile =>
    dsimp only
    split
    next denied => simp_all
    next writable =>
      rw [Except.ok.injEq, eq_comm]
      exact ⟨fun same => ⟨isFile, by simpa using writable, same⟩, fun written => written.2.2⟩
  next isDirectory => simp [isDirectory]
  next notFile _ => exact ⟨nofun, fun written => absurd written.1 notFile⟩

/-- What it takes to write into the file that a path leads to, and what comes of it. -/
theorem writeText_eq_ok_iff : tree.writeText path text = .ok after ↔
    ∃ location, tree.locate true path = .ok location ∧ tree.root.at? location = some .file ∧
      (tree.file location).writable = true ∧ after = tree.setText location text := by
  rw [writeText]
  cases found : tree.locate true path with
  | error fault => exact ⟨nofun, fun ⟨_, located, _⟩ => nomatch located⟩
  | ok location =>
      refine writeAt_eq_ok_iff.trans ⟨fun written => ⟨location, rfl, written⟩, ?_⟩
      rintro ⟨_, located, written⟩
      cases located
      exact written

/-- A file that is the same in both trees is written in both or in neither. -/
theorem SameLayout.writeText (layout : SameLayout first second)
    (located : first.locate true path = .ok location)
    (same : second.file location = first.file location) (text : Text) :
    second.writeText path text =
      (first.writeText path text).map fun _ => second.setText location text := by
  have opened : ∀ tree : FileTree, tree.locate true path = .ok location →
      tree.writeText path text = tree.writeAt location text := by
    intro tree located
    rw [FileTree.writeText, located]
    rfl
  rw [opened first located, opened second ((layout.locate true path).trans located), writeAt, writeAt,
    layout.root]
  split
  next =>
    dsimp only
    rw [same]
    split
    next => rfl
    next => rw [Except.map, setText, same, layout.root]
  next => rfl
  next => rfl

theorem textAt_eq_ok_iff : tree.textAt location = .ok text ↔
    tree.root.at? location = some .file ∧ (tree.file location).readable = true ∧
      (tree.file location).content = .text text := by
  rw [textAt]
  split
  next isFile =>
    dsimp only
    split
    next denied => simp_all
    next readable =>
      cases (tree.file location).content <;> simp_all
  next isDirectory => simp [isDirectory]
  next notFile _ => exact ⟨nofun, fun isRead => absurd isRead.1 notFile⟩

/-- A text that is read stands in the file that the path leads to. -/
theorem readText_eq_ok_iff : tree.readText path = .ok text ↔
    ∃ location, tree.locate true path = .ok location ∧ tree.root.at? location = some .file ∧
      (tree.file location).readable = true ∧ (tree.file location).content = .text text := by
  rw [readText]
  cases found : tree.locate true path with
  | error fault => exact ⟨nofun, fun ⟨_, located, _⟩ => nomatch located⟩
  | ok location =>
      refine textAt_eq_ok_iff.trans ⟨fun isRead => ⟨location, rfl, isRead⟩, ?_⟩
      rintro ⟨_, located, isRead⟩
      cases located
      exact isRead

/-- What was written is read back. -/
theorem readText_setText {before : Text} (located : tree.locate true path = .ok location)
    (isRead : tree.readText path = .ok before) :
    (tree.setText location text).readText path = .ok text := by
  obtain ⟨place, found, isFile, readable, _⟩ := readText_eq_ok_iff.mp isRead
  rw [located] at found
  cases found
  refine readText_eq_ok_iff.mpr ⟨location, ?_, isFile, ?_, ?_⟩
  · rw [(sameLayout_setText tree location text).locate, located]
  · rw [file_setText]
    exact readable
  · rw [file_setText]

/-- Two trees that differ in nothing but what the file at a location is like. -/
def AgreeApart (location : Location) (first second : FileTree) : Prop :=
  SameLayout first second ∧ ∀ other, other ≠ location → second.file other = first.file other

namespace AgreeApart

theorem symm (agree : AgreeApart location first second) : AgreeApart location second first :=
  ⟨⟨agree.1.root.symm, agree.1.workingDirectory.symm⟩, fun other different =>
    (agree.2 other different).symm⟩

theorem trans {third : FileTree} (agree : AgreeApart location first second)
    (further : AgreeApart location second third) : AgreeApart location first third :=
  ⟨agree.1.trans further.1, fun other different =>
    (further.2 other different).trans (agree.2 other different)⟩

theorem setText (agree : AgreeApart location first second) (place : Location) (text : Text)
    (different : place ≠ location) :
    AgreeApart location (first.setText place text) (second.setText place text) := by
  refine ⟨⟨agree.1.root, agree.1.workingDirectory⟩, fun other apart => ?_⟩
  by_cases here : other = place
  · rw [here, file_setText, file_setText, agree.2 place different]
  · rw [file_setText_of_ne here, file_setText_of_ne here, agree.2 other apart]

end AgreeApart

theorem agreeApart_refl (location : Location) (tree : FileTree) : AgreeApart location tree tree :=
  ⟨.refl tree, fun _ _ => rfl⟩

theorem agreeApart_setText (tree : FileTree) (location : Location) (text : Text) :
    AgreeApart location tree (tree.setText location text) :=
  ⟨sameLayout_setText tree location text, fun _ different => file_setText_of_ne different text⟩

end FileTree

end ImportMeter
