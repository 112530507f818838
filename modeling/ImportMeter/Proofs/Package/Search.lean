/-
This file proves what searches upwards end with: the nearest manifest that can be read, and the nearest
directory whose manifest declares workspaces. Manifests that cannot be read are passed.
-/
import Mathlib.Data.List.Find
import Mathlib.Data.List.Infix
import ImportMeter.FileTree.Build
import ImportMeter.Package.Workspace
import ImportMeter.Proofs.FileTree
import ImportMeter.Proofs.FileTree.Lookup

namespace ImportMeter

open Path (rooted stacked AreEntryNames IsEntryName)

variable {tree : FileTree} {start file directory : Path} {manifest : Manifest} {names front : List Text}
  {name : Text} {holds : Path → Prop}

/-! ### The nearest directory -/

/-- The lowest of the directories that names lead to, one after the other from below the root, of which
something holds. -/
structure IsDeepest (names : List Text) (holds : Path → Prop) (front : List Text) : Prop where
  filled : front ≠ []
  above : front <+: names
  isHeld : holds (rooted front)
  isLowest : ∀ other, other ≠ [] → other <+: names → holds (rooted other) → other <+: front

namespace IsDeepest

theorem unique {other : List Text} (deepest : IsDeepest names holds front)
    (alsoDeepest : IsDeepest names holds other) : front = other :=
  (alsoDeepest.isLowest front deepest.filled deepest.above deepest.isHeld).eq_of_length_le
    (deepest.isLowest other alsoDeepest.filled alsoDeepest.above alsoDeepest.isHeld).length_le

theorem self (filled : names ≠ []) (isHeld : holds (rooted names)) : IsDeepest names holds names :=
  ⟨filled, List.prefix_refl names, isHeld, fun _ _ isPrefix _ => isPrefix⟩

/-- Where nothing holds of the last directory, the search goes on above it. -/
theorem concat_iff (notHeld : ¬ holds (rooted (names ++ [name]))) :
    IsDeepest (names ++ [name]) holds front ↔ IsDeepest names holds front := by
  have above : ∀ other, holds (rooted other) → (other <+: names ++ [name] ↔ other <+: names) := by
    intro other isHeld
    rw [List.prefix_concat_iff]
    refine or_iff_right ?_
    rintro rfl
    exact notHeld isHeld
  constructor
  · intro deepest
    refine ⟨deepest.filled, (above front deepest.isHeld).mp deepest.above, deepest.isHeld, ?_⟩
    exact fun other filled isPrefix isHeld =>
      deepest.isLowest other filled ((above other isHeld).mpr isPrefix) isHeld
  · intro deepest
    refine ⟨deepest.filled, (above front deepest.isHeld).mpr deepest.above, deepest.isHeld, ?_⟩
    exact fun other filled isPrefix isHeld =>
      deepest.isLowest other filled ((above other isHeld).mp isPrefix) isHeld

end IsDeepest

/-- The directories that a search meets from the end of some names, the nearest first. -/
def directoriesAbove (names : List Text) : List Path :=
  (rooted names).ancestors.filter fun directory => directory.parent?.isSome

theorem directoriesAbove_concat (areNames : AreEntryNames (names ++ [name])) :
    directoriesAbove (names ++ [name]) = rooted (names ++ [name]) :: directoriesAbove names := by
  have asStack : ∀ names : List Text, rooted names = stacked names.reverse := by
    intro names
    rw [stacked, List.reverse_reverse]
  have areStacked : AreEntryNames (name :: names.reverse) := by
    intro other member
    exact areNames other (by simpa [or_comm] using member)
  rw [directoriesAbove, directoriesAbove, asStack, asStack names, List.reverse_append, List.reverse_singleton,
    List.singleton_append, Path.ancestors_stacked areStacked,
    Path.ancestors_stacked (List.forall_mem_cons.mp areStacked).2, List.tails_cons, List.map_cons]
  exact List.filter_cons_of_pos (by rw [Path.parent?_stacked_cons areStacked]; rfl)

theorem mem_directoriesAbove_iff (areNames : AreEntryNames names) :
    directory ∈ directoriesAbove names ↔ ∃ front, front ≠ [] ∧ front <+: names ∧ directory = rooted front := by
  induction names using List.reverseRecOn with
  | nil =>
      refine iff_of_false List.not_mem_nil ?_
      rintro ⟨front, filled, isPrefix, _⟩
      exact filled (List.prefix_nil.mp isPrefix)
  | append_singleton names name inductionHypothesis =>
      rw [directoriesAbove_concat areNames, List.mem_cons, inductionHypothesis areNames.front]
      constructor
      · rintro (rfl | ⟨front, filled, isPrefix, rfl⟩)
        · exact ⟨_, List.append_ne_nil_of_right_ne_nil _ (List.cons_ne_nil _ _), List.prefix_refl _, rfl⟩
        · exact ⟨front, filled, isPrefix.trans (List.prefix_append _ _), rfl⟩
      · rintro ⟨front, filled, isPrefix, rfl⟩
        rcases List.prefix_concat_iff.mp isPrefix with rfl | isPrefix
        · exact .inl rfl
        · exact .inr ⟨front, filled, isPrefix, rfl⟩

/-- What is found first belongs to the deepest directory in which something is found. -/
theorem findSome?_directoriesAbove {β : Type} {look : Path → Option β} {found : β}
    (areNames : AreEntryNames names) :
    (directoriesAbove names).findSome? look = some found ↔
      ∃ front, IsDeepest names (fun directory => (look directory).isSome = true) front ∧
        look (rooted front) = some found := by
  induction names using List.reverseRecOn with
  | nil =>
      refine iff_of_false nofun ?_
      rintro ⟨front, deepest, _⟩
      exact deepest.filled (List.prefix_nil.mp deepest.above)
  | append_singleton names name inductionHypothesis =>
      rw [directoriesAbove_concat areNames, List.findSome?_cons]
      cases here : look (rooted (names ++ [name])) with
      | none =>
          have further : ∀ front,
              IsDeepest (names ++ [name]) (fun directory => (look directory).isSome = true) front ↔
                IsDeepest names (fun directory => (look directory).isSome = true) front :=
            fun front => IsDeepest.concat_iff (by simp [here])
          simp only [further]
          exact inductionHypothesis areNames.front
      | some first =>
          have deepest : IsDeepest (names ++ [name]) (fun directory => (look directory).isSome = true)
              (names ++ [name]) := .self (by simp) (by simp [here])
          constructor
          · intro same
            obtain rfl := Option.some.inj same
            exact ⟨_, deepest, here⟩
          · rintro ⟨front, alsoDeepest, isFound⟩
            rw [alsoDeepest.unique deepest, here] at isFound
            exact isFound

/-- The names that lead from the root to a path. -/
def FileTree.namesOf (tree : FileTree) (path : Path) : List Text :=
  FileTree.locationOf (path.absolutize tree.workingDirectory)

/-- A path made absolute is that of its names. -/
theorem FileTree.absolutize_eq_rooted (absolute : tree.workingDirectory.isAbsolute = true) (path : Path) :
    AreEntryNames (tree.namesOf path) ∧
      path.absolutize tree.workingDirectory = rooted (tree.namesOf path) := by
  obtain ⟨names, areNames, isPath⟩ := Path.exists_absolutize_eq_rooted absolute path
  have same : tree.namesOf path = names := by
    rw [namesOf, isPath, locationOf, Path.components_rooted areNames]
    simp [List.filterMap_map]
  exact ⟨same ▸ areNames, same ▸ isPath⟩

theorem FileTree.searchPath_eq (absolute : tree.workingDirectory.isAbsolute = true) (path : Path) :
    tree.searchPath path = directoriesAbove (tree.namesOf path) := by
  rw [searchPath, (absolutize_eq_rooted absolute path).2, directoriesAbove]

/-! ### The nearest manifest -/

namespace Manifest

/-- The manifest of a file is that of its text. -/
theorem ofFile_eq_ok_iff :
    ofFile tree file = .ok manifest ↔ ∃ text, tree.readText file = .ok text ∧ read text = .ok manifest := by
  rw [ofFile]
  cases tree.readText file with
  | error fault => simp
  | ok text =>
      cases isRead : read text <;> simp [isRead]

theorem isEntryName_fileName : IsEntryName fileName := ⟨by decide, by decide, by decide, by decide⟩

/-- True for the manifest that the file in a directory spells. -/
def HasManifest (tree : FileTree) (directory : Path) (manifest : Manifest) : Prop :=
  ofFile tree (directory.join ⟨fileName⟩) = .ok manifest

/-- A manifest in a file is found in the directory above it. -/
theorem isDirectory_of_ofFile (areNames : AreEntryNames names)
    (isRead : HasManifest tree (rooted names) manifest) : tree.isDirectory (rooted names) = true := by
  rw [HasManifest, Path.join_rooted_name areNames isEntryName_fileName] at isRead
  obtain ⟨text, isText, _⟩ := ofFile_eq_ok_iff.mp isRead
  obtain ⟨place, located, _⟩ := FileTree.readText_eq_ok_iff.mp isText
  have areAll := areNames.concat isEntryName_fileName
  obtain ⟨zeroless, short, leads⟩ := (FileTree.locate_rooted_eq_ok_iff areAll.slashless).mp located
  obtain ⟨last, unfollowed⟩ := FileTree.exists_resolve_unfollowed leads
  have isThere : tree.existsUnfollowed (rooted (names ++ [fileName])) = true :=
    FileTree.existsUnfollowed_iff.mpr
      ⟨last, (FileTree.locate_rooted_eq_ok_iff areAll.slashless).mpr ⟨zeroless, short, unfollowed⟩⟩
  obtain ⟨⟨entries, _, listed, _⟩, _⟩ := FileTree.exists_entry_of_existsUnfollowed areAll isThere
  rw [FileTree.isDirectory, listed]
  rfl

theorem isFile_of_ofFile (isRead : ofFile tree file = .ok manifest) : tree.isFile file = true := by
  obtain ⟨text, isText, _⟩ := ofFile_eq_ok_iff.mp isRead
  obtain ⟨place, located, isFile, _⟩ := FileTree.readText_eq_ok_iff.mp isText
  exact FileTree.isFile_iff.mpr (FileTree.node_eq_ok_iff.mpr ⟨place, located, isFile⟩)

/-- What a search from the end of some names is to find: the file that they name, if it holds a manifest, or else
the manifest in the nearest directory that has one. -/
inductive IsNearest (tree : FileTree) (names : List Text) : Path → Manifest → Prop
  | itself {manifest : Manifest} (isNamed : names.getLast? = some fileName)
      (isRead : ofFile tree (rooted names) = .ok manifest) : IsNearest tree names (rooted names) manifest
  | above {front : List Text} {manifest : Manifest}
      (notItself : names.getLast? = some fileName → ∀ other, ofFile tree (rooted names) ≠ .ok other)
      (deepest : IsDeepest names (fun directory => ∃ other, HasManifest tree directory other) front)
      (isHeld : HasManifest tree (rooted front) manifest) :
      IsNearest tree names ((rooted front).join ⟨fileName⟩) manifest

/-- True if the names lead to no manifest. -/
structure NoManifest (tree : FileTree) (names : List Text) : Prop where
  notItself : names.getLast? = some fileName → ∀ manifest, ofFile tree (rooted names) ≠ .ok manifest
  noneAbove : ∀ front, front ≠ [] → front <+: names → ∀ manifest, ¬ HasManifest tree (rooted front) manifest

theorem NoManifest.not_isNearest (noManifest : NoManifest tree names) :
    ¬ IsNearest tree names file manifest := by
  rintro (⟨isNamed, isRead⟩ | ⟨_, deepest, isHeld⟩)
  · exact noManifest.notItself isNamed _ isRead
  · exact noManifest.noneAbove _ deepest.filled deepest.above _ isHeld

/-- True if no directory on the way is called like a file with a manifest, and no such file in the root is on
the way to further names. -/
structure PlainlyNamed (tree : FileTree) (names : List Text) : Prop where
  noDirectory : ∀ front, front ++ [fileName] <+: names → tree.isDirectory (rooted (front ++ [fileName])) = false
  notThrough : [fileName] <+: names → names ≠ [fileName] → tree.isFile (rooted [fileName]) = false

theorem PlainlyNamed.of_notMem (free : fileName ∉ names) : PlainlyNamed tree names where
  noDirectory _ isPrefix := absurd (isPrefix.subset (List.mem_append_right _ List.mem_cons_self)) free
  notThrough isPrefix _ := absurd (isPrefix.subset List.mem_cons_self) free

theorem IsNearest.unique {other : Path} {otherManifest : Manifest} (nearest : IsNearest tree names file manifest)
    (alsoNearest : IsNearest tree names other otherManifest) : file = other ∧ manifest = otherManifest := by
  cases nearest with
  | itself isNamed isRead =>
      cases alsoNearest with
      | itself _ alsoRead => exact ⟨rfl, Except.ok.inj (isRead.symm.trans alsoRead)⟩
      | above notItself _ _ => exact absurd isRead (notItself isNamed _)
  | above notItself deepest isHeld =>
      cases alsoNearest with
      | itself isNamed isRead => exact absurd isRead (notItself isNamed _)
      | above _ alsoDeepest alsoHeld =>
          obtain rfl := deepest.unique alsoDeepest
          exact ⟨rfl, Except.ok.inj (Eq.trans (Eq.symm isHeld) alsoHeld)⟩

theorem candidate_rooted (areNames : AreEntryNames names) (filled : names ≠ []) :
    candidate (rooted names) =
      if names.getLast? = some fileName then rooted names else (rooted names).join ⟨fileName⟩ := by
  obtain ⟨front, last, rfl⟩ := (List.eq_nil_or_concat' names).resolve_left filled
  rw [candidate, Path.fileName?_rooted_concat areNames, List.getLast?_concat]

/-- What is tried is the manifest of a directory on the way. -/
theorem exists_candidate_eq_join (areNames : AreEntryNames names) (filled : names ≠ []) :
    ∃ upper, upper <+: names ∧ candidate (rooted names) = (rooted upper).join ⟨fileName⟩ := by
  rw [candidate_rooted areNames filled]
  split
  next isNamed =>
    obtain ⟨upper, rfl⟩ := List.getLast?_eq_some_iff.mp isNamed
    exact ⟨upper, List.prefix_append _ _, (Path.join_rooted_name areNames.front isEntryName_fileName).symm⟩
  next => exact ⟨names, List.prefix_refl _, rfl⟩

theorem usable?_eq_some_iff :
    usable? tree directory = some (file, manifest) ↔
      file = candidate directory ∧ ofFile tree (candidate directory) = .ok manifest := by
  rw [usable?]
  cases ofFile tree (candidate directory) with
  | error error => simp
  | ok other => simp [eq_comm]

theorem usable?_itself (areNames : AreEntryNames names) (isNamed : names.getLast? = some fileName)
    (isRead : ofFile tree (rooted names) = .ok manifest) :
    usable? tree (rooted names) = some (rooted names, manifest) := by
  have filled : names ≠ [] := fun none => by simp [none] at isNamed
  rw [usable?_eq_some_iff, candidate_rooted areNames filled, if_pos isNamed]
  exact ⟨rfl, isRead⟩

section Search

variable (areNames : AreEntryNames names) (plain : PlainlyNamed tree names)

include areNames plain

/-- A directory with a manifest is not called like the file, and so its manifest is met. -/
theorem PlainlyNamed.usable?_eq_some (filled : front ≠ []) (isPrefix : front <+: names)
    (isHeld : HasManifest tree (rooted front) manifest) :
    front.getLast? ≠ some fileName ∧
      usable? tree (rooted front) = some ((rooted front).join ⟨fileName⟩, manifest) := by
  have areFront : AreEntryNames front := areNames.subset isPrefix.subset
  have notNamed : front.getLast? ≠ some fileName := by
    intro isNamed
    obtain ⟨upper, rfl⟩ := List.getLast?_eq_some_iff.mp isNamed
    have notDirectory := plain.noDirectory upper isPrefix
    rw [isDirectory_of_ofFile areFront isHeld] at notDirectory
    cases notDirectory
  refine ⟨notNamed, usable?_eq_some_iff.mpr ?_⟩
  rw [candidate_rooted areFront filled, if_neg notNamed]
  exact ⟨rfl, isHeld⟩

/-- What is met first is the nearest manifest. -/
theorem PlainlyNamed.isNearest
    (deepest : IsDeepest names (fun directory => (usable? tree directory).isSome = true) front)
    (isFound : usable? tree (rooted front) = some (file, manifest)) : IsNearest tree names file manifest := by
  have areFront : AreEntryNames front := areNames.subset deepest.above.subset
  obtain ⟨isCandidate, isRead⟩ := usable?_eq_some_iff.mp isFound
  rw [candidate_rooted areFront deepest.filled] at isCandidate isRead
  -- A file that is itself the end of the names is met before anything else.
  have isEnd : names.getLast? = some fileName → ∀ other, ofFile tree (rooted names) = .ok other →
      front = names := by
    intro isNamed other isOther
    have filled : names ≠ [] := fun none => by simp [none] at isNamed
    refine deepest.above.eq_of_length_le (deepest.isLowest names filled (List.prefix_refl _) ?_).length_le
    rw [usable?_itself areNames isNamed isOther]
    rfl
  -- Directories with manifests are met.
  have isMet : ∀ other, other ≠ [] → other <+: names → (∃ held, HasManifest tree (rooted other) held) →
      other.getLast? ≠ some fileName ∧ other <+: front := by
    rintro other filled isPrefix ⟨held, isHeld⟩
    obtain ⟨notNamed, isUsable⟩ := plain.usable?_eq_some areNames filled isPrefix isHeld
    exact ⟨notNamed, deepest.isLowest other filled isPrefix (by simp [isUsable])⟩
  by_cases isNamed : front.getLast? = some fileName
  · rw [if_pos isNamed] at isCandidate isRead
    subst isCandidate
    by_cases whole : front = names
    · subst whole
      exact .itself isNamed isRead
    · -- The names lead on through a file, which is that of the directory above.
      obtain ⟨upper, rfl⟩ := List.getLast?_eq_some_iff.mp isNamed
      have isJoin := Path.join_rooted_name areFront.front isEntryName_fileName
      have filled : upper ≠ [] := by
        rintro rfl
        have notFile := plain.notThrough deepest.above (Ne.symm whole)
        rw [List.nil_append] at isRead
        rw [isFile_of_ofFile isRead] at notFile
        cases notFile
      have isHeld : HasManifest tree (rooted upper) manifest := by
        rw [HasManifest, isJoin]
        exact isRead
      have isPrefix : upper <+: names := (List.prefix_append upper _).trans deepest.above
      rw [← isJoin]
      refine .above (fun endsNamed other isOther => whole (isEnd endsNamed other isOther))
        ⟨filled, isPrefix, ⟨_, isHeld⟩, fun other filled isPrefix isHeld => ?_⟩ isHeld
      obtain ⟨notNamed, isPrefix⟩ := isMet other filled isPrefix isHeld
      refine (List.prefix_concat_iff.mp isPrefix).resolve_left fun same => notNamed ?_
      rw [same]
      exact isNamed
  · rw [if_neg isNamed] at isCandidate isRead
    subst isCandidate
    refine .above (fun endsNamed other isOther => isNamed ?_)
      ⟨deepest.filled, deepest.above, ⟨_, isRead⟩, ?_⟩ isRead
    · rw [isEnd endsNamed other isOther]
      exact endsNamed
    · exact fun other filled isPrefix isHeld => (isMet other filled isPrefix isHeld).2

/-- Where nothing is met, there is no manifest. -/
theorem PlainlyNamed.noManifest (noneMet : ∀ directory ∈ directoriesAbove names, usable? tree directory = none) :
    NoManifest tree names := by
  have isMet : ∀ front, front ≠ [] → front <+: names → usable? tree (rooted front) = none :=
    fun front filled isPrefix =>
      noneMet _ ((mem_directoriesAbove_iff areNames).mpr ⟨front, filled, isPrefix, rfl⟩)
  refine ⟨fun isNamed manifest isRead => ?_, fun front filled isPrefix manifest isHeld => ?_⟩
  · have filled : names ≠ [] := fun none => by simp [none] at isNamed
    have isUsable := usable?_itself areNames isNamed isRead
    rw [isMet names filled (List.prefix_refl _)] at isUsable
    cases isUsable
  · have isUsable := (plain.usable?_eq_some areNames filled isPrefix isHeld).2
    rw [isMet front filled isPrefix] at isUsable
    cases isUsable

end Search

section Find

variable (absolute : tree.workingDirectory.isAbsolute = true)
  (plain : PlainlyNamed tree (tree.namesOf start))

include absolute plain

theorem PlainlyNamed.find_eq_error_iff {error : Error} :
    find tree start = .error error ↔ error = .noManifestAbove start ∧ NoManifest tree (tree.namesOf start) := by
  have areNames := (FileTree.absolutize_eq_rooted absolute start).1
  rw [find, FileTree.searchPath_eq absolute]
  cases found : (directoriesAbove (tree.namesOf start)).findSome? (usable? tree) with
  | none =>
      have noManifest := plain.noManifest areNames (List.findSome?_eq_none_iff.mp found)
      constructor
      · exact fun same => ⟨(Except.error.inj same).symm, noManifest⟩
      · rintro ⟨rfl, _⟩
        rfl
  | some result =>
      refine iff_of_false nofun fun ⟨_, noManifest⟩ => ?_
      obtain ⟨front, deepest, isFound⟩ := (findSome?_directoriesAbove areNames).mp found
      exact noManifest.not_isNearest (plain.isNearest areNames deepest isFound)

theorem PlainlyNamed.find_eq_ok_iff :
    find tree start = .ok (file, manifest) ↔ IsNearest tree (tree.namesOf start) file manifest := by
  have areNames := (FileTree.absolutize_eq_rooted absolute start).1
  have isNearest : ∀ {file manifest}, find tree start = .ok (file, manifest) →
      IsNearest tree (tree.namesOf start) file manifest := by
    intro file manifest found
    rw [find, FileTree.searchPath_eq absolute] at found
    split at found
    next result isFirst =>
      obtain rfl := Except.ok.inj found
      obtain ⟨front, deepest, isFound⟩ := (findSome?_directoriesAbove areNames).mp isFirst
      exact plain.isNearest areNames deepest isFound
    next => cases found
  refine ⟨isNearest, fun nearest => ?_⟩
  cases found : find tree start with
  | error error => exact absurd nearest ((plain.find_eq_error_iff absolute).mp found).2.not_isNearest
  | ok result =>
      obtain ⟨rfl, rfl⟩ := nearest.unique (isNearest found)
      rfl

end Find

end Manifest

/-! ### The nearest root -/

namespace Workspace

open Manifest (HasManifest)

/-- True if the manifest in a directory declares workspaces. -/
def Declares (tree : FileTree) (directory : Path) : Prop :=
  ∃ manifest, HasManifest tree directory manifest ∧ manifest.patterns ≠ []

theorem isRoot_iff :
    isRoot tree directory = true ↔ tree.isFile (directory.join ⟨Manifest.fileName⟩) = true ∧
      ∃ manifest, Manifest.ofFile tree (directory.join ⟨Manifest.fileName⟩) = .ok manifest ∧
        manifest.declaresWorkspaces = true := by
  rw [isRoot, manifestIn?]
  cases tree.isFile (directory.join ⟨Manifest.fileName⟩) with
  | false => simp
  | true => cases Manifest.ofFile tree (directory.join ⟨Manifest.fileName⟩) <;> simp

theorem isRoot_iff_declares : isRoot tree directory = true ↔ Declares tree directory := by
  rw [isRoot_iff]
  constructor
  · rintro ⟨_, manifest, isRead, declares⟩
    exact ⟨manifest, isRead, by simpa [Manifest.declaresWorkspaces] using declares⟩
  · rintro ⟨manifest, isRead, some⟩
    exact ⟨Manifest.isFile_of_ofFile isRead, manifest, isRead,
      by simpa [Manifest.declaresWorkspaces] using some⟩

theorem find?_isRoot (absolute : tree.workingDirectory.isAbsolute = true) {root : Path} :
    (tree.searchPath start).find? (isRoot tree) = some root ↔
      ∃ front, IsDeepest (tree.namesOf start) (Declares tree) front ∧ root = rooted front := by
  have areNames := (FileTree.absolutize_eq_rooted absolute start).1
  have isHeld : (fun directory => (Option.guard (isRoot tree) directory).isSome = true) = Declares tree :=
    funext fun directory => propext (by rw [Option.isSome_guard, isRoot_iff_declares])
  rw [FileTree.searchPath_eq absolute, List.find?_eq_findSome?_guard, findSome?_directoriesAbove areNames,
    isHeld]
  refine exists_congr fun front => and_congr_right fun deepest => ?_
  rw [Option.guard_eq_some_iff]
  constructor
  · rintro ⟨rfl, _⟩
    rfl
  · rintro rfl
    exact ⟨rfl, isRoot_iff_declares.mpr deepest.isHeld⟩

theorem find?_isRoot_eq_none (absolute : tree.workingDirectory.isAbsolute = true) :
    (tree.searchPath start).find? (isRoot tree) = none ↔
      ∀ front, front ≠ [] → front <+: tree.namesOf start → ¬ Declares tree (rooted front) := by
  have areNames := (FileTree.absolutize_eq_rooted absolute start).1
  rw [FileTree.searchPath_eq absolute, List.find?_eq_none]
  simp only [isRoot_iff_declares, mem_directoriesAbove_iff areNames]
  constructor
  · exact fun none front filled isPrefix => none _ ⟨front, filled, isPrefix, rfl⟩
  · rintro none _ ⟨front, filled, isPrefix, rfl⟩
    exact none front filled isPrefix

/-! ### Both searches -/

/-- Two trees in which the directories at and above a path have the same manifests, those that cannot be read
left aside. -/
structure SameManifests (first second : FileTree) (start : Path) : Prop where
  workingDirectory : second.workingDirectory = first.workingDirectory
  manifests : ∀ front, front <+: first.namesOf start →
    ∀ manifest, HasManifest second (rooted front) manifest ↔ HasManifest first (rooted front) manifest

variable {other : FileTree}

theorem SameManifests.searchPath (same : SameManifests tree other start) :
    other.searchPath start = tree.searchPath start := by
  rw [FileTree.searchPath, FileTree.searchPath, same.workingDirectory]

theorem SameManifests.find (same : SameManifests tree other start)
    (absolute : tree.workingDirectory.isAbsolute = true) :
    Manifest.find other start = Manifest.find tree start := by
  have areNames := (FileTree.absolutize_eq_rooted absolute start).1
  have alike : ∀ directory ∈ tree.searchPath start,
      Manifest.usable? other directory = Manifest.usable? tree directory := by
    intro directory member
    rw [FileTree.searchPath_eq absolute] at member
    obtain ⟨front, filled, isPrefix, rfl⟩ := (mem_directoriesAbove_iff areNames).mp member
    obtain ⟨upper, isUpper, isJoin⟩ :=
      Manifest.exists_candidate_eq_join (areNames.subset isPrefix.subset) filled
    refine Option.ext fun (file, manifest) => ?_
    rw [Manifest.usable?_eq_some_iff, Manifest.usable?_eq_some_iff, isJoin]
    exact and_congr_right fun _ => same.manifests upper (isUpper.trans isPrefix) manifest
  rw [Manifest.find, Manifest.find, same.searchPath, ← List.head?_filterMap, ← List.head?_filterMap,
    List.filterMap_congr alike]

theorem SameManifests.findRoot (same : SameManifests tree other start)
    (absolute : tree.workingDirectory.isAbsolute = true) :
    Workspace.findRoot other start = Workspace.findRoot tree start := by
  have areNames := (FileTree.absolutize_eq_rooted absolute start).1
  have alike : ∀ directory ∈ tree.searchPath start, isRoot other directory = isRoot tree directory := by
    intro directory member
    rw [FileTree.searchPath_eq absolute] at member
    obtain ⟨front, filled, isPrefix, rfl⟩ := (mem_directoriesAbove_iff areNames).mp member
    rw [Bool.eq_iff_iff, isRoot_iff_declares, isRoot_iff_declares]
    exact exists_congr fun manifest => and_congr_left fun _ => same.manifests front isPrefix manifest
  rw [Workspace.findRoot, Workspace.findRoot, same.searchPath, List.find?_congr alike]

/-- Searches upwards always end, with what is nearest to where they start. The search for a manifest finds the
nearest one that can be read, if no directory is called like a file with a manifest. The search for a root finds
the nearest directory whose manifest declares workspaces, if it does not refuse where it starts. Neither is led
astray by manifests that cannot be read. -/
theorem searches_find_nearest (absolute : tree.workingDirectory.isAbsolute = true) (start : Path) :
    start.absolutize tree.workingDirectory = rooted (tree.namesOf start) ∧
    (Manifest.PlainlyNamed tree (tree.namesOf start) →
      (∀ file manifest, Manifest.find tree start = .ok (file, manifest) ↔
        Manifest.IsNearest tree (tree.namesOf start) file manifest) ∧
      ∀ error, Manifest.find tree start = .error error ↔
        error = .noManifestAbove start ∧ Manifest.NoManifest tree (tree.namesOf start)) ∧
    (start.letters ≠ [] → start.extension? = none →
      (∀ root, findRoot tree start = .ok (some root) ↔
        ∃ front, IsDeepest (tree.namesOf start) (Declares tree) front ∧ root = rooted front) ∧
      (findRoot tree start = .ok none ↔
        ∀ front, front ≠ [] → front <+: tree.namesOf start → ¬ Declares tree (rooted front))) ∧
    (start.letters = [] ∨ start.extension? ≠ none → findRoot tree start = .error (.notDirectoryName start)) ∧
    ∀ other, SameManifests tree other start →
      Manifest.find other start = Manifest.find tree start ∧ findRoot other start = findRoot tree start := by
  refine ⟨(FileTree.absolutize_eq_rooted absolute start).2,
    fun plain => ⟨fun file manifest => plain.find_eq_ok_iff absolute,
      fun error => plain.find_eq_error_iff absolute⟩,
    fun filled plain => ?_, fun refused => ?_,
    fun other same => ⟨same.find absolute, same.findRoot absolute⟩⟩
  · have accepted : isStart start = true := by simp [isStart, filled, plain]
    rw [findRoot, if_pos accepted]
    refine ⟨fun root => ?_, ?_⟩
    · rw [Except.ok.injEq]
      exact find?_isRoot absolute
    · rw [Except.ok.injEq]
      exact find?_isRoot_eq_none absolute
  · have notStart : isStart start = false := by
      rcases refused with empty | extended <;> simp [isStart, *]
    rw [findRoot, notStart]
    rfl

/-- A workspace with a package whose manifest is broken. -/
def brokenTree : FileTree :=
  (FileTree.empty.putFile ["ws".toList, Manifest.fileName]
    ⟨.text "\x7b\"workspaces\": [\"app\"]\x7d".toList, true, true⟩).putFile
      ["ws".toList, "app".toList, Manifest.fileName] ⟨.text "\x7b".toList, true, true⟩

/-- The broken manifest is passed, on the way to a manifest and on the way to a root. -/
theorem searches_find_nearest_brokenTree :
    let start : Path := ⟨"/ws/app/src".toList⟩
    let manifest : Manifest := ⟨none, none, some (.listed ["app".toList])⟩
    brokenTree.workingDirectory.isAbsolute = true ∧ Manifest.PlainlyNamed brokenTree (brokenTree.namesOf start) ∧
      Manifest.IsNearest brokenTree (brokenTree.namesOf start) ⟨"/ws/package.json".toList⟩ manifest ∧
      ∃ front, IsDeepest (brokenTree.namesOf start) (Declares brokenTree) front ∧
        ⟨"/ws".toList⟩ = rooted front := by
  intro start manifest
  have absolute : brokenTree.workingDirectory.isAbsolute = true := by decide +kernel
  have free : Manifest.fileName ∉ brokenTree.namesOf start := by decide +kernel
  have plain : Manifest.PlainlyNamed brokenTree (brokenTree.namesOf start) := .of_notMem free
  have found : Manifest.find brokenTree start = .ok (⟨"/ws/package.json".toList⟩, manifest) :=
    toOption_eq_some_iff.mp (by decide +kernel)
  have foundRoot : findRoot brokenTree start = .ok (some ⟨"/ws".toList⟩) :=
    toOption_eq_some_iff.mp (by decide +kernel)
  obtain ⟨_, ofFind, ofRoot, _, _⟩ := searches_find_nearest absolute start
  exact ⟨absolute, plain, ((ofFind plain).1 _ _).mp found,
    ((ofRoot (by decide +kernel) (by decide +kernel)).1 _).mp foundRoot⟩

/-- A workspace with a manifest in a directory that is called like the file. -/
def namesakeTree : FileTree :=
  { (FileTree.empty.putFile ["ws".toList, Manifest.fileName]
      ⟨.text "\x7b\"workspaces\": [\"app\"]\x7d".toList, true, true⟩).putFile
        ["ws".toList, "app".toList, Manifest.fileName, Manifest.fileName]
          ⟨.text "\x7b\x7d".toList, true, true⟩ with
    workingDirectory := ⟨"/ws".toList⟩ }

/-- The manifest in a directory that is called like the file is passed, and from the empty path, which has no
extension, no root is found. -/
theorem searches_find_nearest_namesakeTree :
    (¬ ∀ (tree : FileTree) (start : Path), tree.workingDirectory.isAbsolute = true →
      ∀ file manifest, Manifest.find tree start = .ok (file, manifest) ↔
        Manifest.IsNearest tree (tree.namesOf start) file manifest) ∧
    ¬ ∀ (tree : FileTree) (start : Path), tree.workingDirectory.isAbsolute = true → start.extension? = none →
      ∀ root, findRoot tree start = .ok (some root) ↔
        ∃ front, IsDeepest (tree.namesOf start) (Declares tree) front ∧ root = rooted front := by
  have absolute : namesakeTree.workingDirectory.isAbsolute = true := by decide +kernel
  refine ⟨fun claim => ?_, fun claim => ?_⟩
  · let front : List Text := ["ws".toList, "app".toList, Manifest.fileName]
    have isStart : namesakeTree.namesOf ⟨"/ws/app/package.json/src".toList⟩ = front ++ ["src".toList] := by
      decide +kernel
    have isHeld : HasManifest namesakeTree (rooted front) ⟨none, none, none⟩ :=
      toOption_eq_some_iff.mp (by decide +kernel)
    have noneBelow : (Manifest.ofFile namesakeTree
        ((rooted (front ++ ["src".toList])).join ⟨Manifest.fileName⟩)).toOption = none := by decide +kernel
    have notHeld : ¬ ∃ other, HasManifest namesakeTree (rooted (front ++ ["src".toList])) other := by
      rintro ⟨other, isRead⟩
      rw [toOption_eq_some_iff.mpr isRead] at noneBelow
      cases noneBelow
    have deepest : IsDeepest (front ++ ["src".toList])
        (fun directory => ∃ other, HasManifest namesakeTree directory other) front :=
      (IsDeepest.concat_iff notHeld).mpr (.self (List.cons_ne_nil _ _) ⟨_, isHeld⟩)
    have nearest : Manifest.IsNearest namesakeTree (front ++ ["src".toList])
        ((rooted front).join ⟨Manifest.fileName⟩) ⟨none, none, none⟩ :=
      .above (fun isNamed => absurd isNamed (by decide +kernel)) deepest isHeld
    have found := (claim namesakeTree ⟨"/ws/app/package.json/src".toList⟩ absolute _ _).mpr (isStart ▸ nearest)
    have passed : (Manifest.find namesakeTree ⟨"/ws/app/package.json/src".toList⟩).toOption =
        some (⟨"/ws/package.json".toList⟩, ⟨none, none, some (.listed ["app".toList])⟩) := by decide +kernel
    rw [toOption_eq_some_iff.mpr found] at passed
    revert passed
    decide +kernel
  · have isStart : namesakeTree.namesOf ⟨[]⟩ = ["ws".toList] := by decide +kernel
    have declares : Declares namesakeTree (rooted ["ws".toList]) :=
      isRoot_iff_declares.mp (by decide +kernel)
    have deepest : IsDeepest ["ws".toList] (Declares namesakeTree) ["ws".toList] :=
      .self (List.cons_ne_nil _ _) declares
    have found := (claim namesakeTree ⟨[]⟩ absolute (by decide +kernel) _).mpr ⟨_, isStart ▸ deepest, rfl⟩
    have refused : (findRoot namesakeTree ⟨[]⟩).toOption = none := by decide +kernel
    rw [toOption_eq_some_iff.mpr found] at refused
    cases refused

end Workspace

end ImportMeter
