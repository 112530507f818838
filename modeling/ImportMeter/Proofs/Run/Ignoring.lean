/-
This file says why a file is missing from what is collected: some pattern stands for an entry on the way down
to it, or for a child that the entry need not have.
-/
import ImportMeter.Proofs.Run.Collection

namespace ImportMeter.Selection

open Glob (Pattern matchesText endsBefore)
open Path (AreEntryNames)

variable {tree : FileTree} {selection : Selection} {patterns : List Pattern} {pattern : Pattern}
  {paths files : List Path} {path : Path} {entries : List (Text × Node)} {location front : Location}
  {isDirectory : Prop}

/-- True if a pattern stands for an entry: for its path or its name, as those of a file or of a directory, or
for all that a directory may hold. -/
def StandsFor (pattern : Pattern) (path : Path) (isDirectory : Prop) : Prop :=
  (∃ text ∈ [path.letters, path.fileName?.getD []],
      matchesText pattern text = true ∨ matchesText pattern (text ++ ['/']) = true) ∨
    isDirectory ∧ ∀ names, names ≠ [] → AreEntryNames names →
      matchesText pattern (path.below names).letters = true

theorem isIgnored_iff :
    isIgnored patterns path = true ↔
      ∃ pattern ∈ patterns, ∃ text ∈ aspects path, matchesText pattern text = true := by
  rw [isIgnored, List.any_eq_true]
  exact exists_congr fun pattern => and_congr_right fun _ => List.any_eq_true

/-- A pattern that cannot end in the name of the child that is tried stands for what it makes passed over. -/
theorem StandsFor.of_aspect {text : Text} (ends : endsBefore 'x' pattern = true)
    (isAspect : text ∈ aspects path) (isMatch : matchesText pattern text = true) : StandsFor pattern path isDirectory := by
  have isPath : path.letters ∈ [path.letters, path.fileName?.getD []] := List.mem_cons_self
  have isName : path.fileName?.getD [] ∈ [path.letters, path.fileName?.getD []] :=
    List.mem_cons_of_mem _ List.mem_cons_self
  simp only [aspects, List.mem_cons, List.not_mem_nil, or_false] at isAspect
  rcases isAspect with rfl | rfl | rfl | rfl
  · exact .inl ⟨_, isPath, .inl isMatch⟩
  · exact .inl ⟨_, isPath, .inr isMatch⟩
  · exact .inl ⟨_, isPath, .inr (Glob.matchesText_of_child ends isMatch)⟩
  · exact .inl ⟨_, isName, .inl isMatch⟩

/-- A file with one of the extensions is missing from a walk if an entry on the way down to it is passed over,
and only then. -/
theorem notMem_walkEntries_iff (wellNamed : (Node.directory entries).isWellNamed = true)
    (ordered : (Node.directory entries).isOrdered = true) {extensions : List Text}
    (isFile : (Node.directory entries).at? location = some .file)
    (selected : isSelected extensions (path.below location) = true) :
    path.below location ∉ walkEntries patterns extensions path entries ↔
      ∃ front, front ≠ [] ∧ front <+: location ∧ isIgnored patterns (path.below front) = true := by
  have isWalk := walk_eq patterns extensions path (.directory entries)
  rw [walk] at isWalk
  have areNames : ∀ location, (Node.directory entries).at? location = some .file → AreEntryNames location :=
    fun location isFile => Node.areEntryNames_of_at? wellNamed isFile
  have taken : path.below location ∈ walkEntries patterns extensions path entries ↔
      isReached patterns path location = true := by
    rw [isWalk, List.mem_map]
    constructor
    · rintro ⟨other, member, same⟩
      obtain ⟨isOther, isTaken⟩ := List.mem_filter.mp member
      have isOther := (Node.mem_files_iff ordered).mp isOther
      obtain rfl := Path.below_injective (areNames other isOther) (areNames location isFile) same
      exact (Bool.and_eq_true_iff.mp isTaken).1
    · intro reached
      exact ⟨location, List.mem_filter.mpr
        ⟨Node.mem_files_of_at? isFile, Bool.and_eq_true_iff.mpr ⟨reached, selected⟩⟩, rfl⟩
  rw [taken, isReached_iff]
  simp only [not_forall, Bool.not_eq_false, exists_prop]

/-- What a listed directory is walked to is collected. -/
theorem walkEntries_subset_of_collect (compiled : compile selection.ignored = .ok patterns)
    (collected : selection.collect tree paths = .ok files) (isListed : path ∈ paths)
    (isDirectory : tree.entries? path = some entries) :
    walkEntries patterns selection.extensions path entries ⊆ files := by
  rw [collect_eq compiled] at collected
  cases each : paths.mapM (collectOne tree patterns selection.extensions) with
  | error error =>
      rw [each] at collected
      cases collected
  | ok lists =>
      rw [each] at collected
      obtain rfl := Except.ok.inj collected
      obtain ⟨list, isList, ofPath⟩ := exists_result_of_mem each isListed
      have isWalk : collectOne tree patterns selection.extensions path =
          .ok (walkEntries patterns selection.extensions path entries) := by
        obtain ⟨place, located, isAt⟩ := FileTree.entries?_eq_some_iff.mp isDirectory
        rw [collectOne, FileTree.node_eq_ok_iff.mpr ⟨place, located, isAt⟩]
      obtain rfl := Except.ok.inj (isWalk.symm.trans ofPath)
      exact fun file member => List.mem_flatten.mpr ⟨_, isList, member⟩

/-- A file below a listed directory, with one of the extensions, is missing from what that directory is walked
to only if a pattern stands for one of the aspects of an entry on the way. Where no pattern can end in the name
of the child that is tried, it is missing from all that is collected only if a pattern stands for the file
itself or for a directory above it. -/
theorem collect_misses (wellNamed : tree.WellNamed) (ordered : tree.Ordered)
    (compiled : compile selection.ignored = .ok patterns) (collected : selection.collect tree paths = .ok files)
    (isListed : path ∈ paths) (isDirectory : tree.entries? path = some entries)
    (isFile : (Node.directory entries).at? location = some .file)
    (selected : isSelected selection.extensions (path.below location) = true) :
    (path.below location ∉ walkEntries patterns selection.extensions path entries ↔
      ∃ front, front ≠ [] ∧ front <+: location ∧
        ∃ pattern ∈ patterns, ∃ text ∈ aspects (path.below front), matchesText pattern text = true) ∧
    ((∀ pattern ∈ patterns, endsBefore 'x' pattern = true) → path.below location ∉ files →
      ∃ front, front ≠ [] ∧ front <+: location ∧
        ∃ pattern ∈ patterns, StandsFor pattern (path.below front) (front ≠ location)) := by
  obtain ⟨place, _, isAt⟩ := FileTree.entries?_eq_some_iff.mp isDirectory
  have missing : path.below location ∉ walkEntries patterns selection.extensions path entries ↔
      ∃ front, front ≠ [] ∧ front <+: location ∧ isIgnored patterns (path.below front) = true :=
    notMem_walkEntries_iff (Node.isWellNamed_of_at? wellNamed isAt) (Node.isOrdered_of_at? ordered isAt) isFile
      selected
  simp only [isIgnored_iff] at missing
  refine ⟨missing, fun ends notCollected => ?_⟩
  have isWalked := walkEntries_subset_of_collect compiled collected isListed isDirectory
  obtain ⟨front, filled, isPrefix, pattern, isPattern, text, isAspect, isMatch⟩ :=
    missing.mp fun member => notCollected (isWalked member)
  exact ⟨front, filled, isPrefix, pattern, isPattern, .of_aspect (ends pattern isPattern) isAspect isMatch⟩

/-- A script next to a directory with another one. -/
def appEntries : List (Text × Node) :=
  [("a.js".toList, .file), ("lib".toList, .directory [("b.js".toList, .file)])]

def appTree : FileTree :=
  ⟨.directory [("app".toList, .directory appEntries)], fun _ => ⟨.text [], true, true⟩, ⟨['/']⟩⟩

theorem entries?_appTree : appTree.entries? ⟨"app".toList⟩ = some appEntries :=
  FileTree.entries?_eq_some_iff.mpr ⟨["app".toList], toOption_eq_some_iff.mp (by decide +kernel), rfl⟩

/-- Patterns for a directory and for names leave the other files alone. -/
theorem collect_misses_appTree :
    let selection : Selection := { default with ignored := ["**/lib/**".toList, "*.test.*".toList] }
    let patterns := [Glob.insideOf "lib".toList, .anyRun :: (".test.".toList.map .letter ++ [.anyRun])]
    let location : Location := ["lib".toList, "b.js".toList]
    compile selection.ignored = .ok patterns ∧ appTree.WellNamed ∧ appTree.Ordered ∧
      selection.collect appTree [⟨"app".toList⟩] = .ok [⟨"app/a.js".toList⟩] ∧
      isSelected selection.extensions (Path.below ⟨"app".toList⟩ location) = true ∧
      (∀ pattern ∈ patterns, endsBefore 'x' pattern = true) ∧
      ∃ front, front ≠ [] ∧ front <+: location ∧
        ∃ pattern ∈ patterns, StandsFor pattern (Path.below ⟨"app".toList⟩ front) (front ≠ location) := by
  intro selection patterns location
  have compiled : compile selection.ignored = .ok patterns := toOption_eq_some_iff.mp (by decide +kernel)
  have wellNamed : appTree.WellNamed := by decide +kernel
  have ordered : appTree.Ordered := by decide +kernel
  have collected : selection.collect appTree [⟨"app".toList⟩] = .ok [⟨"app/a.js".toList⟩] :=
    toOption_eq_some_iff.mp (by decide +kernel)
  have selected : isSelected selection.extensions (Path.below ⟨"app".toList⟩ location) = true := by
    decide +kernel
  have ends : ∀ pattern ∈ patterns, endsBefore 'x' pattern = true := by decide +kernel
  have isMissing : Path.below ⟨"app".toList⟩ location ∉ [⟨"app/a.js".toList⟩] := by decide +kernel
  have isFile : (Node.directory appEntries).at? location = some .file := rfl
  have misses := collect_misses wellNamed ordered compiled collected List.mem_cons_self entries?_appTree isFile
    selected
  exact ⟨compiled, wellNamed, ordered, collected, selected, ends, misses.2 ends isMissing⟩

/-- A pattern for a file called `x` drops every directory, as each of them is tried with such a child. -/
theorem collect_misses_childName :
    ¬ ∀ (tree : FileTree) (selection : Selection) (patterns : List Pattern) (paths files : List Path)
      (path : Path) (entries : List (Text × Node)) (location : Location),
      tree.WellNamed → tree.Ordered → compile selection.ignored = .ok patterns →
      selection.collect tree paths = .ok files → path ∈ paths → tree.entries? path = some entries →
      (Node.directory entries).at? location = some .file →
      isSelected selection.extensions (path.below location) = true → path.below location ∉ files →
      ∃ front, front ≠ [] ∧ front <+: location ∧
        ∃ pattern ∈ patterns, StandsFor pattern (path.below front) (front ≠ location) := by
  intro claim
  let selection : Selection := { default with ignored := ["**/x".toList] }
  let location : Location := ["lib".toList, "b.js".toList]
  have compiled : compile selection.ignored = .ok [[.anyDirectories, .letter 'x']] :=
    toOption_eq_some_iff.mp (by decide +kernel)
  have collected : selection.collect appTree [⟨"app".toList⟩] = .ok [] :=
    toOption_eq_some_iff.mp (by decide +kernel)
  obtain ⟨front, filled, isPrefix, pattern, isPattern, stands⟩ :=
    claim appTree selection _ [⟨"app".toList⟩] [] ⟨"app".toList⟩ appEntries location (by decide +kernel)
      (by decide +kernel) compiled collected List.mem_cons_self entries?_appTree rfl (by decide +kernel)
      List.not_mem_nil
  obtain rfl := List.mem_singleton.mp isPattern
  have isFront : front = ["lib".toList] ∨ front = location := by
    have inInits := (List.mem_inits front location).mpr isPrefix
    simpa [location, filled] using inInits
  rcases stands with ⟨text, isText, isMatch⟩ | ⟨_, all⟩
  · have noMatch : ∀ front ∈ [["lib".toList], location],
        ∀ text ∈ [(Path.below ⟨"app".toList⟩ front).letters,
            (Path.below ⟨"app".toList⟩ front).fileName?.getD []],
          matchesText [.anyDirectories, .letter 'x'] text = false ∧
            matchesText [.anyDirectories, .letter 'x'] (text ++ ['/']) = false := by decide +kernel
    have none := noMatch front (by simpa using isFront) text isText
    simp [none.1, none.2] at isMatch
  · have isName : AreEntryNames ["y".toList] :=
      List.forall_mem_singleton.mpr ⟨by decide, by decide, by decide, by decide⟩
    have isMatch := all ["y".toList] (List.cons_ne_nil _ _) isName
    have noMatch : ∀ front ∈ [["lib".toList], location], matchesText [.anyDirectories, .letter 'x']
        ((Path.below ⟨"app".toList⟩ front).below ["y".toList]).letters = false := by decide +kernel
    rw [noMatch front (by simpa using isFront)] at isMatch
    cases isMatch

end ImportMeter.Selection
