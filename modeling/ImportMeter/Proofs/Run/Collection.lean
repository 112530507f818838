/-
This file says which files a run collects: every file that is named, and of each directory the files below
it that no ignored entry stands above, in the order of the names. If nothing is configured, these are the
scripts outside of `node_modules`.
-/
import Mathlib.Data.List.Nodup
import ImportMeter.Instrument.Collect
import ImportMeter.Proofs.FileTree.Files
import ImportMeter.Proofs.Glob.Entry
import ImportMeter.Proofs.Path.Below

namespace ImportMeter

namespace Path

/-- What follows the last dot is the extension, unless that dot begins the name. -/
theorem extensionOf?_append {extension : Text} (stem : Text) (free : '.' ∉ extension) :
    extensionOf? (stem ++ '.' :: extension) = if stem = [] then none else some extension := by
  rw [extensionOf?, Text.splitOn_append, Text.splitOn_of_notMem free, List.reverse_append,
    List.reverse_singleton, List.singleton_append]
  split_ifs with empty
  · rw [empty]
    rfl
  · have joined := Text.joinWith_splitOn '.' stem
    cases reversed : (Text.splitOn '.' stem).reverse with
    | nil => exact absurd (List.reverse_eq_nil_iff.mp reversed) (Text.splitOn_ne_nil _ _)
    | cons last others =>
        split
        next impossible => cases impossible
        next impossible => cases impossible
        next single =>
          -- A stem of one empty piece would be empty.
          obtain ⟨rfl, rfl⟩ := List.cons.inj (List.cons.inj single).2
          rw [List.reverse_eq_cons_iff.mp reversed] at joined
          exact absurd joined.symm empty
        next same => rw [(List.cons.inj same).1]

theorem extensionOf?_eq_some_iff {name extension : Text} :
    extensionOf? name = some extension ↔
      ∃ stem, stem ≠ [] ∧ '.' ∉ extension ∧ name = stem ++ '.' :: extension := by
  constructor
  · intro isExtension
    by_cases dotted : '.' ∈ name.reverse
    · obtain ⟨back, front, split, free⟩ := List.eq_append_cons_of_mem dotted
      obtain rfl : name = front.reverse ++ '.' :: back.reverse := by
        rw [← List.reverse_reverse name, split]
        simp
      rw [extensionOf?_append _ (mt List.mem_reverse.mp free)] at isExtension
      split_ifs at isExtension with empty
      cases isExtension
      exact ⟨front.reverse, empty, mt List.mem_reverse.mp free, rfl⟩
    · rw [extensionOf?, Text.splitOn_of_notMem (mt List.mem_reverse.mpr dotted)] at isExtension
      cases isExtension
  · rintro ⟨stem, filled, free, rfl⟩
    rw [extensionOf?_append stem free, if_neg filled]

end Path

namespace Selection

variable {patterns : List Glob.Pattern} {extensions : List Text} {directory path : Path} {node : Node}
  {entries : List (Text × Node)} {location front : Location} {name : Text}

/-! ### Walking a directory -/

/-- True if nothing on the way down to a place is passed over. -/
def isReached (patterns : List Glob.Pattern) : Path → Location → Bool
  | _, [] => true
  | directory, name :: rest =>
    !isIgnored patterns (directory.join ⟨name⟩) && isReached patterns (directory.join ⟨name⟩) rest

/-- True for a place below a directory of which a file is taken. -/
def isTaken (patterns : List Glob.Pattern) (extensions : List Text) (directory : Path) (location : Location) :
    Bool :=
  isReached patterns directory location && isSelected extensions (directory.below location)

theorem isReached_iff :
    isReached patterns directory location = true ↔
      ∀ front, front ≠ [] → front <+: location → isIgnored patterns (directory.below front) = false := by
  induction location generalizing directory with
  | nil => simpa [isReached] using fun _ filled none => absurd none filled
  | cons name location inductionHypothesis =>
      rw [isReached, Bool.and_eq_true_iff, inductionHypothesis, Bool.not_eq_true']
      constructor
      · rintro ⟨first, others⟩ front filled isPrefix
        obtain ⟨head, front, rfl⟩ := List.exists_cons_of_ne_nil filled
        obtain ⟨rfl, further⟩ := List.cons_prefix_cons.mp isPrefix
        by_cases last : front = []
        · rw [last]
          exact first
        · exact others front last further
      · intro all
        refine ⟨all [name] (List.cons_ne_nil _ _) (List.prefix_append [name] location), ?_⟩
        intro front _ isPrefix
        exact all (name :: front) (List.cons_ne_nil _ _) (List.cons_prefix_cons.mpr ⟨rfl, isPrefix⟩)

/-- A place behind a name is taken if the name is not passed over and the place is taken from there. -/
theorem isTaken_cons :
    isTaken patterns extensions directory (name :: location) =
      (!isIgnored patterns (directory.join ⟨name⟩) &&
        isTaken patterns extensions (directory.join ⟨name⟩) location) := Bool.and_assoc _ _ _

/-- The walk takes the files below a node in the order in which they are listed. -/
theorem walk_eq (patterns : List Glob.Pattern) (extensions : List Text) (directory : Path) (node : Node) :
    walk patterns extensions directory node =
      ((node.files []).filter (isTaken patterns extensions directory)).map directory.below := by
  induction node using Node.entryInduction generalizing directory with
  | file =>
      have single : isTaken patterns extensions directory [] = isSelected extensions directory := rfl
      rw [walk, Node.files, List.filter_singleton, single]
      cases isSelected extensions directory <;> rfl
  | link target => rw [walk, Node.files, List.filter_nil, List.map_nil]
  | directory entries inductionHypothesis =>
      rw [walk, Node.files]
      induction entries with
      | nil => rfl
      | cons entry entries restHypothesis =>
          obtain ⟨name, node⟩ := entry
          obtain ⟨ofNode, ofRest⟩ := List.forall_mem_cons.mp inductionHypothesis
          rw [walkEntries, restHypothesis ofRest, Node.filesOf_cons, List.filter_append, List.map_append,
            List.filter_map, List.map_map, ofNode]
          congr 1
          have behind : isTaken patterns extensions directory ∘ (name :: ·) = fun location =>
            !isIgnored patterns (directory.join ⟨name⟩) &&
              isTaken patterns extensions (directory.join ⟨name⟩) location := funext fun _ => isTaken_cons
          rw [behind]
          cases isIgnored patterns (directory.join ⟨name⟩) with
          | true => simp
          | false => rfl

/-! ### What is passed over if nothing is configured -/

open Glob (insideOf piecesOf)
open Path (AreEntryNames IsEntryName)

variable {word : Text} {tree : FileTree} {paths : List Path}

theorem compile_default : compile default.ignored = .ok [insideOf "node_modules".toList] := rfl

/-- The pattern for what lies in directories of a name stands for those directories too, as each entry is
tried as a directory. -/
theorem isIgnored_insideOf (isWord : IsEntryName word) (isName : IsEntryName name) :
    isIgnored [insideOf word] (directory.join ⟨name⟩) = true ↔
      word ∈ piecesOf (directory.join ⟨name⟩).letters := by
  have asDirectory : ∀ letters behind : Text, '/' ∉ behind →
      (Glob.matchesText (insideOf word) (letters ++ '/' :: behind) = true ↔
        word ∈ Text.splitOn '/' letters) := by
    intro letters behind free
    rw [Glob.matchesText_insideOf isWord.slashless, Text.splitOn_append, Text.splitOn_of_notMem free,
      List.dropLast_concat]
  have asName : Glob.matchesText (insideOf word) name = false := by
    rw [Bool.eq_false_iff, Ne, Glob.matchesText_insideOf isWord.slashless,
      Text.splitOn_of_notMem isName.slashless]
    exact List.not_mem_nil
  have asPath : Glob.matchesText (insideOf word) (directory.join ⟨name⟩).letters = true →
      word ∈ Text.splitOn '/' (directory.join ⟨name⟩).letters := fun isMatch =>
    List.mem_of_mem_dropLast ((Glob.matchesText_insideOf isWord.slashless).mp isMatch)
  rw [isIgnored, List.any_cons, List.any_nil, Bool.or_false, List.any_eq_true, aspects,
    Path.fileName?_join isName, Option.getD_some, Path.mem_piecesOf_iff isWord.filled]
  simp only [List.exists_mem_cons_iff, List.not_mem_nil, false_and, exists_false, or_false, asName,
    Bool.false_eq_true]
  rw [asDirectory _ [] List.not_mem_nil, asDirectory _ ['x'] (by decide), or_self]
  exact or_iff_right_of_imp asPath

theorem isReached_insideOf (isWord : IsEntryName word) (areNames : AreEntryNames location)
    (filled : location ≠ []) :
    isReached [insideOf word] directory location = true ↔
      .normal word ∉ (directory.below location).components := by
  have ofFront : ∀ front, front ≠ [] → front <+: location →
      (isIgnored [insideOf word] (directory.below front) = true ↔
        word ∈ piecesOf (directory.below front).letters) := by
    intro front filled isPrefix
    obtain ⟨names, name, rfl⟩ := (List.eq_nil_or_concat' front).resolve_left filled
    rw [Path.below_concat]
    exact isIgnored_insideOf isWord
      (areNames name (isPrefix.subset (List.mem_append_right _ List.mem_cons_self)))
  rw [isReached_iff, Path.normal_mem_components_iff isWord]
  constructor
  · intro all member
    have ignored := (ofFront location filled (List.prefix_refl _)).mpr member
    rw [all location filled (List.prefix_refl _)] at ignored
    cases ignored
  · intro outside front filled isPrefix
    refine eq_false_of_ne_true fun ignored => outside ?_
    have member := (ofFront front filled isPrefix).mp ignored
    rw [Path.piecesOf_below (areNames.subset isPrefix.subset)] at member
    rw [Path.piecesOf_below areNames]
    exact (List.mem_append.mp member).elim (List.mem_append_left _)
      fun inFront => List.mem_append_right _ (isPrefix.subset inFront)

theorem isSelected_iff :
    isSelected extensions path = true ↔
      ∃ letters, path.extension? = some letters ∧
        ∃ extension ∈ extensions, sameLetters letters extension = true := by
  rw [isSelected]
  cases path.extension? with
  | none => simp
  | some letters => simp

/-- True for a name with one of the extensions that are taken if nothing is configured. -/
def IsScriptName (name : Text) : Prop :=
  ∃ stem letters, name = stem ++ '.' :: letters ∧ stem ≠ [] ∧
    letters.map Char.toLower ∈ ["js".toList, "mjs".toList, "cjs".toList, "jsx".toList]

theorem isSelected_default (areNames : AreEntryNames (front ++ [name])) :
    isSelected default.extensions (directory.below (front ++ [name])) = true ↔ IsScriptName name := by
  have isName := areNames name (List.mem_append_right _ List.mem_cons_self)
  have isLower : ∀ extension ∈ default.extensions, extension.map Char.toLower = extension := by decide +kernel
  have dotless : ∀ extension ∈ default.extensions, '.' ∉ extension := by decide +kernel
  have taken : ∀ letters : Text, (∃ extension ∈ default.extensions, sameLetters letters extension = true) ↔
      letters.map Char.toLower ∈ default.extensions := by
    intro letters
    constructor
    · rintro ⟨extension, member, same⟩
      rw [of_decide_eq_true same, isLower extension member]
      exact member
    · exact fun member => ⟨_, member, decide_eq_true (isLower _ member).symm⟩
  rw [isSelected_iff, Path.extension?, Path.below_concat, Path.fileName?_join isName, Option.bind_some]
  simp only [taken, Path.extensionOf?_eq_some_iff]
  constructor
  · rintro ⟨letters, ⟨stem, filled, _, same⟩, member⟩
    exact ⟨stem, letters, same, filled, member⟩
  · rintro ⟨stem, letters, same, filled, member⟩
    refine ⟨letters, ⟨stem, filled, fun dot => ?_, same⟩, member⟩
    exact dotless _ member (List.mem_map_of_mem (f := Char.toLower) dot)

/-- A file below a directory that is taken if nothing is configured: a script to which no name
`node_modules` leads, be it above the directory. -/
structure IsSource (directory : Path) (entries : List (Text × Node)) (location : Location) : Prop where
  isFile : (Node.directory entries).at? location = some .file
  isScript : ∃ name ∈ location.getLast?, IsScriptName name
  outside : .normal "node_modules".toList ∉ (directory.below location).components

/-- What a listed path stands for if nothing is configured: the file that is named, or the scripts below the
directory, each of them once and in the order of the names that lead to it. -/
inductive Collects (tree : FileTree) (path : Path) : List Path → Prop
  | file (isFile : tree.isFile path = true) : Collects tree path [path]
  | directory (entries : List (Text × Node)) (locations : List Location)
      (isDirectory : tree.entries? path = some entries)
      (areSources : ∀ location, location ∈ locations ↔ IsSource path entries location)
      (inOrder : locations.Pairwise (· < ·))
      (once : (locations.map path.below).Nodup) : Collects tree path (locations.map path.below)

/-- The places in a directory of which a file is taken. -/
theorem isTaken_default (wellNamed : (Node.directory entries).isWellNamed = true)
    (isFile : (Node.directory entries).at? location = some .file) :
    isTaken [insideOf "node_modules".toList] default.extensions path location = true ↔
      IsSource path entries location := by
  have isWord : IsEntryName "node_modules".toList := ⟨by decide, by decide, by decide, by decide⟩
  have areNames : AreEntryNames location := Node.areEntryNames_of_at? wellNamed isFile
  have filled : location ≠ [] := by
    rintro rfl
    cases isFile
  rw [isTaken, Bool.and_eq_true_iff, isReached_insideOf isWord areNames filled]
  obtain ⟨front, name, rfl⟩ := (List.eq_nil_or_concat' location).resolve_left filled
  rw [isSelected_default areNames]
  constructor
  · rintro ⟨outside, isScript⟩
    exact ⟨isFile, ⟨name, List.getLast?_concat, isScript⟩, outside⟩
  · rintro ⟨_, ⟨last, isLast, isScript⟩, outside⟩
    rw [List.getLast?_concat] at isLast
    obtain rfl := Option.some.inj isLast
    exact ⟨outside, isScript⟩

/-- A directory is walked to its scripts. -/
theorem collects_directory (wellNamed : tree.WellNamed) (ordered : tree.Ordered)
    (isDirectory : tree.entries? path = some entries) :
    Collects tree path
      (walkEntries [insideOf "node_modules".toList] default.extensions path entries) := by
  obtain ⟨place, _, isAt⟩ := FileTree.entries?_eq_some_iff.mp isDirectory
  have isOrdered : (Node.directory entries).isOrdered = true := Node.isOrdered_of_at? ordered isAt
  have isWellNamed : (Node.directory entries).isWellNamed = true := Node.isWellNamed_of_at? wellNamed isAt
  have inOrder := (Node.pairwise_files isOrdered).filter
    (isTaken [insideOf "node_modules".toList] default.extensions path)
  have areSources : ∀ location, location ∈ ((Node.directory entries).files []).filter
      (isTaken [insideOf "node_modules".toList] default.extensions path) ↔ IsSource path entries location := by
    intro location
    rw [List.mem_filter, Node.mem_files_iff isOrdered]
    exact ⟨fun ⟨isFile, taken⟩ => (isTaken_default isWellNamed isFile).mp taken,
      fun isSource => ⟨isSource.isFile, (isTaken_default isWellNamed isSource.isFile).mpr isSource⟩⟩
  have isWalk := walk_eq [insideOf "node_modules".toList] default.extensions path (.directory entries)
  rw [walk] at isWalk
  rw [isWalk]
  refine .directory entries _ isDirectory areSources inOrder ?_
  have distinct : List.Nodup _ := inOrder.imp fun {first second} less =>
    fun same : first = second => List.lt_irrefl first (same ▸ less)
  refine List.Nodup.map_on (fun first isFirst second isSecond same => ?_) distinct
  have areNames : ∀ location, IsSource path entries location → AreEntryNames location :=
    fun location isSource => Node.areEntryNames_of_at? isWellNamed isSource.isFile
  exact Path.below_injective (areNames first ((areSources first).mp isFirst))
    (areNames second ((areSources second).mp isSecond)) same

theorem collect_eq {selection : Selection} (compiled : compile selection.ignored = .ok patterns) :
    selection.collect tree paths =
      (paths.mapM (collectOne tree patterns selection.extensions)).map List.flatten := by
  rw [collect, compiled]
  rfl

theorem collectOne_eq_error_iff {error : Error} :
    collectOne tree patterns extensions path = .error error ↔
      ∃ fault, tree.node path = .error fault ∧ error = .unusable path fault := by
  rw [collectOne]
  split
  next failed => simp [failed, eq_comm]
  next isDirectory => simp [isDirectory]
  next isOther => simp [isOther]

/-- A path that leads somewhere is collected. -/
theorem collects_of_collectOne (wellNamed : tree.WellNamed) (ordered : tree.Ordered) {files : List Path}
    (collected : collectOne tree [insideOf "node_modules".toList] default.extensions path = .ok files) :
    Collects tree path files := by
  rw [collectOne] at collected
  split at collected
  next => cases collected
  next entries isDirectory =>
    cases collected
    exact collects_directory wellNamed ordered (by rw [FileTree.entries?, isDirectory])
  next other notDirectory isOther =>
    cases collected
    refine .file (FileTree.isFile_iff.mpr ?_)
    cases other with
    | file => exact isOther
    | directory entries => exact absurd rfl (notDirectory entries)
    | link target => exact absurd isOther (FileTree.node_ne_link path target)

/-- If nothing is configured, a list of paths that all lead somewhere stands path by path for the files that
are named and for the scripts below the directories, outside of `node_modules`. If one of them leads nowhere,
nothing is collected. -/
theorem collect_default (wellNamed : tree.WellNamed) (ordered : tree.Ordered) (paths : List Path) :
    ((∀ path ∈ paths, tree.has path = true) →
      ∃ lists, default.collect tree paths = .ok lists.flatten ∧ List.Forall₂ (Collects tree) paths lists) ∧
    ((∃ path ∈ paths, tree.has path = false) →
      ∃ path ∈ paths, ∃ fault, tree.node path = .error fault ∧
        default.collect tree paths = .error (.unusable path fault)) := by
  have isCollected : default.collect tree paths =
      (paths.mapM (collectOne tree [insideOf "node_modules".toList] default.extensions)).map List.flatten :=
    collect_eq compile_default
  cases collected : paths.mapM (collectOne tree [insideOf "node_modules".toList] default.extensions) with
  | ok lists =>
      rw [collected] at isCollected
      refine ⟨fun _ => ⟨lists, isCollected, ?_⟩, fun ⟨path, member, isMissing⟩ => ?_⟩
      · exact (mapM_eq_ok_iff.mp collected).imp fun path files => collects_of_collectOne wellNamed ordered
      · obtain ⟨files, _, isOk⟩ := exists_result_of_mem collected member
        obtain ⟨fault, failed⟩ := FileTree.has_eq_false_iff.mp isMissing
        rw [collectOne_eq_error_iff.mpr ⟨fault, failed, rfl⟩] at isOk
        cases isOk
  | error error =>
      rw [collected] at isCollected
      obtain ⟨path, member, failed⟩ := exists_of_mapM_eq_error collected
      obtain ⟨fault, isFault, rfl⟩ := collectOne_eq_error_iff.mp failed
      refine ⟨fun all => ?_, fun _ => ⟨path, member, fault, isFault, isCollected⟩⟩
      have isMissing := FileTree.has_eq_false_iff.mpr ⟨fault, isFault⟩
      rw [all path member] at isMissing
      cases isMissing

/-- Only directories of exactly that name are left out, a named file needs no extension, and a directory that
is listed twice is collected twice. -/
theorem collect_default_nested :
    let file : File := ⟨.text [], true, true⟩
    let tree := [["app", "b.js"], ["app", "a.js"], ["app", "my_node_modules", "c.MJS"],
      ["app", "node_modules", "d.js"], ["app", "notes.md"], ["script.ts"]].foldl
        (fun tree location => tree.putFile (location.map String.toList) file) FileTree.empty
    let paths := ["/script.ts", "app", "app"].map Path.ofString
    tree.WellNamed ∧ tree.Ordered ∧ (∀ path ∈ paths, tree.has path = true) ∧
      (∃ lists, default.collect tree paths = .ok lists.flatten ∧ List.Forall₂ (Collects tree) paths lists) ∧
      default.collect tree paths = .ok (["/script.ts", "app/a.js", "app/b.js", "app/my_node_modules/c.MJS",
        "app/a.js", "app/b.js", "app/my_node_modules/c.MJS"].map Path.ofString) := by
  intro file tree paths
  have wellNamed : tree.WellNamed := by decide +kernel
  have ordered : tree.Ordered := by decide +kernel
  have exist : ∀ path ∈ paths, tree.has path = true := by decide +kernel
  exact ⟨wellNamed, ordered, exist, (collect_default wellNamed ordered paths).1 exist,
    toOption_eq_some_iff.mp (by decide +kernel)⟩

end Selection

end ImportMeter
