/-
This file proves that the search for a workspace root ends at the same root from every directory it
passes, unless the name of that directory has an extension. So the files of a workspace see the same
members.
-/
import ImportMeter.FileTree.Build
import ImportMeter.Load.Resolver
import ImportMeter.Proofs.Path.Parent

namespace ImportMeter

namespace Path

variable {path parent workingDirectory : Path}

theorem exists_absolutize_eq_stacked (absolute : workingDirectory.isAbsolute = true) (path : Path) :
    ∃ stack, AreEntryNames stack ∧ path.absolutize workingDirectory = stacked stack := by
  obtain ⟨names, areNames, normal⟩ := exists_absolutize_eq_rooted absolute path
  refine ⟨names.reverse, fun name member => areNames name (List.mem_reverse.mp member), ?_⟩
  rw [normal, stacked, List.reverse_reverse]

/-- The parents of a path made absolute are absolute. -/
theorem absolutize_of_mem_ancestors (absolute : workingDirectory.isAbsolute = true)
    (member : parent ∈ (path.absolutize workingDirectory).ancestors) :
    parent.absolutize workingDirectory = parent := by
  obtain ⟨stack, areNames, isPath⟩ := exists_absolutize_eq_stacked absolute path
  rw [isPath, mem_ancestors_stacked areNames] at member
  obtain ⟨upper, isUpper, rfl⟩ := member
  have areUpper : AreEntryNames upper.reverse := fun name member =>
    areNames name (isUpper.mem (List.mem_reverse.mp member))
  have isAbsolute : (stacked upper).isAbsolute = true := rfl
  rw [absolutize, if_pos isAbsolute, stacked, normalize_rooted areUpper]

theorem mem_ancestors_self (path : Path) : path ∈ path.ancestors := List.mem_cons_self

end Path

namespace Workspace

variable {tree : FileTree} {start root directory : Path}

/-- From a directory that the search passes, it goes on as it did. -/
theorem searchPath_split (absolute : tree.workingDirectory.isAbsolute = true)
    (passed : directory.absolutize tree.workingDirectory ∈
      (start.absolutize tree.workingDirectory).ancestors) :
    ∃ nearer, tree.searchPath start = nearer ++ tree.searchPath directory ∧
      ∀ path ∈ nearer, path ∉ (directory.absolutize tree.workingDirectory).ancestors := by
  obtain ⟨stack, areNames, isStart⟩ := Path.exists_absolutize_eq_stacked absolute start
  rw [isStart, Path.mem_ancestors_stacked areNames] at passed
  obtain ⟨behind, ⟨front, rfl⟩, isDirectory⟩ := passed
  obtain ⟨nearer, split, apart⟩ := Path.ancestors_append areNames
  refine ⟨nearer.filter fun path => path.parent?.isSome, ?_, fun path member => ?_⟩
  · rw [FileTree.searchPath, isStart, split, List.filter_append, FileTree.searchPath, isDirectory]
  · rw [isDirectory]
    exact apart path (List.mem_filter.mp member).1

/-- A directory lies in the workspace of a root, and in none that is nested in it. -/
structure LiesIn (tree : FileTree) (root directory : Path) : Prop where
  isRoot : isRoot tree root = true
  above : root ∈ tree.searchPath directory
  isNearest : ∀ other ∈ tree.searchPath directory, Workspace.isRoot tree other = true →
    other ∈ root.ancestors

/-- Above a directory that is met, the search goes on from it. -/
theorem searchPath_above (absolute : tree.workingDirectory.isAbsolute = true)
    (above : root ∈ tree.searchPath directory) :
    ∃ nearer farther, tree.searchPath directory = nearer ++ root :: farther ∧
      (∀ path ∈ nearer, path ∉ root.ancestors) ∧ ∀ path ∈ farther, path ∈ root.ancestors := by
  obtain ⟨passed, hasParent⟩ := List.mem_filter.mp above
  have same := Path.absolutize_of_mem_ancestors absolute passed
  obtain ⟨nearer, split, apart⟩ := searchPath_split absolute (same.symm ▸ passed)
  have found : tree.searchPath root = root :: root.ancestors.tail.filter fun path => path.parent?.isSome := by
    rw [FileTree.searchPath, same]
    exact List.filter_cons_of_pos hasParent
  refine ⟨nearer, _, found ▸ split, same ▸ apart, fun path member => ?_⟩
  exact List.mem_of_mem_tail (List.mem_of_mem_filter member)

/-- The nearest root is the first that the search meets. -/
theorem find?_searchPath_eq_some_iff (absolute : tree.workingDirectory.isAbsolute = true) :
    (tree.searchPath directory).find? (isRoot tree) = some root ↔ LiesIn tree root directory := by
  constructor
  · intro found
    have above := List.mem_of_find?_eq_some found
    refine ⟨List.find?_some found, above, fun other member isOther => ?_⟩
    obtain ⟨nearer, farther, split, apart, upper⟩ := searchPath_above absolute above
    rw [split] at found member
    rcases List.mem_append.mp member with isNearer | isAbove
    · -- Another root that is nearer would have been met first.
      rw [List.find?_append, Option.or_eq_some_iff] at found
      rcases found with first | ⟨none, _⟩
      · exact absurd root.mem_ancestors_self (apart root (List.mem_of_find?_eq_some first))
      · exact absurd isOther (List.find?_eq_none.mp none other isNearer)
    · rcases List.mem_cons.mp isAbove with rfl | isFarther
      · exact Path.mem_ancestors_self _
      · exact upper other isFarther
  · intro inside
    obtain ⟨nearer, farther, split, apart, _⟩ := searchPath_above absolute inside.above
    have none : nearer.find? (isRoot tree) = none := by
      refine List.find?_eq_none.mpr fun other member isOther => apart other member ?_
      exact inside.isNearest other (split ▸ List.mem_append_left _ member) isOther
    rw [split, List.find?_append, none, Option.none_or, List.find?_cons_of_pos inside.isRoot]

/-- From inside of a workspace its root is found, unless the search is refused. -/
theorem LiesIn.findRoot (absolute : tree.workingDirectory.isAbsolute = true)
    (inside : LiesIn tree root directory) :
    findRoot tree directory =
      if isStart directory then .ok (some root) else .error (.notDirectoryName directory) := by
  rw [Workspace.findRoot, (find?_searchPath_eq_some_iff absolute).mpr inside]

/-- A search that ends at a root began inside of its workspace. -/
theorem liesIn_of_findRoot (absolute : tree.workingDirectory.isAbsolute = true)
    (found : findRoot tree start = .ok (some root)) : LiesIn tree root start := by
  rw [Workspace.findRoot] at found
  split at found
  next => exact (find?_searchPath_eq_some_iff absolute).mp (Except.ok.inj found)
  next => cases found

/-- All directories on the way to the root lie in its workspace. -/
theorem LiesIn.along (absolute : tree.workingDirectory.isAbsolute = true)
    (inside : LiesIn tree root start)
    (passed : directory.absolutize tree.workingDirectory ∈
      (start.absolutize tree.workingDirectory).ancestors)
    (below : root ∈ (directory.absolutize tree.workingDirectory).ancestors) :
    LiesIn tree root directory := by
  obtain ⟨nearer, split, _⟩ := searchPath_split absolute passed
  have hasParent : root.parent?.isSome = true := (List.mem_filter.mp inside.above).2
  refine ⟨inside.isRoot, List.mem_filter.mpr ⟨below, hasParent⟩, fun other member => ?_⟩
  exact inside.isNearest other (split ▸ List.mem_append_right _ member)

/-- The members that the manifest in a directory lists. -/
def membersUnder (tree : FileTree) (root : Path) : Except Error (List Path) := do
  let manifest ← Manifest.ofFile tree (root.join ⟨Manifest.fileName⟩)
  membersOf tree root manifest.patterns

/-- The members that a directory sees are those of the workspace that it lies in. -/
theorem LiesIn.members (absolute : tree.workingDirectory.isAbsolute = true)
    (inside : LiesIn tree root directory) :
    members tree directory =
      if isStart directory then membersUnder tree root
      else .error (.notDirectoryName directory) := by
  rw [Workspace.members, rootOf, inside.findRoot absolute]
  split <;> rfl

end Workspace

variable {σ : Type}

/-- Where a workspace specifier leads if some members are listed. -/
def Resolver.leadAmong (resolver : Resolver σ) (specifier : Text) :
    Except Error (List Path) → Except Error Target
  | .error cause => .error (.noMember specifier (some cause))
  | .ok members =>
    match members.find? (resolver.matching.accepts specifier) with
    | some member => .ok (.path member)
    | none => .error (.noMember specifier none)

theorem Resolver.leadAmong_eq_ok {resolver : Resolver σ} {specifier : Text} {target : Target}
    {members : Except Error (List Path)} (leads : resolver.leadAmong specifier members = .ok target) :
    ∃ listed, ∃ member ∈ listed, members = .ok listed ∧ target = .path member := by
  cases members with
  | error cause => cases leads
  | ok listed =>
      rw [leadAmong] at leads
      split at leads
      next member found =>
        cases leads
        exact ⟨listed, member, List.mem_of_find?_eq_some found, rfl, rfl⟩
      next => cases leads

/-- A workspace specifier is resolved among the members that the importing directory sees. -/
theorem Resolver.resolve_workspace (resolver : Resolver σ) {specifier importer : Text} {directory : Path}
    (isWorkspace : resolver.classify specifier = .workspace)
    (imports : Specifier.importerDirectory? importer = some directory) :
    resolver.resolve specifier importer =
      resolver.leadAmong specifier (resolver.packages.members directory) := by
  rw [Resolver.resolve, isWorkspace, Resolver.resolveMember, imports]
  dsimp only
  cases resolver.packages.members directory with
  | error cause => rfl
  | ok members =>
      rw [leadAmong]
      dsimp only
      cases members.find? (resolver.matching.accepts specifier) <;> rfl

namespace Workspace

variable {tree : FileTree} {start root directory : Path}

/-- The root that a search finds is found from every directory on the way to it, however that one is
spelled. So a workspace specifier leads to the same place from every file of the workspace. Only an
empty path and one whose name has an extension are refused. -/
theorem findRoot_along (absolute : tree.workingDirectory.isAbsolute = true)
    (found : findRoot tree start = .ok (some root)) :
    (∀ directory : Path, directory.absolutize tree.workingDirectory ∈
        (start.absolutize tree.workingDirectory).ancestors →
      root ∈ (directory.absolutize tree.workingDirectory).ancestors →
      findRoot tree directory =
        if isStart directory then .ok (some root) else .error (.notDirectoryName directory)) ∧
    ∀ {σ : Type} (resolver : Resolver σ), resolver.packages = .ofTree tree →
      ∀ specifier, resolver.classify specifier = .workspace →
        ∃ result, ∀ importer directory, Specifier.importerDirectory? importer = some directory →
          LiesIn tree root directory →
          resolver.resolve specifier importer =
            if isStart directory then result
            else .error (.noMember specifier (some (.notDirectoryName directory))) := by
  have inside := liesIn_of_findRoot absolute found
  refine ⟨fun directory passed below => (inside.along absolute passed below).findRoot absolute,
    fun resolver packages specifier isWorkspace => ?_⟩
  refine ⟨resolver.leadAmong specifier (membersUnder tree root),
    fun importer directory imports inside => ?_⟩
  have seen : resolver.packages.members directory = members tree directory := by
    rw [packages]
    rfl
  rw [resolver.resolve_workspace isWorkspace imports, seen, inside.members absolute]
  split <;> rfl

/-- A workspace with a single package in a directory whose name looks like that of a file. -/
def versionedTree : FileTree :=
  (FileTree.empty.putFile ["ws".toList, Manifest.fileName]
    ⟨.text "\x7b\"workspaces\": [\"v1.0/*\"]\x7d".toList, true, true⟩).putFile
      ["ws".toList, "v1.0".toList, "app".toList, Manifest.fileName] ⟨.text "\x7b\x7d".toList, true, true⟩

theorem findRoot_versionedTree :
    findRoot versionedTree ⟨"/ws/v1.0/app".toList⟩ = .ok (some ⟨"/ws".toList⟩) := by
  have accepted : isStart ⟨"/ws/v1.0/app".toList⟩ = true := by decide +kernel
  have first : (versionedTree.searchPath ⟨"/ws/v1.0/app".toList⟩).find? (isRoot versionedTree) =
      some ⟨"/ws".toList⟩ := by decide +kernel
  rw [findRoot, if_pos accepted, first]

/-- The root is found from a directory between, unless its name has an extension, and the specifiers of
files in the package and of files next to it lead to the same place. -/
theorem findRoot_along_versionedTree :
    let resolver : Resolver Unit :=
      ⟨"@s/".toList, .exact, .ofTree versionedTree, .ofTable [], 0⟩
    findRoot versionedTree ⟨"/ws/v1.0/app/..//../".toList⟩ = .ok (some ⟨"/ws".toList⟩) ∧
      findRoot versionedTree ⟨"/ws/v1.0".toList⟩ = .error (.notDirectoryName ⟨"/ws/v1.0".toList⟩) ∧
      resolver.resolve "@s/app".toList "/ws/v1.0/app/main.js".toList =
        resolver.resolve "@s/app".toList "file:///ws/main.js".toList := by
  intro resolver
  have absolute : versionedTree.workingDirectory.isAbsolute = true := by decide +kernel
  obtain ⟨along, resolve⟩ := findRoot_along absolute findRoot_versionedTree
  obtain ⟨result, same⟩ := resolve resolver rfl "@s/app".toList (by decide +kernel)
  have inside := liesIn_of_findRoot absolute findRoot_versionedTree
  have above : LiesIn versionedTree ⟨"/ws".toList⟩ ⟨"/ws".toList⟩ :=
    inside.along absolute (by decide +kernel) (by decide +kernel)
  refine ⟨along _ (by decide +kernel) (by decide +kernel), along _ (by decide +kernel) (by decide +kernel), ?_⟩
  rw [same "/ws/v1.0/app/main.js".toList ⟨"/ws/v1.0/app".toList⟩ (by decide +kernel) inside,
    same "file:///ws/main.js".toList ⟨"/ws".toList⟩ (by decide +kernel) above]
  rfl

/-- From a directory with an extension the root is not found again. -/
theorem findRoot_versionedTree_refused :
    ¬ ∀ (tree : FileTree) (start root directory : Path),
      tree.workingDirectory.isAbsolute = true → findRoot tree start = .ok (some root) →
      directory ∈ (start.absolutize tree.workingDirectory).ancestors → root ∈ directory.ancestors →
      findRoot tree directory = .ok (some root) := by
  intro claim
  have found := claim versionedTree ⟨"/ws/v1.0/app".toList⟩ ⟨"/ws".toList⟩ ⟨"/ws/v1.0".toList⟩
    (by decide +kernel) findRoot_versionedTree (by decide +kernel) (by decide +kernel)
  have refused : isStart ⟨"/ws/v1.0".toList⟩ = false := by decide +kernel
  rw [findRoot, refused] at found
  cases found

end Workspace

end ImportMeter
