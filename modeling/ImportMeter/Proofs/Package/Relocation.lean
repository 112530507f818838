/-
This file compares the members of one workspace in two places. They are the same below both, unless a
letter in the name of a directory above stands for others.
-/
import ImportMeter.Proofs.Glob.Relocation
import ImportMeter.Proofs.Package.Exclusion

namespace ImportMeter

open Manifest (isEntryName_fileName)
open Path (isIdle rooted AreEntryNames IsEntryName pushPiece)
open FileTree (HoldAlike IsTried)

namespace Workspace

open Glob (isWild dotsOf matchesText AreMoved IsPlainPlace matchesText_letters_append)

variable {first second inner : FileTree} {here there : List Text} {front other : Text} {slack : Nat}
  {path otherPath : Path} {pattern : Text}

/-! ### One rule -/

/-- Two paths that go on with the same letters. -/
def Trails (front other : Text) (path otherPath : Path) : Prop :=
  ∃ rest, path.letters = front ++ rest ∧ otherPath.letters = other ++ rest

/-- Two rules that do the same below two directories. -/
inductive RulesAlike (front other : Text) : Rule → Rule → Prop
  | adds {members others : List Path} (trail : List.Forall₂ (Trails front other) members others) :
      RulesAlike front other (.adds members) (.adds others)
  | drops (pattern : Glob.Pattern) :
      RulesAlike front other (.drops (front.map .letter ++ pattern)) (.drops (other.map .letter ++ pattern))

theorem RulesAlike.added {rule otherRule : Rule} (alike : RulesAlike front other rule otherRule) :
    List.Forall₂ (Trails front other) rule.added otherRule.added := by
  cases alike with
  | adds trail => exact trail
  | drops => exact .nil

theorem RulesAlike.keeps {rule otherRule : Rule} (alike : RulesAlike front other rule otherRule)
    (trails : Trails front other path otherPath) : rule.keeps path = otherRule.keeps otherPath := by
  cases alike with
  | adds => rfl
  | drops pattern =>
      obtain ⟨rest, isPath, isOther⟩ := trails
      rw [Rule.keeps, Rule.keeps, isPath, isOther, matchesText_letters_append, matchesText_letters_append]

/-- True for a pattern that is relative and, if it lists members, has no piece that stands for two dots. -/
def isInside (pattern : Text) : Bool :=
  match pattern with
  | '!' :: negated => !(Path.mk negated).isAbsolute
  | _ => !(Path.mk pattern).isAbsolute && (Text.splitOn '/' pattern).all fun piece =>
      match Glob.read piece with
      | .ok pattern => (dotsOf pattern).all (· ≠ ['.', '.'])
      | .error _ => true

/-- Directories above go up alike. -/
theorem trails_parents (areHere : AreEntryNames here) (someHere : here ≠ []) (areThere : AreEntryNames there)
    (someThere : there ≠ []) {files others : List Path} (moved : AreMoved here there files others) :
    List.Forall₂ (Trails (rooted here).letters (rooted there).letters)
      (files.filterMap Path.parent?) (others.filterMap Path.parent?) := by
  induction moved with
  | nil => exact .nil
  | cons isMoved _ inductionHypothesis =>
      obtain ⟨pieces, slashless, named, rfl, rfl⟩ := isMoved
      rw [List.filterMap_cons_some (Path.parent?_rooted_append areHere someHere slashless named),
        List.filterMap_cons_some (Path.parent?_rooted_append areThere someThere slashless named)]
      exact .cons ⟨_, Path.letters_rooted_append someHere _, Path.letters_rooted_append someThere _⟩
        inductionHypothesis

theorem ruleOf_alike (alike : HoldAlike first second here there inner slack) (isHere : IsPlainPlace first here)
    (isThere : IsPlainPlace second there) (inside : isInside pattern = true)
    (few : (Text.splitOn '/' pattern).length < slack) :
    EndAlike (RulesAlike (rooted here).letters (rooted there).letters) (ruleOf first (rooted here) pattern)
      (ruleOf second (rooted there) pattern) := by
  have areHere := alike.holds.areEntryNames
  have areThere := alike.alsoHolds.areEntryNames
  rw [isInside.eq_def] at inside
  rw [ruleOf.eq_def, ruleOf.eq_def]
  split
  next negated =>
    have relative : (Path.mk negated).isAbsolute = false := by simpa using inside
    have bothRead := Glob.read_behind isHere.letters isThere.letters negated
    rw [Path.letters_join_rooted areHere alike.holds.filled relative,
      Path.letters_join_rooted areThere alike.alsoHolds.filled relative]
    generalize Glob.read ((rooted here).letters ++ '/' :: negated) = one at bothRead ⊢
    generalize Glob.read ((rooted there).letters ++ '/' :: negated) = two at bothRead ⊢
    cases bothRead with
    | ok same =>
        obtain ⟨rest, rfl, rfl⟩ := same
        exact .ok (.drops rest)
    | error => exact .error _ _
  next positive =>
    split at inside
    next => exact absurd rfl (positive _)
    obtain ⟨relative, noUp⟩ := Bool.and_eq_true_iff.mp inside
    rw [Bool.not_eq_true'] at relative
    have slashless : ∀ piece ∈ Text.splitOn '/' pattern, '/' ∉ piece := fun piece => Text.notMem_of_mem_splitOn
    obtain ⟨pieces, isFront, pushed⟩ : ∃ pieces, pieces <+: Text.splitOn '/' pattern ∧
        pushPiece (Text.splitOn '/' pattern) Manifest.fileName = pieces ++ [Manifest.fileName] := by
      refine ⟨_, ?_, rfl⟩
      split
      · exact List.dropLast_prefix _
      · exact List.prefix_refl _
    have bothExpand := Glob.expand_moved alike isHere isThere isEntryName_fileName isPlain_fileName
      (fun piece member => slashless piece (isFront.mem member)) (fun piece member read isRead => ?_)
      (isFront.length_le.trans_lt few)
    rw [Path.join_rooted_splitOn areHere relative, Path.join_rooted_splitOn areThere relative,
      alike.holds.join slashless isEntryName_fileName.slashless,
      alike.alsoHolds.join slashless isEntryName_fileName.slashless, pushed]
    · generalize Glob.expand first (rooted (here ++ (pieces ++ _))).letters = one at bothExpand ⊢
      generalize Glob.expand second (rooted (there ++ (pieces ++ _))).letters = two at bothExpand ⊢
      cases bothExpand with
      | ok moved =>
          exact .ok (.adds (trails_parents areHere alike.holds.filled areThere alike.alsoHolds.filled moved))
      | error => exact .error _ _
    · have free := List.all_eq_true.mp noUp piece (isFront.mem member)
      rw [isRead] at free
      exact fun up => of_decide_eq_true (List.all_eq_true.mp free _ up) rfl

/-! ### All rules -/

theorem membersOf_alike {patterns : List Text} (alike : HoldAlike first second here there inner slack)
    (isHere : IsPlainPlace first here) (isThere : IsPlainPlace second there)
    (inside : ∀ pattern ∈ patterns, isInside pattern = true ∧ (Text.splitOn '/' pattern).length < slack) :
    EndAlike (List.Forall₂ (Trails (rooted here).letters (rooted there).letters))
      (membersOf first (rooted here) patterns) (membersOf second (rooted there) patterns) := by
  have each : ∀ pattern ∈ patterns, _ := fun pattern member =>
    ruleOf_alike alike isHere isThere (inside pattern member).1 (inside pattern member).2
  refine (EndAlike.mapM each).bind fun rules others all => .ok ?_
  have sameKeeps : ∀ {path otherPath}, Trails (rooted here).letters (rooted there).letters path otherPath →
      (rules.all (·.keeps path) = true ↔ others.all (·.keeps otherPath) = true) := by
    intro path otherPath trails
    induction all with
    | nil => rfl
    | cons isFirst _ inductionHypothesis =>
        rw [List.all_cons, List.all_cons, Bool.and_eq_true_iff, Bool.and_eq_true_iff, isFirst.keeps trails,
          inductionHypothesis]
  have listed : List.Forall₂ (Trails (rooted here).letters (rooted there).letters) (rules.flatMap Rule.added)
      (others.flatMap Rule.added) := List.rel_flatMap all fun _ _ alike => alike.added
  exact List.rel_filter (fun _ _ trails => sameKeeps trails) listed

theorem isTried_fileName (slack : Nat) : IsTried slack [Manifest.fileName] := by
  refine ⟨List.forall_mem_singleton.mpr isEntryName_fileName.slashless, by decide, ?_⟩
  rw [List.countP_singleton, isEntryName_fileName.isIdle]
  exact Nat.zero_le slack

theorem ofFile_alike (alike : HoldAlike first second here there inner slack) {manifest : Manifest}
    (declared : Manifest.ofFile first ((rooted here).join ⟨Manifest.fileName⟩) = .ok manifest) :
    Manifest.ofFile second ((rooted there).join ⟨Manifest.fileName⟩) = .ok manifest := by
  rw [join_fileName alike.holds.areEntryNames.free, Manifest.ofFile_eq_ok_iff] at declared
  obtain ⟨text, isText, isRead⟩ := declared
  rw [join_fileName alike.alsoHolds.areEntryNames.free, Manifest.ofFile_eq_ok_iff]
  exact ⟨text, alike.readText (isTried_fileName slack) isText, isRead⟩

theorem isRoot_of_alike (alike : HoldAlike first second here there inner slack)
    (isRootHere : isRoot first (rooted here) = true) : isRoot second (rooted there) = true := by
  obtain ⟨isFile, manifest, declared, declares⟩ := isRoot_iff.mp isRootHere
  refine isRoot_iff.mpr ⟨?_, manifest, ofFile_alike alike declared, declares⟩
  rw [join_fileName alike.holds.areEntryNames.free, alike.isFile_eq (isTried_fileName slack)] at isFile
  rwa [join_fileName alike.alsoHolds.areEntryNames.free]

/-- A directory that a search for a workspace can start from, and above which there is no workspace. -/
structure IsTopmost (tree : FileTree) (names : List Text) : Prop where
  accepted : isStart (rooted names) = true
  noneAbove : ∀ above ∈ tree.searchPath (rooted names), isRoot tree above = true → above = rooted names

theorem IsTopmost.rootOf {tree : FileTree} {names : List Text} (isTopmost : IsTopmost tree names)
    (areNames : AreEntryNames names) (filled : names ≠ []) :
    rootOf tree (rooted names) =
      if isRoot tree (rooted names) then .ok (rooted names) else .error (.noWorkspaceRoot (rooted names)) := by
  have isFirst : rooted names ∈ tree.searchPath (rooted names) := by
    obtain ⟨front, last, rfl⟩ := (List.eq_nil_or_concat' names).resolve_left filled
    have absolute : (rooted (front ++ [last])).absolutize tree.workingDirectory = rooted (front ++ [last]) := by
      rw [Path.absolutize, if_pos (Path.isAbsolute_rooted _), Path.normalize_rooted areNames]
    refine List.mem_filter.mpr ⟨absolute.symm ▸ Path.mem_ancestors_self _, ?_⟩
    rw [Path.parent?_rooted_concat areNames]
    rfl
  rw [Workspace.rootOf, findRoot, if_pos isTopmost.accepted]
  cases found : (tree.searchPath (rooted names)).find? (isRoot tree) with
  | some root =>
      obtain rfl := isTopmost.noneAbove root (List.mem_of_find?_eq_some found) (List.find?_some found)
      rw [if_pos (List.find?_some found)]
      rfl
  | none =>
      rw [if_neg (List.find?_eq_none.mp found _ isFirst)]
      rfl

theorem rootOf_alike (alike : HoldAlike first second here there inner slack) (topHere : IsTopmost first here)
    (topThere : IsTopmost second there) :
    EndAlike (fun root otherRoot => root = rooted here ∧ otherRoot = rooted there) (rootOf first (rooted here))
      (rootOf second (rooted there)) := by
  have same : isRoot first (rooted here) = isRoot second (rooted there) :=
    Bool.eq_iff_iff.mpr ⟨isRoot_of_alike alike, isRoot_of_alike alike.symm⟩
  rw [topHere.rootOf alike.holds.areEntryNames alike.holds.filled,
    topThere.rootOf alike.alsoHolds.areEntryNames alike.alsoHolds.filled, same]
  split
  · exact .ok ⟨rfl, rfl⟩
  · exact .error _ _

/-- Paths that trail differ in front only. -/
theorem exists_rests {paths others : List Path} (trail : List.Forall₂ (Trails front other) paths others) :
    ∃ rests : List Text, paths = rests.map (fun rest => ⟨front ++ rest⟩) ∧
      others = rests.map (fun rest => ⟨other ++ rest⟩) := by
  induction trail with
  | nil => exact ⟨[], rfl, rfl⟩
  | @cons path otherPath paths others isFirst _ inductionHypothesis =>
      obtain ⟨rest, isPath, isOther⟩ := isFirst
      obtain ⟨rests, rfl, rfl⟩ := inductionHypothesis
      refine ⟨rest :: rests, ?_, ?_⟩
      · rw [List.map_cons, ← isPath]
      · rw [List.map_cons, ← isOther]

/-- A workspace has the same members wherever it stands. -/
theorem members_moved (alike : HoldAlike first second here there inner slack)
    (plainHere : ∀ name ∈ here, ∀ letter ∈ name, isWild letter = false)
    (plainThere : ∀ name ∈ there, ∀ letter ∈ name, isWild letter = false)
    (topHere : IsTopmost first here) (topThere : IsTopmost second there)
    (inside : ∀ manifest, Manifest.ofFile first ((rooted here).join ⟨Manifest.fileName⟩) = .ok manifest →
      ∀ pattern ∈ manifest.patterns, isInside pattern = true ∧ (Text.splitOn '/' pattern).length < slack) :
    ∃ outcome : Option (List Text),
      (members first (rooted here)).toOption =
        outcome.map (·.map fun rest => ⟨(rooted here).letters ++ rest⟩) ∧
      (members second (rooted there)).toOption =
        outcome.map (·.map fun rest => ⟨(rooted there).letters ++ rest⟩) := by
  have isThere : ∀ {tree : FileTree} {names : List Text} {manifest : Manifest}, tree.Holds names inner →
      Manifest.ofFile tree ((rooted names).join ⟨Manifest.fileName⟩) = .ok manifest →
        tree.existsUnfollowed (rooted names) = true := by
    intro tree names manifest holds declared
    rw [join_fileName holds.areEntryNames.free, Manifest.ofFile_eq_ok_iff] at declared
    obtain ⟨text, isText, _⟩ := declared
    obtain ⟨place, located, _⟩ := bind_eq_ok_iff.mp isText
    exact holds.existsUnfollowed alike.stay located
  have endAlike : EndAlike (List.Forall₂ (Trails (rooted here).letters (rooted there).letters))
      (members first (rooted here)) (members second (rooted there)) := by
    refine (rootOf_alike alike topHere topThere).bind ?_
    rintro _ _ ⟨rfl, rfl⟩
    have manifests : EndAlike
        (fun manifest other => Manifest.ofFile first ((rooted here).join ⟨Manifest.fileName⟩) = .ok manifest ∧
          Manifest.ofFile second ((rooted there).join ⟨Manifest.fileName⟩) = .ok manifest ∧ manifest = other)
        (Manifest.ofFile first ((rooted here).join ⟨Manifest.fileName⟩))
        (Manifest.ofFile second ((rooted there).join ⟨Manifest.fileName⟩)) :=
      .of_iff (fun manifest declared =>
          have alsoDeclared := ofFile_alike alike declared
          ⟨manifest, alsoDeclared, declared, alsoDeclared, rfl⟩)
        fun manifest declared => ⟨manifest, ofFile_alike alike.symm declared⟩
    refine manifests.bind ?_
    rintro manifest _ ⟨declared, alsoDeclared, rfl⟩
    exact membersOf_alike alike ⟨plainHere, isThere alike.holds declared⟩
      ⟨plainThere, isThere alike.alsoHolds alsoDeclared⟩ (inside manifest declared)
  generalize members first (rooted here) = one at endAlike ⊢
  generalize members second (rooted there) = two at endAlike ⊢
  cases endAlike with
  | error => exact ⟨none, rfl, rfl⟩
  | ok trail =>
      obtain ⟨rests, rfl, rfl⟩ := exists_rests trail
      exact ⟨some rests, rfl, rfl⟩

/-- A directory with one tree under several names. -/
def housing (names : List Text) (inner : FileTree) : FileTree :=
  ⟨.directory (names.map (·, inner.root)), fun location => inner.file location.tail, ⟨['/']⟩⟩

theorem holds_housing {names : List Text} {name : Text} (isName : IsFileName name) (member : name ∈ names) :
    (housing names inner).Holds [name] inner := by
  refine ⟨List.forall_mem_singleton.mpr isName, List.cons_ne_nil _ _, ?_, fun _ => rfl⟩
  obtain ⟨node, isChild⟩ := Node.exists_child? (List.mem_map_of_mem (f := (·, inner.root)) member)
  obtain ⟨_, _, same⟩ := List.mem_map.mp (Node.child?_eq_some isChild)
  cases same
  rw [housing, Node.at?, isChild]
  rfl

/-- Neighbours whose names take up as many bytes hold their trees alike. -/
theorem holdAlike_housing {names : List Text} {name neighbour : Text} (isName : IsFileName name)
    (isNeighbour : IsFileName neighbour) (member : name ∈ names) (alsoMember : neighbour ∈ names)
    (wellNamed : inner.WellNamed) (stay : inner.LinksStay)
    (sameLength : Text.utf8Length (rooted [name]).letters = Text.utf8Length (rooted [neighbour]).letters) :
    HoldAlike (housing names inner) (housing names inner) [name] [neighbour] inner slack :=
  ⟨holds_housing isName member, holds_housing isNeighbour alsoMember, wellNamed, stay,
    FileTree.fits_of_sameLength (List.cons_ne_nil _ _) (List.cons_ne_nil _ _) sameLength,
    FileTree.fits_of_sameLength (List.cons_ne_nil _ _) (List.cons_ne_nil _ _) sameLength.symm⟩

/-- A workspace of three packages: one is taken away, and one is a link to another. -/
def linkedTree : FileTree :=
  [["a".toList], ["b".toList]].foldl
    (fun tree directory =>
      tree.putFile ("packages".toList :: directory ++ [Manifest.fileName]) ⟨.text "\x7b\x7d".toList, true, true⟩)
    ((FileTree.empty.putFile [Manifest.fileName]
      ⟨.text "\x7b\"workspaces\": [\"./packages/*\", \"!**/b\"]\x7d".toList, true, true⟩).putLink
        ["packages".toList, "c".toList] ⟨"../packages/a".toList⟩)

theorem linksStay_linkedTree : linkedTree.LinksStay := ⟨_, rfl, by decide +kernel⟩

/-- The members of the root of a tree, wherever it stands. -/
theorem inside_linkedTree {tree : FileTree} {root : Path}
    (declared : (Manifest.ofFile tree (root.join ⟨Manifest.fileName⟩)).toOption =
      some ⟨none, none, some (.listed ["./packages/*".toList, "!**/b".toList])⟩) :
    ∀ manifest, Manifest.ofFile tree (root.join ⟨Manifest.fileName⟩) = .ok manifest →
      ∀ pattern ∈ manifest.patterns, isInside pattern = true ∧ (Text.splitOn '/' pattern).length < 4 := by
  intro manifest isManifest
  rw [isManifest] at declared
  obtain rfl := Option.some.inj declared
  decide +kernel

/-- The letters of a name may take up several bytes. -/
theorem members_moved_linkedTree :
    members (housing ["web".toList, "wé".toList] linkedTree) ⟨"/wé".toList⟩ =
      .ok [⟨"/wé/./packages/a".toList⟩, ⟨"/wé/./packages/c".toList⟩] := by
  have alike : HoldAlike (housing ["web".toList, "wé".toList] linkedTree)
      (housing ["web".toList, "wé".toList] linkedTree) ["web".toList] ["wé".toList] linkedTree 4 :=
    holdAlike_housing (by decide) (by decide) (by decide) (by decide) (by decide +kernel) linksStay_linkedTree
      (by decide +kernel)
  obtain ⟨outcome, isHere, isThere⟩ := members_moved alike
    (List.forall_mem_singleton.mpr (Glob.forall_isWild_eq_false (by decide)))
    (List.forall_mem_singleton.mpr (Glob.forall_isWild_eq_false (by decide)))
    ⟨by decide +kernel, by decide +kernel⟩ ⟨by decide +kernel, by decide +kernel⟩
    (inside_linkedTree (by decide +kernel))
  have listed : (members (housing ["web".toList, "wé".toList] linkedTree) ⟨"/web".toList⟩).toOption =
      some [⟨"/web/./packages/a".toList⟩, ⟨"/web/./packages/c".toList⟩] := by decide +kernel
  obtain ⟨rests, rfl, same⟩ := Option.map_eq_some_iff.mp (isHere.symm.trans listed)
  have replaced : rests.map (fun rest => Path.mk ((rooted ["wé".toList]).letters ++ rest)) =
      (rests.map fun rest => Path.mk ((rooted ["web".toList]).letters ++ rest)).map fun path =>
        ⟨(rooted ["wé".toList]).letters ++ path.letters.drop (rooted ["web".toList]).letters.length⟩ := by
    simp
  refine toOption_eq_some_iff.mp (isThere.trans (congrArg some (replaced.trans ?_)))
  rw [same]
  decide +kernel

/-- A bracket in the name of a directory stands for a letter, so that nothing is found below it. -/
theorem members_bracketed :
    ¬ ∀ (first second inner : FileTree) (here there : List Text) (slack : Nat),
      HoldAlike first second here there inner slack → IsTopmost first here → IsTopmost second there →
      (∀ manifest, Manifest.ofFile first ((rooted here).join ⟨Manifest.fileName⟩) = .ok manifest →
        ∀ pattern ∈ manifest.patterns, isInside pattern = true ∧ (Text.splitOn '/' pattern).length < slack) →
      ∃ outcome : Option (List Text),
        (members first (rooted here)).toOption =
          outcome.map (·.map fun rest => ⟨(rooted here).letters ++ rest⟩) ∧
        (members second (rooted there)).toOption =
          outcome.map (·.map fun rest => ⟨(rooted there).letters ++ rest⟩) := by
  intro claim
  have alike : HoldAlike (housing ["w(1)".toList, "w[1]".toList] linkedTree)
      (housing ["w(1)".toList, "w[1]".toList] linkedTree) ["w(1)".toList] ["w[1]".toList] linkedTree 4 :=
    holdAlike_housing (by decide) (by decide) (by decide) (by decide) (by decide +kernel) linksStay_linkedTree
      (by decide +kernel)
  obtain ⟨outcome, isHere, isThere⟩ := claim _ _ _ _ _ _ alike
    ⟨by decide +kernel, by decide +kernel⟩ ⟨by decide +kernel, by decide +kernel⟩
    (inside_linkedTree (by decide +kernel))
  have listed : (members (housing ["w(1)".toList, "w[1]".toList] linkedTree) ⟨"/w(1)".toList⟩).toOption =
      some [⟨"/w(1)/./packages/a".toList⟩, ⟨"/w(1)/./packages/c".toList⟩] := by decide +kernel
  have none : (members (housing ["w(1)".toList, "w[1]".toList] linkedTree) ⟨"/w[1]".toList⟩).toOption =
      some [] := by decide +kernel
  obtain ⟨rests, rfl, isEmpty⟩ := Option.map_eq_some_iff.mp (isThere.symm.trans none)
  obtain rfl := List.map_eq_nil_iff.mp isEmpty
  cases isHere.symm.trans listed

end Workspace

end ImportMeter
