/-
This file says how a path is followed in parts. What stands in front of a name is a directory that lists
the name, and no path that leads somewhere has more names than its links can lead down.
-/
import Mathlib.Data.List.Basic
import ImportMeter.FileTree.Basic
import ImportMeter.Proofs.Attempt
import ImportMeter.Proofs.Path.Parent
import ImportMeter.Proofs.Text

namespace ImportMeter

namespace Node

variable {node found : Node} {location below : Location} {name : Text} {entries : List (Text × Node)}

theorem at?_append (node : Node) (location below : Location) :
    node.at? (location ++ below) = (node.at? location).bind fun inner => inner.at? below := by
  induction location generalizing node with
  | nil =>
      rw [at?]
      rfl
  | cons name location inductionHypothesis =>
      cases node with
      | directory entries =>
          rw [List.cons_append, at?, at?, Option.bind_assoc]
          exact Option.bind_congr fun node _ => inductionHypothesis node
      | file => rfl
      | link target => rfl

theorem child?_eq_some (isChild : child? name entries = some node) : (name, node) ∈ entries := by
  obtain ⟨entry, found, same⟩ := Option.map_eq_some_iff.mp isChild
  have isName : entry.1 = name := by simpa using List.find?_some found
  subst isName same
  exact List.mem_of_find?_eq_some found

theorem exists_child? (member : (name, node) ∈ entries) : ∃ found, child? name entries = some found := by
  have found : (entries.find? fun entry => entry.1 = name).isSome = true :=
    List.find?_isSome.mpr ⟨(name, node), member, decide_eq_true rfl⟩
  obtain ⟨entry, found⟩ := Option.isSome_iff_exists.mp found
  exact ⟨entry.2, by rw [child?, found]; rfl⟩

theorem depth_le_depthOf (member : (name, node) ∈ entries) : node.depth ≤ depthOf entries := by
  induction entries with
  | nil => cases member
  | cons entry entries inductionHypothesis =>
      obtain ⟨other, first⟩ := entry
      rw [depthOf]
      rcases List.mem_cons.mp member with same | inRest
      · cases same
        exact Nat.le_max_left _ _
      · exact (inductionHypothesis inRest).trans (Nat.le_max_right _ _)

/-- Going down, the rest of a tree gets less deep. -/
theorem length_le_depth (isAt : node.at? location = some found) :
    location.length + found.depth ≤ node.depth := by
  induction location generalizing node with
  | nil =>
      rw [at?] at isAt
      cases isAt
      exact (Nat.zero_add _).le
  | cons name location inductionHypothesis =>
      cases node with
      | directory entries =>
          rw [at?] at isAt
          obtain ⟨child, isChild, isAt⟩ := Option.bind_eq_some_iff.mp isAt
          have below := inductionHypothesis isAt
          have notDeeper := depth_le_depthOf (child?_eq_some isChild)
          rw [depth, List.length_cons]
          omega
      | file => cases isAt
      | link target => cases isAt

end Node

/-- A name that a file system accepts for an entry. -/
structure IsFileName (name : Text) : Prop extends Path.IsEntryName name where
  zeroless : '\x00' ∉ name
  short : Text.utf8Length name ≤ FileTree.nameLimit

instance : DecidablePred IsFileName := fun name =>
  decidable_of_iff
    ((name ≠ [] ∧ name ≠ ['.'] ∧ name ≠ ['.', '.'] ∧ '/' ∉ name) ∧
      '\x00' ∉ name ∧ Text.utf8Length name ≤ FileTree.nameLimit)
    ⟨fun ⟨⟨filled, notDot, notDots, slashless⟩, zeroless, short⟩ =>
      ⟨⟨filled, notDot, notDots, slashless⟩, zeroless, short⟩,
    fun isName => ⟨⟨isName.filled, isName.notDot, isName.notDots, isName.slashless⟩, isName.zeroless,
      isName.short⟩⟩

namespace Node

mutual

/-- True if all entries at and below a node have names that a file system accepts. -/
def isWellNamed : Node → Bool
  | .directory entries => areWellNamed entries
  | _ => true

def areWellNamed : List (Text × Node) → Bool
  | [] => true
  | (name, node) :: rest => IsFileName name && node.isWellNamed && areWellNamed rest

end

theorem areWellNamed_iff {entries : List (Text × Node)} :
    areWellNamed entries = true ↔ ∀ entry ∈ entries, IsFileName entry.1 ∧ entry.2.isWellNamed = true := by
  induction entries with
  | nil => simp [areWellNamed]
  | cons entry entries inductionHypothesis =>
      obtain ⟨name, node⟩ := entry
      simp [areWellNamed, inductionHypothesis]

theorem isFileName_of_isWellNamed {node : Node} {location : Location} {entries : List (Text × Node)}
    (wellNamed : node.isWellNamed = true) (isAt : node.at? location = some (.directory entries)) :
    ∀ entry ∈ entries, IsFileName entry.1 := by
  induction location generalizing node with
  | nil =>
      rw [at?] at isAt
      cases isAt
      exact fun entry member => (areWellNamed_iff.mp wellNamed entry member).1
  | cons name location inductionHypothesis =>
      cases node with
      | directory others =>
          rw [at?] at isAt
          obtain ⟨child, isChild, isAt⟩ := Option.bind_eq_some_iff.mp isAt
          exact inductionHypothesis (areWellNamed_iff.mp wellNamed _ (child?_eq_some isChild)).2 isAt
      | file => cases isAt
      | link target => cases isAt

end Node

namespace FileTree

variable {tree : FileTree} {followsLast : Bool} {links : Nat} {location place : Location}
  {pieces rest names more : List Text} {name : Text}

open Path (isIdle isIdle_iff rooted AreEntryNames IsEntryName)

/-- A piece that is no component is passed over, but only in a directory. -/
theorem follow_idle (tree : FileTree) (followsLast : Bool) (location : Location) {piece : Text}
    (rest : List Text) (idle : isIdle piece = true) :
    tree.follow followsLast location (piece :: rest) =
      match tree.root.at? location with
      | some (.directory _) => tree.follow followsLast location rest
      | _ => .error .notDirectory := by
  cases isAt : tree.root.at? location with
  | none => simp only [follow, isAt]
  | some node => cases node <;> simp only [follow, isAt, if_pos (isIdle_iff.mp idle)]

/-- Where there is more of a path, a link is never its end. -/
theorem follow_append (tree : FileTree) (followsLast : Bool) (location : Location) (pieces : List Text)
    (filled : rest ≠ []) :
    tree.follow followsLast location (pieces ++ rest) =
      match tree.follow true location pieces with
      | .error fault => .error fault
      | .ok (.arrived location) => tree.follow followsLast location rest
      | .ok (.detour directory target left) => .ok (.detour directory target (left ++ rest)) := by
  induction pieces generalizing location with
  | nil => rfl
  | cons piece pieces inductionHypothesis =>
      have more : pieces ++ rest ≠ [] := fun none => filled (List.append_eq_nil_iff.mp none).2
      rw [List.cons_append, follow, follow]
      split
      next entries _ =>
        by_cases idle : (piece = [] || piece = ['.']) = true
        · rw [if_pos idle, if_pos idle, inductionHypothesis]
        rw [if_neg idle, if_neg idle]
        by_cases up : piece = ['.', '.']
        · rw [if_pos up, if_pos up, inductionHypothesis]
        rw [if_neg up, if_neg up]
        by_cases long : Text.utf8Length piece > nameLimit
        · rw [if_pos long, if_pos long]
        rw [if_neg long, if_neg long]
        cases Node.child? piece entries with
        | none => rfl
        | some node =>
            cases node with
            | link target => simp [more]
            | file => exact inductionHypothesis _
            | directory _ => exact inductionHypothesis _
      next => rfl

/-- A path that leads somewhere leads there over where its front leads. -/
theorem resolve_append (filled : rest ≠ [])
    (leads : tree.resolve followsLast links location (pieces ++ rest) = .ok place) :
    ∃ middle fewer, tree.resolve true links location pieces = .ok middle ∧
      tree.resolve followsLast (fewer + 1) middle rest = .ok place := by
  induction links generalizing location pieces with
  | zero => cases leads
  | succ links inductionHypothesis =>
      rw [resolve, follow_append tree followsLast location pieces filled] at leads
      rw [resolve]
      cases front : tree.follow true location pieces with
      | error fault =>
          rw [front] at leads
          cases leads
      | ok progress =>
          rw [front] at leads
          cases progress with
          | arrived middle =>
              refine ⟨middle, links, rfl, ?_⟩
              rw [resolve]
              exact leads
          | detour directory target left =>
              simp only at leads ⊢
              split at leads
              next => cases leads
              next filled =>
                rw [if_neg filled]
                rw [← List.append_assoc] at leads
                exact inductionHypothesis leads

/-- A name can be followed only where a directory lists it. -/
theorem exists_entry_of_follow {progress : Progress} (isName : IsEntryName name)
    (follows : tree.follow followsLast location (name :: rest) = .ok progress) :
    ∃ entries node, tree.root.at? location = some (.directory entries) ∧
      Node.child? name entries = some node := by
  rw [follow] at follows
  split at follows
  next entries isDirectory =>
    rw [if_neg (by simp [isName.filled, isName.notDot]), if_neg isName.notDots] at follows
    split at follows
    next => cases follows
    next =>
      cases isChild : Node.child? name entries with
      | none =>
          rw [isChild] at follows
          cases follows
      | some node => exact ⟨entries, node, isDirectory, isChild⟩
  next => cases follows

/-- What is left of a path where it is followed no further. -/
def Progress.left : Progress → List Text
  | .arrived _ => []
  | .detour _ _ rest => rest

/-- How many of some pieces are names. -/
def nameCount (pieces : List Text) : Nat := pieces.countP fun piece => !isIdle piece

theorem nameCount_append (pieces rest : List Text) :
    nameCount (pieces ++ rest) = nameCount pieces + nameCount rest := List.countP_append

theorem nameCount_of_names (areNames : AreEntryNames names) : nameCount names = names.length :=
  List.countP_eq_length.mpr fun name member => by rw [(areNames name member).isIdle]; rfl

/-- Without a link, each name leads further down. -/
theorem nameCount_of_follow {progress : Progress} (noUp : ['.', '.'] ∉ pieces)
    (follows : tree.follow followsLast location pieces = .ok progress) :
    ∃ taken, pieces = taken ++ progress.left ∧
      nameCount taken ≤ tree.root.depth - location.length := by
  induction pieces generalizing location with
  | nil =>
      cases follows
      exact ⟨[], rfl, Nat.zero_le _⟩
  | cons piece pieces inductionHypothesis =>
      obtain ⟨notUp, noUp⟩ := not_or.mp (mt List.mem_cons.mpr noUp)
      rw [follow] at follows
      split at follows
      next entries isDirectory =>
        have below := Node.length_le_depth isDirectory
        rw [Node.depth] at below
        by_cases idle : (piece = [] || piece = ['.']) = true
        · rw [if_pos idle] at follows
          obtain ⟨taken, split, few⟩ := inductionHypothesis noUp follows
          refine ⟨piece :: taken, congrArg _ split, ?_⟩
          rwa [nameCount, List.countP_cons_of_neg (by simp [isIdle_iff.mpr idle])]
        rw [if_neg idle, if_neg (Ne.symm notUp)] at follows
        have one : nameCount [piece] ≤ 1 := List.countP_le_length
        have isLast : nameCount [piece] ≤ tree.root.depth - location.length := by omega
        split at follows
        next => cases follows
        next =>
          split at follows
          next => cases follows
          next target _ =>
            split at follows
            next none =>
              cases follows
              obtain rfl : pieces = [] := by simpa using (Bool.and_eq_true_iff.mp none).1
              exact ⟨[piece], rfl, isLast⟩
            next =>
              cases follows
              exact ⟨[piece], rfl, isLast⟩
          next =>
            obtain ⟨taken, split, few⟩ := inductionHypothesis noUp follows
            refine ⟨piece :: taken, congrArg _ split, ?_⟩
            have both := nameCount_append [piece] taken
            rw [List.length_append, List.length_singleton] at few
            rw [← List.singleton_append]
            omega
      next => cases follows

/-- A path that leads somewhere has no more names than its links can lead down. -/
theorem nameCount_of_resolve (noUp : ['.', '.'] ∉ rest)
    (leads : tree.resolve followsLast links location (pieces ++ rest) = .ok place) :
    nameCount rest ≤ links * tree.root.depth := by
  induction links generalizing location pieces rest with
  | zero => cases leads
  | succ links inductionHypothesis =>
      by_cases filled : rest = []
      · rw [filled]
        exact Nat.zero_le _
      rw [resolve, follow_append tree followsLast location pieces filled] at leads
      rw [Nat.succ_mul]
      cases front : tree.follow true location pieces with
      | error fault =>
          rw [front] at leads
          cases leads
      | ok progress =>
          rw [front] at leads
          cases progress with
          | arrived middle =>
              simp only at leads
              cases behind : tree.follow followsLast middle rest with
              | error fault =>
                  rw [behind] at leads
                  cases leads
              | ok progress =>
                  obtain ⟨taken, split, few⟩ := nameCount_of_follow noUp behind
                  have count := nameCount_append taken progress.left
                  rw [← split] at count
                  rw [behind] at leads
                  cases progress with
                  | arrived last =>
                      have none : nameCount (Progress.arrived last).left = 0 := rfl
                      omega
                  | detour directory target left =>
                      simp only at leads
                      split at leads
                      next => cases leads
                      next =>
                        have further := inductionHypothesis
                          (fun up => noUp (split ▸ List.mem_append_right taken up)) leads
                        have same : nameCount (Progress.detour directory target left).left =
                          nameCount left := rfl
                        omega
          | detour directory target left =>
              simp only at leads
              split at leads
              next => cases leads
              next =>
                rw [← List.append_assoc] at leads
                exact (inductionHypothesis noUp leads).trans (Nat.le_add_right _ _)

/-! ### Absolute paths -/

theorem splitOn_rooted (slashless : ∀ piece ∈ pieces, '/' ∉ piece) (filled : pieces ≠ []) :
    Text.splitOn '/' (rooted pieces).letters = [] :: pieces :=
  (if_pos rfl).trans (congrArg _ (Text.splitOn_joinWith filled slashless))

/-- The root is a piece like others: it may be missing. -/
theorem locate_rooted (tree : FileTree) (followsLast : Bool)
    (slashless : ∀ piece ∈ pieces, '/' ∉ piece) :
    tree.locate followsLast (rooted pieces) =
      if (rooted pieces).letters.any (· = '\x00') then .error .zeroInName
      else if Text.utf8Length (rooted pieces).letters > pathLimit then .error .nameTooLong
      else tree.resolve followsLast (linkLimit + 1) [] ([] :: pieces) := by
  have absolute : (tree.workingDirectory.join (rooted pieces)) = rooted pieces := if_pos rfl
  have begins : (rooted pieces).letters ≠ [] := List.cons_ne_nil _ _
  rw [locate, if_neg begins, absolute]
  cases pieces with
  | nil =>
      have twice : Text.splitOn '/' (rooted []).letters = [[], []] := rfl
      have once : tree.follow followsLast [] [[], []] = tree.follow followsLast [] [[]] := by
        rw [follow_idle tree followsLast [] [[]] rfl, follow_idle tree followsLast [] [] rfl]
        split <;> rfl
      rw [twice, resolve, once, resolve]
  | cons piece pieces => rw [splitOn_rooted slashless (List.cons_ne_nil _ _)]

/-- The letters of a path begin with those of its front. -/
theorem exists_letters_rooted_append (names more : List Text) :
    ∃ behind, (rooted (names ++ more)).letters = (rooted names).letters ++ behind := by
  by_cases filled : names = []
  · exact ⟨Text.joinWith ['/'] more, by rw [filled]; rfl⟩
  exact ⟨_, Path.letters_rooted_append filled more⟩

/-- Only at a link does it matter whether the end of a path is followed. -/
theorem follow_unfollowed (tree : FileTree) (location : Location) (pieces : List Text) :
    tree.follow false location pieces = tree.follow true location pieces ∨
      ∃ last, tree.follow false location pieces = .ok (.arrived last) := by
  induction pieces generalizing location with
  | nil => exact .inl rfl
  | cons piece pieces inductionHypothesis =>
      rw [follow, follow]
      split
      next entries _ =>
        by_cases idle : (piece = [] || piece = ['.']) = true
        · rw [if_pos idle, if_pos idle]
          exact inductionHypothesis location
        rw [if_neg idle, if_neg idle]
        by_cases up : piece = ['.', '.']
        · rw [if_pos up, if_pos up]
          exact inductionHypothesis location.dropLast
        rw [if_neg up, if_neg up]
        by_cases long : Text.utf8Length piece > nameLimit
        · rw [if_pos long, if_pos long]
          exact .inl rfl
        rw [if_neg long, if_neg long]
        cases Node.child? piece entries with
        | none => exact .inl rfl
        | some node =>
            cases node with
            | link target => by_cases none : pieces = [] <;> simp [none]
            | file => exact inductionHypothesis _
            | directory _ => exact inductionHypothesis _
      next => exact .inl rfl

theorem exists_resolve_unfollowed (leads : tree.resolve true links location pieces = .ok place) :
    ∃ place, tree.resolve false links location pieces = .ok place := by
  induction links generalizing location pieces with
  | zero => cases leads
  | succ links inductionHypothesis =>
      rw [resolve] at leads ⊢
      rcases follow_unfollowed tree location pieces with same | ⟨last, arrived⟩
      · rw [same]
        cases followed : tree.follow true location pieces with
        | error fault =>
            rw [followed] at leads
            cases leads
        | ok progress =>
            rw [followed] at leads
            cases progress with
            | arrived last => exact ⟨last, rfl⟩
            | detour directory target left =>
                simp only at leads ⊢
                split at leads
                next => cases leads
                next filled =>
                  rw [if_neg filled]
                  exact inductionHypothesis leads
      · exact ⟨last, by rw [arrived]⟩

theorem existsUnfollowed_iff {path : Path} :
    tree.existsUnfollowed path = true ↔ ∃ place, tree.locate false path = .ok place := by
  rw [existsUnfollowed]
  cases tree.locate false path with
  | error fault => exact ⟨nofun, fun ⟨_, isOk⟩ => nomatch isOk⟩
  | ok place => exact ⟨fun _ => ⟨place, rfl⟩, fun _ => rfl⟩

theorem node_eq_ok_iff {path : Path} {node : Node} :
    tree.node path = .ok node ↔
      ∃ place, tree.locate true path = .ok place ∧ tree.root.at? place = some node := by
  rw [FileTree.node, bind_eq_ok_iff]
  refine exists_congr fun place => and_congr_right fun _ => ?_
  cases tree.root.at? place with
  | none => simp
  | some found => simp

theorem has_eq_false_iff {path : Path} : tree.has path = false ↔ ∃ fault, tree.node path = .error fault := by
  rw [has]
  cases tree.node path with
  | error fault => exact ⟨fun _ => ⟨fault, rfl⟩, fun _ => rfl⟩
  | ok node => exact ⟨nofun, fun ⟨_, failed⟩ => nomatch failed⟩

/-- Only directories are followed, and a link is followed to its end. -/
theorem at?_ne_link_of_follow {target : Path}
    (notLink : pieces = [] → tree.root.at? location ≠ some (.link target))
    (follows : tree.follow true location pieces = .ok (.arrived place)) :
    tree.root.at? place ≠ some (.link target) := by
  induction pieces generalizing location with
  | nil =>
      cases follows
      exact notLink rfl
  | cons piece pieces inductionHypothesis =>
      rw [follow] at follows
      split at follows
      next entries isDirectory =>
        split at follows
        next =>
          refine inductionHypothesis (fun _ isLink => ?_) follows
          rw [isDirectory] at isLink
          cases isLink
        next =>
          split at follows
          next =>
            refine inductionHypothesis (fun _ isLink => ?_) follows
            -- Above a directory there is no link.
            rcases List.eq_nil_or_concat' location with rfl | ⟨front, last, rfl⟩
            · rw [List.dropLast_nil, isDirectory] at isLink
              cases isLink
            · rw [List.dropLast_concat] at isLink
              rw [Node.at?_append, isLink] at isDirectory
              cases isDirectory
          next =>
            split at follows
            next => cases follows
            next =>
              split at follows
              next => cases follows
              next =>
                simp only [Bool.not_true, Bool.and_false, Bool.false_eq_true, if_false] at follows
                cases follows
              next child notLink isChild =>
                refine inductionHypothesis (fun _ isLink => ?_) follows
                rw [Node.at?_append, isDirectory] at isLink
                simp only [Option.bind_some, Node.at?] at isLink
                rw [isChild] at isLink
                exact notLink target (Option.some.inj isLink)
      next => cases follows

/-- At the end of a path stands no link, as it would be followed. -/
theorem node_ne_link (path target : Path) : tree.node path ≠ .ok (.link target) := by
  have ofResolve : ∀ links location pieces place, pieces ≠ [] →
      tree.resolve true links location pieces = .ok place → tree.root.at? place ≠ some (.link target) := by
    intro links
    induction links with
    | zero => exact nofun
    | succ links inductionHypothesis =>
        intro location pieces place filled leads
        rw [resolve] at leads
        split at leads
        next => cases leads
        next arrived =>
          cases leads
          exact at?_ne_link_of_follow (fun none => absurd none filled) arrived
        next =>
          split at leads
          next => cases leads
          next =>
            exact inductionHypothesis _ _ _ (List.append_ne_nil_of_left_ne_nil (Text.splitOn_ne_nil _ _) _) leads
  intro isNode
  obtain ⟨place, located, isLink⟩ := node_eq_ok_iff.mp isNode
  rw [locate] at located
  split at located
  · cases located
  · split at located
    · cases located
    · split at located
      · cases located
      · exact ofResolve _ _ _ _ (Text.splitOn_ne_nil _ _) located isLink
theorem entries?_eq_some_iff {path : Path} {entries : List (Text × Node)} :
    tree.entries? path = some entries ↔
      ∃ place, tree.locate true path = .ok place ∧ tree.root.at? place = some (.directory entries) := by
  rw [entries?, ← node_eq_ok_iff]
  split <;> simp_all

theorem isFile_iff {path : Path} : tree.isFile path = true ↔ tree.node path = .ok .file := by
  rw [isFile]
  split <;> simp_all

/-- What it takes to find something at the end of an absolute path. -/
theorem locate_rooted_eq_ok_iff (slashless : ∀ piece ∈ pieces, '/' ∉ piece) :
    tree.locate followsLast (rooted pieces) = .ok place ↔
      '\x00' ∉ (rooted pieces).letters ∧ Text.utf8Length (rooted pieces).letters ≤ pathLimit ∧
        tree.resolve followsLast (linkLimit + 1) [] ([] :: pieces) = .ok place := by
  have hasZero : (rooted pieces).letters.any (· = '\x00') = true ↔ '\x00' ∈ (rooted pieces).letters := by
    simp
  rw [locate_rooted tree followsLast slashless]
  split
  next zero => simp [hasZero.mp zero]
  next noZero =>
    split
    next long => simp [Nat.not_le.mpr long]
    next short => simp [mt hasZero.mpr noZero, Nat.not_lt.mp short]

/-- What stands below a directory is reached over one of its entries. -/
theorem exists_entry_of_existsUnfollowed (areNames : AreEntryNames (names ++ name :: more))
    (isThere : tree.existsUnfollowed (rooted (names ++ name :: more)) = true) :
    (∃ entries node, tree.entries? (rooted names) = some entries ∧
      Node.child? name entries = some node) ∧
    tree.existsUnfollowed (rooted (names ++ [name])) = true := by
  have slashless := areNames.slashless
  obtain ⟨place, located⟩ := existsUnfollowed_iff.mp isThere
  obtain ⟨noZero, short, leads⟩ := (locate_rooted_eq_ok_iff slashless).mp located
  -- A front of the path is no longer than the path and has no other letters.
  have front : ∀ {followsLast place} (front behind), names ++ name :: more = front ++ behind →
      tree.resolve followsLast (linkLimit + 1) [] ([] :: front) = .ok place →
        tree.locate followsLast (rooted front) = .ok place := by
    intro followsLast place front behind split leads
    obtain ⟨letters, same⟩ := exists_letters_rooted_append front behind
    rw [split, same] at noZero short
    rw [Text.utf8Length_append] at short
    refine (locate_rooted_eq_ok_iff fun piece member => ?_).mpr
      ⟨fun zero => noZero (List.mem_append_left _ zero), (Nat.le_add_right _ _).trans short, leads⟩
    exact slashless piece (split ▸ List.mem_append_left _ member)
  have split : [] :: (names ++ name :: more) = ([] :: names) ++ name :: more := rfl
  obtain ⟨middle, fewer, upTo, onward⟩ := resolve_append (List.cons_ne_nil name more) (split ▸ leads)
  refine ⟨?_, ?_⟩
  · rw [resolve] at onward
    cases followed : tree.follow false middle (name :: more) with
    | error fault =>
        rw [followed] at onward
        cases onward
    | ok progress =>
        obtain ⟨entries, node, isDirectory, isChild⟩ :=
          exists_entry_of_follow (areNames name (by simp)) followed
        refine ⟨entries, node, ?_, isChild⟩
        have upTo := front names (name :: more) rfl upTo
        exact entries?_eq_some_iff.mpr ⟨middle, upTo, isDirectory⟩
  · rw [existsUnfollowed_iff]
    cases more with
    | nil => exact ⟨place, located⟩
    | cons next more =>
        have split : [] :: (names ++ name :: next :: more) = ([] :: (names ++ [name])) ++ next :: more := by
          simp
        obtain ⟨middle, _, upTo, _⟩ := resolve_append (List.cons_ne_nil next more) (split ▸ leads)
        obtain ⟨place, unfollowed⟩ := exists_resolve_unfollowed upTo
        exact ⟨place, front (names ++ [name]) (next :: more) (by simp) unfollowed⟩

/-- Where a path leads to a directory, the entries of that directory are below it. -/
theorem exists_resolve_concat {entries : List (Text × Node)} {node : Node} (isName : IsEntryName name)
    (short : Text.utf8Length name ≤ nameLimit)
    (leads : tree.resolve true links location pieces = .ok place)
    (isDirectory : tree.root.at? place = some (.directory entries))
    (isChild : Node.child? name entries = some node) :
    tree.resolve false links location (pieces ++ [name]) = .ok (place ++ [name]) := by
  induction links generalizing location pieces with
  | zero => cases leads
  | succ links inductionHypothesis =>
      have filled : [name] ≠ [] := List.cons_ne_nil _ _
      rw [resolve] at leads ⊢
      rw [follow_append tree false location pieces filled]
      cases front : tree.follow true location pieces with
      | error fault =>
          rw [front] at leads
          cases leads
      | ok progress =>
          rw [front] at leads
          cases progress with
          | arrived middle =>
              obtain rfl : middle = place := Except.ok.inj leads
              have arrives : tree.follow false middle [name] = .ok (.arrived (middle ++ [name])) := by
                rw [follow, isDirectory]
                simp only [isName.filled, isName.notDot, isName.notDots, decide_false, Bool.or_false,
                  Bool.false_eq_true, if_false, Nat.not_lt.mpr short, isChild]
                cases node <;> rfl
              simp only [arrives]
          | detour directory target left =>
              simp only at leads ⊢
              split at leads
              next => cases leads
              next filled =>
                rw [if_neg filled, ← List.append_assoc]
                exact inductionHypothesis leads

theorem letters_rooted_concat (names : List Text) (name : Text) :
    (rooted (names ++ [name])).letters =
      (rooted names).letters ++ if names = [] then name else '/' :: name := by
  by_cases none : names = []
  · rw [none]
    rfl
  · rw [Path.letters_rooted_append none, if_neg none, if_neg (List.cons_ne_nil _ _), Text.joinWith]

/-- What a directory lists can be looked up, unless the path gets too long. -/
theorem existsUnfollowed_of_entry {entries : List (Text × Node)} {node : Node}
    (areNames : AreEntryNames names) (listed : tree.entries? (rooted names) = some entries)
    (isChild : Node.child? name entries = some node) (isName : IsFileName name)
    (short : Text.utf8Length (rooted (names ++ [name])).letters ≤ pathLimit) :
    tree.existsUnfollowed (rooted (names ++ [name])) = true := by
  obtain ⟨place, located, isDirectory⟩ := entries?_eq_some_iff.mp listed
  obtain ⟨zeroless, _, leads⟩ := (locate_rooted_eq_ok_iff areNames.slashless).mp located
  have areAll := areNames.concat isName.toIsEntryName
  refine existsUnfollowed_iff.mpr ⟨place ++ [name],
    (locate_rooted_eq_ok_iff areAll.slashless).mpr ⟨?_, short, ?_⟩⟩
  · rw [letters_rooted_concat, List.mem_append, not_or]
    refine ⟨zeroless, ?_⟩
    split
    · exact isName.zeroless
    · simp [isName.zeroless]
  · rw [← List.cons_append]
    exact exists_resolve_concat isName.toIsEntryName isName.short leads isDirectory isChild

/-- True if all entries of all directories have names that a file system accepts. -/
def WellNamed (tree : FileTree) : Prop := tree.root.isWellNamed = true

instance : DecidablePred WellNamed := fun tree => inferInstanceAs (Decidable (tree.root.isWellNamed = true))

theorem WellNamed.isFileName (wellNamed : tree.WellNamed) {path : Path} {entries : List (Text × Node)}
    (listed : tree.entries? path = some entries) : ∀ entry ∈ entries, IsFileName entry.1 := by
  obtain ⟨place, _, isDirectory⟩ := entries?_eq_some_iff.mp listed
  exact Node.isFileName_of_isWellNamed wellNamed isDirectory

/-- What is found has no more names than links can lead down. -/
theorem length_le_of_existsUnfollowed (areNames : AreEntryNames names)
    (isThere : tree.existsUnfollowed (rooted names) = true) :
    names.length ≤ (linkLimit + 1) * tree.root.depth := by
  obtain ⟨place, located⟩ := existsUnfollowed_iff.mp isThere
  obtain ⟨_, _, leads⟩ := (locate_rooted_eq_ok_iff areNames.slashless).mp located
  have noUp : ['.', '.'] ∉ names := fun up => (areNames _ up).notDots rfl
  rw [← List.singleton_append] at leads
  rw [← nameCount_of_names areNames]
  exact nameCount_of_resolve noUp leads

end FileTree

end ImportMeter
