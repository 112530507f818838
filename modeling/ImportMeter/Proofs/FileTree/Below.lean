/-
This file says that a directory looks alike wherever it stands: what is found on the paths below it does
not depend on the names above, as long as its links stay inside and no path gets too long.
-/
import ImportMeter.Proofs.Attempt
import ImportMeter.Proofs.FileTree.Lookup

namespace ImportMeter

open Path (isIdle isIdle_iff rooted pushPiece AreEntryNames IsEntryName)

/-! ### Links that stay inside -/

/-- True for pieces that lead up only in front, and no further than they start below the top. -/
def staysBelow : Nat → List Text → Bool
  | _, [] => true
  | depth, piece :: rest =>
    if isIdle piece then staysBelow depth rest
    else if piece = ['.', '.'] then 0 < depth && staysBelow (depth - 1) rest
    else ['.', '.'] ∉ rest

section Stays

variable {depth : Nat} {piece : Text} {pieces rest : List Text}

theorem staysBelow_of_noUp (depth : Nat) (noUp : ['.', '.'] ∉ pieces) : staysBelow depth pieces = true := by
  induction pieces generalizing depth with
  | nil => rfl
  | cons piece pieces inductionHypothesis =>
      obtain ⟨notUp, noUp⟩ := not_or.mp (mt List.mem_cons.mpr noUp)
      rw [staysBelow, if_neg (Ne.symm notUp), inductionHypothesis depth noUp, decide_eq_true noUp, ite_self]

theorem staysBelow_append (stays : staysBelow depth pieces = true) (noUp : ['.', '.'] ∉ rest) :
    staysBelow depth (pieces ++ rest) = true := by
  induction pieces generalizing depth with
  | nil => exact staysBelow_of_noUp depth noUp
  | cons piece pieces inductionHypothesis =>
      rw [staysBelow] at stays
      rw [List.cons_append, staysBelow]
      by_cases idle : isIdle piece = true
      · rw [if_pos idle] at stays ⊢
        exact inductionHypothesis stays
      rw [if_neg idle] at stays ⊢
      by_cases up : piece = ['.', '.']
      · rw [if_pos up] at stays ⊢
        obtain ⟨below, stays⟩ := Bool.and_eq_true_iff.mp stays
        exact Bool.and_eq_true_iff.mpr ⟨below, inductionHypothesis stays⟩
      rw [if_neg up] at stays ⊢
      have noMore := List.not_mem_append (of_decide_eq_true stays) noUp
      exact decide_eq_true noMore

end Stays

namespace Node

mutual

/-- True if the links at and below a node that stands in a directory so far below the top stay there. -/
def keepsLinks (depth : Nat) : Node → Bool
  | .file => true
  | .link target => !target.isAbsolute && staysBelow depth (target.letters.splitOn '/')
  | .directory entries => keepLinks (depth + 1) entries

def keepLinks (depth : Nat) : List (Text × Node) → Bool
  | [] => true
  | (_, node) :: rest => node.keepsLinks depth && keepLinks depth rest

end

variable {depth : Nat} {entries others : List (Text × Node)} {location : Location}

theorem keepLinks_iff : keepLinks depth entries = true ↔ ∀ entry ∈ entries, entry.2.keepsLinks depth = true := by
  induction entries with
  | nil => simp [keepLinks]
  | cons entry entries inductionHypothesis =>
      obtain ⟨name, node⟩ := entry
      simp [keepLinks, inductionHypothesis]

theorem keepLinks_of_at? (keep : keepLinks depth entries = true)
    (isAt : (Node.directory entries).at? location = some (.directory others)) :
    keepLinks (depth + location.length) others = true := by
  induction location generalizing depth entries with
  | nil =>
      rw [at?] at isAt
      cases isAt
      exact keep
  | cons name location inductionHypothesis =>
      rw [at?] at isAt
      obtain ⟨child, isChild, isAt⟩ := Option.bind_eq_some_iff.mp isAt
      have keeps := keepLinks_iff.mp keep _ (child?_eq_some isChild)
      cases child with
      | directory inside =>
          rw [List.length_cons, Nat.add_comm location.length, ← Nat.add_assoc]
          exact inductionHypothesis keeps isAt
      | file => cases location <;> cases isAt
      | link target => cases location <;> cases isAt

end Node

namespace FileTree

variable {tree inner : FileTree} {names pieces rest : List Text} {followsLast : Bool} {links : Nat}
  {location place directory : Location} {target : Path}

/-- True if no link of a tree leads out of it. -/
def LinksStay (tree : FileTree) : Prop :=
  ∃ entries, tree.root = .directory entries ∧ Node.keepLinks 0 entries = true

/-- Where a link is met, it is relative, and it and what is left of the path stay inside. -/
theorem LinksStay.detour (stay : tree.LinksStay) (stays : staysBelow location.length pieces = true)
    (follows : tree.follow followsLast location pieces = .ok (.detour directory target rest)) :
    target.isAbsolute = false ∧ staysBelow directory.length (target.letters.splitOn '/' ++ rest) = true := by
  induction pieces generalizing location with
  | nil => cases follows
  | cons piece pieces inductionHypothesis =>
      by_cases idle : isIdle piece = true
      · rw [staysBelow, if_pos idle] at stays
        rw [follow_idle tree followsLast location pieces idle] at follows
        split at follows
        next => exact inductionHypothesis stays follows
        next => cases follows
      rw [staysBelow, if_neg idle] at stays
      have notDot : ¬ (piece = [] || piece = ['.']) = true := mt isIdle_iff.mpr idle
      rw [follow] at follows
      split at follows
      next entries isDirectory =>
        rw [if_neg notDot] at follows
        by_cases up : piece = ['.', '.']
        · rw [if_pos up] at follows stays
          refine inductionHypothesis ?_ follows
          rw [List.length_dropLast]
          exact (Bool.and_eq_true_iff.mp stays).2
        rw [if_neg up] at follows stays
        have noUp := of_decide_eq_true stays
        split at follows
        next => cases follows
        next =>
          split at follows
          next => cases follows
          next found isChild =>
            split at follows
            next => cases follows
            next =>
              cases follows
              obtain ⟨top, isTop, keep⟩ := stay
              rw [isTop] at isDirectory
              have keeps := Node.keepLinks_iff.mp (Node.keepLinks_of_at? keep isDirectory) _
                (Node.child?_eq_some isChild)
              rw [Nat.zero_add, Node.keepsLinks, Bool.and_eq_true_iff, Bool.not_eq_true'] at keeps
              exact ⟨keeps.1, staysBelow_append keeps.2 noUp⟩
          next => exact inductionHypothesis (staysBelow_of_noUp _ noUp) follows
      next => cases follows

/-! ### A tree inside of a tree -/

/-- A directory of a tree that is a tree of its own. -/
structure Holds (tree : FileTree) (names : List Text) (inner : FileTree) : Prop where
  areNames : ∀ name ∈ names, IsFileName name
  filled : names ≠ []
  isAt : tree.root.at? names = some inner.root
  sameFiles : ∀ place, tree.file (names ++ place) = inner.file place

/-- The same way below some names. -/
def Progress.below (names : List Text) : Progress → Progress
  | .arrived location => .arrived (names ++ location)
  | .detour directory target rest => .detour (names ++ directory) target rest

theorem Holds.areEntryNames (holds : tree.Holds names inner) : AreEntryNames names :=
  fun name member => (holds.areNames name member).toIsEntryName

theorem Holds.at? (holds : tree.Holds names inner) (location : Location) :
    tree.root.at? (names ++ location) = inner.root.at? location := by
  rw [Node.at?_append, holds.isAt, Option.bind_some]

/-- A piece is seen from below the names. -/
theorem Holds.join {piece : Text} (holds : tree.Holds names inner) (slashless : ∀ other ∈ pieces, '/' ∉ other)
    (free : '/' ∉ piece) :
    (rooted (names ++ pieces)).join ⟨piece⟩ = rooted (names ++ pushPiece pieces piece) :=
  Path.join_rooted_append holds.areEntryNames holds.filled slashless free

/-- What stays inside is followed alike. -/
theorem Holds.follow (holds : tree.Holds names inner) (stays : staysBelow location.length pieces = true) :
    tree.follow followsLast (names ++ location) pieces =
      (inner.follow followsLast location pieces).map (Progress.below names) := by
  induction pieces generalizing location with
  | nil => rfl
  | cons piece pieces inductionHypothesis =>
      by_cases idle : isIdle piece = true
      · rw [staysBelow, if_pos idle] at stays
        rw [follow_idle tree _ _ _ idle, follow_idle inner _ _ _ idle, holds.at?, inductionHypothesis stays]
        split <;> rfl
      rw [staysBelow, if_neg idle] at stays
      have notDot : ¬ (piece = [] || piece = ['.']) = true := mt isIdle_iff.mpr idle
      rw [FileTree.follow, FileTree.follow, holds.at?]
      split
      next entries _ =>
        rw [if_neg notDot, if_neg notDot]
        by_cases up : piece = ['.', '.']
        · rw [if_pos up] at stays ⊢
          obtain ⟨below, stays⟩ := Bool.and_eq_true_iff.mp stays
          have inside : location ≠ [] := List.length_pos_iff.mp (of_decide_eq_true below)
          rw [if_pos up, List.dropLast_append_of_ne_nil inside]
          exact inductionHypothesis (by rwa [List.length_dropLast])
        rw [if_neg up] at stays
        have further : tree.follow followsLast (names ++ location ++ [piece]) pieces =
            (inner.follow followsLast (location ++ [piece]) pieces).map (Progress.below names) := by
          rw [List.append_assoc]
          exact inductionHypothesis (staysBelow_of_noUp _ (of_decide_eq_true stays))
        rw [if_neg up, if_neg up]
        split
        next => rfl
        next =>
          cases Node.child? piece entries with
          | none => rfl
          | some node =>
              cases node with
              | link target =>
                  dsimp only
                  split
                  · rw [List.append_assoc]
                    rfl
                  · rfl
              | file => exact further
              | directory => exact further
      next => rfl

/-- What stays inside leads to the same place. -/
theorem Holds.resolve (holds : tree.Holds names inner) (stay : inner.LinksStay)
    (stays : staysBelow location.length pieces = true) :
    tree.resolve followsLast links (names ++ location) pieces =
      (inner.resolve followsLast links location pieces).map (names ++ ·) := by
  induction links generalizing location pieces with
  | zero => rfl
  | succ links inductionHypothesis =>
      rw [FileTree.resolve, FileTree.resolve, holds.follow stays]
      cases follows : inner.follow followsLast location pieces with
      | error fault => rfl
      | ok progress =>
          cases progress with
          | arrived place => rfl
          | detour directory target rest =>
              obtain ⟨relative, further⟩ := stay.detour stays follows
              simp only [Except.map, Progress.below, relative, Bool.false_eq_true, if_false]
              split
              · rfl
              · exact inductionHypothesis further

/-- Directories that are listed one in the other are followed down to the last. -/
theorem follow_names {entries : List (Text × Node)} (areNames : ∀ name ∈ names, IsFileName name)
    (isAt : tree.root.at? (location ++ names) = some (.directory entries)) :
    tree.follow followsLast location (names ++ pieces) = tree.follow followsLast (location ++ names) pieces := by
  induction names generalizing location with
  | nil => rw [List.append_nil, List.nil_append]
  | cons name names inductionHypothesis =>
      obtain ⟨isName, areNames⟩ := List.forall_mem_cons.mp areNames
      have split : location ++ name :: names = location ++ [name] ++ names := by simp
      have further := inductionHypothesis areNames (split ▸ isAt)
      rw [Node.at?_append] at isAt
      obtain ⟨node, isNode, isAt⟩ := Option.bind_eq_some_iff.mp isAt
      cases node with
      | directory others =>
          obtain ⟨child, isChild, isAt⟩ := Option.bind_eq_some_iff.mp isAt
          have notDot : ¬ (name = [] || name = ['.']) = true := by simp [isName.filled, isName.notDot]
          rw [List.cons_append, FileTree.follow, isNode]
          dsimp only
          rw [if_neg notDot, if_neg isName.notDots, if_neg (Nat.not_lt.mpr isName.short), isChild, split]
          cases child with
          | file => exact further
          | directory => exact further
          | link target => cases names <;> cases isAt
      | file => cases isAt
      | link target => cases isAt

/-- From the root, what stands below a directory is found as from that directory. -/
theorem Holds.resolve_rooted (holds : tree.Holds names inner) (stay : inner.LinksStay)
    (noUp : ['.', '.'] ∉ pieces) :
    tree.resolve followsLast (links + 1) [] ([] :: (names ++ pieces)) =
      (inner.resolve followsLast (links + 1) [] pieces).map (names ++ ·) := by
  obtain ⟨top, isTop⟩ : ∃ top, tree.root.at? [] = some (.directory top) := by
    have isAt := holds.isAt
    obtain ⟨name, others, rfl⟩ := List.exists_cons_of_ne_nil holds.filled
    cases root : tree.root with
    | directory top => exact ⟨top, Node.at?.eq_1 _⟩
    | file =>
        rw [root] at isAt
        cases isAt
    | link target =>
        rw [root] at isAt
        cases isAt
  have inside : staysBelow ([] : Location).length pieces = true := staysBelow_of_noUp 0 noUp
  have fromNames : tree.resolve followsLast (links + 1) (names ++ []) pieces =
      (inner.resolve followsLast (links + 1) [] pieces).map (names ++ ·) := holds.resolve stay inside
  obtain ⟨entries, isDirectory, _⟩ := stay
  rw [← fromNames, List.append_nil, FileTree.resolve, FileTree.resolve, follow_idle tree _ _ _ rfl, isTop]
  dsimp only
  rw [follow_names holds.areNames (isDirectory ▸ holds.isAt), List.nil_append]

/-- What it takes to find something below a directory that is a tree of its own. -/
theorem Holds.locate_eq_ok_iff (holds : tree.Holds names inner) (stay : inner.LinksStay)
    (slashless : ∀ piece ∈ pieces, '/' ∉ piece) (noUp : ['.', '.'] ∉ pieces) :
    tree.locate followsLast (rooted (names ++ pieces)) = .ok place ↔
      (∀ piece ∈ pieces, '\x00' ∉ piece) ∧ Text.utf8Length (rooted (names ++ pieces)).letters ≤ pathLimit ∧
        ∃ below, inner.resolve followsLast (linkLimit + 1) [] pieces = .ok below ∧ place = names ++ below := by
  have free : ∀ piece ∈ names ++ pieces, '/' ∉ piece :=
    List.forall_mem_append.mpr ⟨holds.areEntryNames.slashless, slashless⟩
  have zeroless : '\x00' ∉ (rooted (names ++ pieces)).letters ↔ ∀ piece ∈ pieces, '\x00' ∉ piece := by
    simp only [Path.mem_letters_rooted_iff, List.mem_append]
    constructor
    · exact fun none piece member zero => none (.inr ⟨piece, .inr member, zero⟩)
    · rintro none (isSlash | ⟨piece, isName | isPiece, zero⟩)
      · exact absurd isSlash (by decide)
      · exact (holds.areNames piece isName).zeroless zero
      · exact none piece isPiece zero
  rw [locate_rooted_eq_ok_iff free, zeroless, holds.resolve_rooted stay noUp]
  refine and_congr_right fun _ => and_congr_right fun _ => ?_
  cases inner.resolve followsLast (linkLimit + 1) [] pieces with
  | error fault => simp [Except.map]
  | ok below => simp [Except.map, eq_comm]

theorem length_le_of_locate {path : Path} (located : tree.locate followsLast path = .ok place) :
    Text.utf8Length path.letters ≤ pathLimit := by
  rw [FileTree.locate] at located
  split_ifs at located with _ _ long
  exact Nat.not_lt.mp long

/-- The way to what is found below a directory leads over that directory. -/
theorem Holds.existsUnfollowed (holds : tree.Holds names inner) (stay : inner.LinksStay)
    (located : tree.locate followsLast (rooted (names ++ pieces)) = .ok place) :
    tree.existsUnfollowed (rooted names) = true := by
  have short := length_le_of_locate located
  rw [Path.letters_rooted_append holds.filled, Text.utf8Length_append] at short
  have noPiece : ∀ {holds : Text → Prop}, ∀ piece ∈ ([] : List Text), holds piece := nofun
  have here : tree.locate false (rooted (names ++ [])) = .ok (names ++ []) := by
    refine (holds.locate_eq_ok_iff stay noPiece List.not_mem_nil).mpr ⟨noPiece, ?_, [], rfl, rfl⟩
    rw [List.append_nil]
    exact (Nat.le_add_right _ _).trans short
  rw [List.append_nil] at here
  exact existsUnfollowed_iff.mpr ⟨names, here⟩

/-! ### One tree in two places -/

/-- A further piece takes the place of an empty one at most. -/
theorem countP_pushPiece (pieces : List Text) (piece : Text) :
    (pushPiece pieces piece).countP isIdle ≤ pieces.countP isIdle + [piece].countP isIdle ∧
      nameCount (pushPiece pieces piece) = nameCount pieces + nameCount [piece] := by
  rw [pushPiece, List.countP_append, nameCount_append]
  split
  next isSlash =>
    obtain ⟨front, rfl⟩ := List.getLast?_eq_some_iff.mp isSlash
    have none : nameCount [([] : Text)] = 0 := rfl
    rw [List.dropLast_concat, List.countP_append, nameCount_append, none]
    omega
  next => exact ⟨Nat.le_refl _, rfl⟩

/-- Pieces below a directory that do not lead up, of which few are empty or dots. -/
structure IsTried (slack : Nat) (pieces : List Text) : Prop where
  slashless : ∀ piece ∈ pieces, '/' ∉ piece
  noUp : ['.', '.'] ∉ pieces
  few : pieces.countP isIdle ≤ slack

/-- What is found below some names does not get too long a path below others. -/
def Fits (tree : FileTree) (names others : List Text) (slack : Nat) : Prop :=
  ∀ pieces, IsTried slack pieces → tree.existsUnfollowed (rooted (names ++ pieces)) = true →
    Text.utf8Length (rooted (others ++ pieces)).letters ≤ pathLimit

/-- Two directories hold the same tree. Its links stay inside, and the paths in it fit below both. -/
structure HoldAlike (first second : FileTree) (here there : List Text) (inner : FileTree) (slack : Nat) :
    Prop where
  holds : first.Holds here inner
  alsoHolds : second.Holds there inner
  wellNamed : inner.WellNamed
  stay : inner.LinksStay
  fits : first.Fits here there slack
  alsoFits : second.Fits there here slack

section Alike

variable {first second : FileTree} {here there : List Text} {slack : Nat} {path : Path}

theorem HoldAlike.symm (alike : HoldAlike first second here there inner slack) :
    HoldAlike second first there here inner slack :=
  ⟨alike.alsoHolds, alike.holds, alike.wellNamed, alike.stay, alike.alsoFits, alike.fits⟩

/-- A path leads to the same place in both directories. -/
theorem HoldAlike.locate (alike : HoldAlike first second here there inner slack) (tried : IsTried slack pieces)
    (located : first.locate followsLast (rooted (here ++ pieces)) = .ok place) :
    ∃ below, place = here ++ below ∧
      second.locate followsLast (rooted (there ++ pieces)) = .ok (there ++ below) := by
  obtain ⟨zeroless, short, below, leads, rfl⟩ :=
    (alike.holds.locate_eq_ok_iff alike.stay tried.slashless tried.noUp).mp located
  have isThere : first.existsUnfollowed (rooted (here ++ pieces)) = true := by
    rw [existsUnfollowed_iff]
    cases followsLast with
    | false => exact ⟨_, located⟩
    | true =>
        obtain ⟨last, leads⟩ := exists_resolve_unfollowed leads
        exact ⟨here ++ last, (alike.holds.locate_eq_ok_iff alike.stay tried.slashless tried.noUp).mpr
          ⟨zeroless, short, last, leads, rfl⟩⟩
  exact ⟨below, rfl, (alike.alsoHolds.locate_eq_ok_iff alike.stay tried.slashless tried.noUp).mpr
    ⟨zeroless, alike.fits pieces tried isThere, below, leads, rfl⟩⟩

theorem HoldAlike.existsUnfollowed (alike : HoldAlike first second here there inner slack)
    (tried : IsTried slack pieces) (isThere : first.existsUnfollowed (rooted (here ++ pieces)) = true) :
    second.existsUnfollowed (rooted (there ++ pieces)) = true := by
  obtain ⟨place, located⟩ := existsUnfollowed_iff.mp isThere
  obtain ⟨below, _, alsoLocated⟩ := alike.locate tried located
  exact existsUnfollowed_iff.mpr ⟨_, alsoLocated⟩

theorem HoldAlike.node (alike : HoldAlike first second here there inner slack) (tried : IsTried slack pieces)
    {node : Node} (isNode : first.node (rooted (here ++ pieces)) = .ok node) :
    second.node (rooted (there ++ pieces)) = .ok node := by
  obtain ⟨place, located, isAt⟩ := node_eq_ok_iff.mp isNode
  obtain ⟨below, rfl, alsoLocated⟩ := alike.locate tried located
  rw [alike.holds.at?] at isAt
  exact node_eq_ok_iff.mpr ⟨_, alsoLocated, by rwa [alike.alsoHolds.at?]⟩

theorem HoldAlike.readText (alike : HoldAlike first second here there inner slack) (tried : IsTried slack pieces)
    {text : Text} (isText : first.readText (rooted (here ++ pieces)) = .ok text) :
    second.readText (rooted (there ++ pieces)) = .ok text := by
  obtain ⟨place, located, isText⟩ := bind_eq_ok_iff.mp isText
  obtain ⟨below, rfl, alsoLocated⟩ := alike.locate tried located
  refine bind_eq_ok_iff.mpr ⟨_, alsoLocated, ?_⟩
  rw [textAt, alike.holds.at?, alike.holds.sameFiles] at isText
  rwa [textAt, alike.alsoHolds.at?, alike.alsoHolds.sameFiles]

theorem HoldAlike.existsUnfollowed_eq (alike : HoldAlike first second here there inner slack)
    (tried : IsTried slack pieces) :
    first.existsUnfollowed (rooted (here ++ pieces)) = second.existsUnfollowed (rooted (there ++ pieces)) :=
  Bool.eq_iff_iff.mpr ⟨alike.existsUnfollowed tried, alike.symm.existsUnfollowed tried⟩

theorem HoldAlike.entries?_eq (alike : HoldAlike first second here there inner slack)
    (tried : IsTried slack pieces) :
    first.entries? (rooted (here ++ pieces)) = second.entries? (rooted (there ++ pieces)) := by
  refine Option.ext fun entries => ?_
  simp only [entries?_eq_some_iff, ← node_eq_ok_iff]
  exact ⟨alike.node tried, alike.symm.node tried⟩

theorem HoldAlike.isFile_eq (alike : HoldAlike first second here there inner slack)
    (tried : IsTried slack pieces) :
    first.isFile (rooted (here ++ pieces)) = second.isFile (rooted (there ++ pieces)) := by
  rw [Bool.eq_iff_iff, isFile_iff, isFile_iff]
  exact ⟨alike.node tried, alike.symm.node tried⟩

/-- The entries of a directory have the names that the tree gives them. -/
theorem HoldAlike.isFileName (alike : HoldAlike first second here there inner slack)
    (tried : IsTried slack pieces) {entries : List (Text × Node)}
    (listed : first.entries? (rooted (here ++ pieces)) = some entries) :
    ∀ entry ∈ entries, IsFileName entry.1 := by
  obtain ⟨place, located, isAt⟩ := entries?_eq_some_iff.mp listed
  obtain ⟨below, rfl, _⟩ := alike.locate tried located
  rw [alike.holds.at?] at isAt
  exact Node.isFileName_of_isWellNamed alike.wellNamed isAt

/-- What is found has no more names than links can lead down. -/
theorem HoldAlike.nameCount_le (alike : HoldAlike first second here there inner slack)
    (tried : IsTried slack pieces) (located : first.locate followsLast (rooted (here ++ pieces)) = .ok place) :
    nameCount pieces ≤ (linkLimit + 1) * inner.root.depth := by
  obtain ⟨_, _, below, leads, _⟩ :=
    (alike.holds.locate_eq_ok_iff alike.stay tried.slashless tried.noUp).mp located
  have leads : inner.resolve followsLast (linkLimit + 1) [] ([] ++ pieces) = .ok below := leads
  exact nameCount_of_resolve tried.noUp leads

/-- Below names that take up as many bytes, paths are as long. -/
theorem fits_of_sameLength (filled : here ≠ []) (alsoFilled : there ≠ [])
    (sameLength : Text.utf8Length (rooted here).letters = Text.utf8Length (rooted there).letters) :
    first.Fits here there slack := by
  intro pieces _ isThere
  obtain ⟨place, located⟩ := existsUnfollowed_iff.mp isThere
  have short := length_le_of_locate located
  rw [Path.letters_rooted_append filled, Text.utf8Length_append, sameLength] at short
  rwa [Path.letters_rooted_append alsoFilled, Text.utf8Length_append]

end Alike

end FileTree

end ImportMeter
