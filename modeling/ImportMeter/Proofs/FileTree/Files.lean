/-
This file says which files stand below a node and in which order they are listed: each of them once, in
the order of the names that lead to it.
-/
import Mathlib.Data.List.Basic
import ImportMeter.FileTree.Build
import ImportMeter.Proofs.FileTree.Lookup

namespace ImportMeter

namespace Node

variable {node : Node} {entries : List (Text × Node)} {entry : Text × Node} {location : Location}

/-- A property of nodes holds if it passes from the entries of a directory to the directory. -/
@[elab_as_elim]
theorem entryInduction {motive : Node → Prop} (file : motive .file)
    (directory : ∀ entries, (∀ entry ∈ entries, motive entry.2) → motive (.directory entries))
    (link : ∀ target, motive (.link target)) : ∀ node, motive node
  | .file => file
  | .directory entries =>
    directory entries fun entry _ => entryInduction file directory link entry.2
  | .link target => link target
termination_by node => sizeOf node
decreasing_by
  have smaller := List.sizeOf_lt_of_mem ‹entry ∈ entries›
  obtain ⟨name, node⟩ := entry
  simp only [Prod.mk.sizeOf_spec, Node.directory.sizeOf_spec] at smaller ⊢
  omega

/-- What passes from directories to their entries passes to all that stands below. -/
theorem holds_of_at? (test : Node → Bool) {found : Node}
    (passes : ∀ entries, test (.directory entries) = true → ∀ entry ∈ entries, test entry.2 = true)
    (here : test node = true) (isAt : node.at? location = some found) : test found = true := by
  induction location generalizing node with
  | nil =>
      rw [at?] at isAt
      cases isAt
      exact here
  | cons name location inductionHypothesis =>
      cases node with
      | directory entries =>
          rw [at?] at isAt
          obtain ⟨child, isChild, isAt⟩ := Option.bind_eq_some_iff.mp isAt
          exact inductionHypothesis (passes entries here _ (child?_eq_some isChild)) isAt
      | file => cases isAt
      | link target => cases isAt

theorem isWellNamed_of_at? {found : Node} (wellNamed : node.isWellNamed = true)
    (isAt : node.at? location = some found) : found.isWellNamed = true :=
  holds_of_at? isWellNamed
    (fun _ wellNamed entry member => (areWellNamed_iff.mp wellNamed entry member).2) wellNamed isAt

/-! ### The order of names -/

mutual

/-- True if the entries of each directory at and below a node stand in the order of their names. -/
def isOrdered : Node → Bool
  | .directory entries => areOrdered entries
  | _ => true

def areOrdered : List (Text × Node) → Bool
  | [] => true
  | (name, node) :: rest =>
    rest.all (fun entry => name < entry.1) && node.isOrdered && areOrdered rest

end

theorem areOrdered_iff :
    areOrdered entries = true ↔
      entries.Pairwise (fun first second => first.1 < second.1) ∧
        ∀ entry ∈ entries, entry.2.isOrdered = true := by
  induction entries with
  | nil => simp [areOrdered]
  | cons entry entries inductionHypothesis =>
      obtain ⟨name, node⟩ := entry
      rw [areOrdered, Bool.and_eq_true_iff, Bool.and_eq_true_iff, inductionHypothesis,
        List.pairwise_cons, List.forall_mem_cons]
      simp only [List.all_eq_true, decide_eq_true_eq]
      exact and_and_and_comm

/-- In a directory whose entries are ordered, each of them is found by its name. -/
theorem child?_of_mem (ordered : areOrdered entries = true) (member : entry ∈ entries) :
    child? entry.1 entries = some entry.2 := by
  have apart := (areOrdered_iff.mp ordered).1
  clear ordered
  induction entries with
  | nil => cases member
  | cons head entries inductionHypothesis =>
      obtain ⟨before, apart⟩ := List.pairwise_cons.mp apart
      rcases List.mem_cons.mp member with rfl | inRest
      · simp [child?]
      · have other : head.1 ≠ entry.1 := by
          intro same
          exact List.lt_irrefl entry.1 (same ▸ before entry inRest)
        rw [child?, List.find?_cons_of_neg (by simpa using other)]
        exact inductionHypothesis inRest apart

theorem isOrdered_of_at? {found : Node} (ordered : node.isOrdered = true)
    (isAt : node.at? location = some found) : found.isOrdered = true :=
  holds_of_at? isOrdered (fun _ ordered entry member => (areOrdered_iff.mp ordered).2 entry member) ordered isAt

/-- Names that lead somewhere are names that a file system accepts. -/
theorem areFileNames_of_at? {found : Node} (wellNamed : node.isWellNamed = true)
    (isAt : node.at? location = some found) : ∀ name ∈ location, IsFileName name := by
  induction location generalizing node with
  | nil => exact List.forall_mem_nil _
  | cons name location inductionHypothesis =>
      cases node with
      | directory entries =>
          rw [at?] at isAt
          obtain ⟨child, isChild, isAt⟩ := Option.bind_eq_some_iff.mp isAt
          obtain ⟨isName, wellNamed⟩ := areWellNamed_iff.mp wellNamed _ (child?_eq_some isChild)
          exact List.forall_mem_cons.mpr ⟨isName, inductionHypothesis wellNamed isAt⟩
      | file => cases isAt
      | link target => cases isAt

theorem areEntryNames_of_at? {found : Node} (wellNamed : node.isWellNamed = true)
    (isAt : node.at? location = some found) : Path.AreEntryNames location :=
  fun name member => (areFileNames_of_at? wellNamed isAt name member).toIsEntryName

theorem mem_putEntry {name : Text} {new : Node} (member : entry ∈ putEntry name new entries) :
    entry = (name, new) ∨ entry ∈ entries := by
  induction entries with
  | nil => exact .inl (List.mem_singleton.mp member)
  | cons head entries inductionHypothesis =>
      rw [putEntry] at member
      split at member
      · exact (List.mem_cons.mp member).imp_right (List.mem_cons_of_mem _)
      · split at member
        · exact List.mem_cons.mp member
        · rcases List.mem_cons.mp member with rfl | inRest
          · exact .inr List.mem_cons_self
          · exact (inductionHypothesis inRest).imp_right (List.mem_cons_of_mem _)

/-- A new entry is put where its name belongs. -/
theorem areOrdered_putEntry {name : Text} {new : Node} (ordered : areOrdered entries = true)
    (newOrdered : new.isOrdered = true) : areOrdered (putEntry name new entries) = true := by
  have apart : (putEntry name new entries).Pairwise fun first second => first.1 < second.1 := by
    have apart := (areOrdered_iff.mp ordered).1
    clear ordered
    induction entries with
    | nil => exact List.pairwise_singleton _ _
    | cons head entries inductionHypothesis =>
        obtain ⟨before, behind⟩ := List.pairwise_cons.mp apart
        rw [putEntry]
        split
        next same => exact List.pairwise_cons.mpr ⟨fun entry member => same ▸ before entry member, behind⟩
        next other =>
          split
          next less =>
            refine List.pairwise_cons.mpr ⟨List.forall_mem_cons.mpr ⟨less, fun entry member => ?_⟩, apart⟩
            exact List.lt_trans less (before entry member)
          next notLess =>
            have greater : head.1 < name :=
              (List.le_iff_lt_or_eq.mp (List.not_lt.mp notLess)).resolve_right (Ne.symm other)
            refine List.pairwise_cons.mpr ⟨fun entry member => ?_, inductionHypothesis behind⟩
            rcases mem_putEntry member with rfl | inRest
            · exact greater
            · exact before entry inRest
  refine areOrdered_iff.mpr ⟨apart, fun entry member => ?_⟩
  rcases mem_putEntry member with rfl | inEntries
  · exact newOrdered
  · exact (areOrdered_iff.mp ordered).2 entry inEntries

/-- What is put into ordered directories leaves them ordered. -/
theorem isOrdered_put {new : Node} (newOrdered : new.isOrdered = true) (ordered : node.isOrdered = true) :
    (put new location node).isOrdered = true := by
  induction location generalizing node with
  | nil => exact newOrdered
  | cons name location inductionHypothesis =>
      cases node with
      | directory entries =>
          refine areOrdered_putEntry ordered (inductionHypothesis ?_)
          cases isChild : child? name entries with
          | none => rfl
          | some child => exact (areOrdered_iff.mp ordered).2 _ (child?_eq_some isChild)
      | file => exact ordered
      | link target => exact ordered

theorem isOrdered_remove (ordered : node.isOrdered = true) : (remove location node).isOrdered = true := by
  induction location generalizing node with
  | nil => exact ordered
  | cons name location inductionHypothesis =>
      cases node with
      | directory entries =>
          obtain ⟨apart, areOrdered⟩ := areOrdered_iff.mp ordered
          cases location with
          | nil =>
              exact areOrdered_iff.mpr ⟨apart.filter _,
                fun entry member => areOrdered entry (List.mem_filter.mp member).1⟩
          | cons second location =>
              have sameName : ∀ entry : Text × Node,
                  (if entry.1 = name then (name, remove (second :: location) entry.2) else entry).1 =
                    entry.1 := by
                intro entry
                split
                next same => exact same.symm
                next => rfl
              refine areOrdered_iff.mpr ⟨List.pairwise_map.mpr (apart.imp fun less => ?_),
                fun changed member => ?_⟩
              · rw [sameName, sameName]
                exact less
              · obtain ⟨entry, inEntries, rfl⟩ := List.mem_map.mp member
                have kept := areOrdered entry inEntries
                split
                · exact inductionHypothesis kept
                · exact kept
      | file => cases location <;> exact ordered
      | link target => cases location <;> exact ordered

/-! ### Files -/

theorem files_eq_map (location : Location) (node : Node) :
    files location node = (files [] node).map (location ++ ·) := by
  induction node using entryInduction generalizing location with
  | file => simp [files]
  | link target => rfl
  | directory entries inductionHypothesis =>
      rw [files, files]
      induction entries with
      | nil => rfl
      | cons entry entries restHypothesis =>
          obtain ⟨name, node⟩ := entry
          obtain ⟨ofNode, ofRest⟩ := List.forall_mem_cons.mp inductionHypothesis
          rw [filesOf, filesOf, ofNode, ofNode ([] ++ [name]), restHypothesis ofRest]
          simp

theorem filesOf_cons (name : Text) (node : Node) (rest : List (Text × Node)) :
    filesOf [] ((name, node) :: rest) = (files [] node).map (name :: ·) ++ filesOf [] rest := by
  rw [filesOf, files_eq_map]
  rfl

theorem mem_filesOf_iff :
    location ∈ filesOf [] entries ↔
      ∃ entry ∈ entries, ∃ inside ∈ files [] entry.2, location = entry.1 :: inside := by
  induction entries with
  | nil => simp [filesOf]
  | cons entry entries inductionHypothesis =>
      obtain ⟨name, node⟩ := entry
      rw [filesOf_cons, List.mem_append, inductionHypothesis, List.mem_map]
      simp [eq_comm]

/-- A file that can be found is listed. -/
theorem mem_files_of_at? (isFile : node.at? location = some .file) : location ∈ files [] node := by
  induction location generalizing node with
  | nil =>
      rw [at?] at isFile
      cases isFile
      exact List.mem_singleton_self []
  | cons name location inductionHypothesis =>
      cases node with
      | directory entries =>
          rw [at?] at isFile
          obtain ⟨child, isChild, isFile⟩ := Option.bind_eq_some_iff.mp isFile
          exact mem_filesOf_iff.mpr
            ⟨(name, child), child?_eq_some isChild, location, inductionHypothesis isFile, rfl⟩
      | file => cases isFile
      | link target => cases isFile

/-- Where directories are ordered, the files that are listed are those that can be found. -/
theorem mem_files_iff (ordered : node.isOrdered = true) :
    location ∈ files [] node ↔ node.at? location = some .file := by
  refine ⟨fun member => ?_, mem_files_of_at?⟩
  induction node using entryInduction generalizing location with
  | file =>
      obtain rfl := List.mem_singleton.mp member
      rfl
  | link target => cases member
  | directory entries inductionHypothesis =>
      obtain ⟨entry, isEntry, inside, isInside, rfl⟩ := mem_filesOf_iff.mp member
      have ofEntry := (areOrdered_iff.mp ordered).2 entry isEntry
      rw [at?, child?_of_mem ordered isEntry]
      exact inductionHypothesis entry isEntry ofEntry isInside

/-- The files are listed in the order of the names that lead to them. -/
theorem pairwise_files (ordered : node.isOrdered = true) :
    (files [] node).Pairwise (· < ·) := by
  induction node using entryInduction with
  | file => exact List.pairwise_singleton _ _
  | link target => exact .nil
  | directory entries inductionHypothesis =>
      obtain ⟨apart, areOrdered⟩ := areOrdered_iff.mp ordered
      clear ordered
      rw [files]
      induction entries with
      | nil => exact .nil
      | cons entry entries restHypothesis =>
          obtain ⟨name, node⟩ := entry
          obtain ⟨ofNode, ofRest⟩ := List.forall_mem_cons.mp inductionHypothesis
          obtain ⟨isOrdered, areOrdered⟩ := List.forall_mem_cons.mp areOrdered
          obtain ⟨before, apart⟩ := List.pairwise_cons.mp apart
          rw [filesOf_cons, List.pairwise_append, List.pairwise_map]
          refine ⟨?_, restHypothesis ofRest apart areOrdered, fun first inNode second inRest => ?_⟩
          · exact (ofNode isOrdered).imp fun less => List.cons_lt_cons_iff.mpr (.inr ⟨rfl, less⟩)
          · obtain ⟨inside, _, rfl⟩ := List.mem_map.mp inNode
            obtain ⟨other, isOther, behind, _, rfl⟩ := mem_filesOf_iff.mp inRest
            exact List.cons_lt_cons_iff.mpr (.inl (before other isOther))

end Node

namespace FileTree

/-- True if the entries of all directories stand in the order of their names. -/
def Ordered (tree : FileTree) : Prop := tree.root.isOrdered = true

instance : DecidablePred Ordered := fun tree => inferInstanceAs (Decidable (tree.root.isOrdered = true))

variable {tree : FileTree}

theorem Ordered.putFile (ordered : tree.Ordered) (location : Location) (new : File) :
    (tree.putFile location new).Ordered := Node.isOrdered_put rfl ordered

theorem Ordered.putLink (ordered : tree.Ordered) (location : Location) (target : Path) :
    (tree.putLink location target).Ordered := Node.isOrdered_put rfl ordered

theorem Ordered.putDirectory (ordered : tree.Ordered) (location : Location) :
    (tree.putDirectory location).Ordered := by
  rw [FileTree.putDirectory]
  split
  · exact ordered
  · exact Node.isOrdered_put rfl ordered

theorem Ordered.remove (ordered : tree.Ordered) (location : Location) : (tree.remove location).Ordered :=
  Node.isOrdered_remove ordered

end FileTree

end ImportMeter
