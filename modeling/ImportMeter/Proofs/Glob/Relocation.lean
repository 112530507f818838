/-
This file compares what a pattern finds below two directories that hold the same tree: the same paths,
each below its own directory. The letters in front of the directory must not stand for others.
-/
import ImportMeter.Proofs.FileTree.Below
import ImportMeter.Proofs.Glob.Search

namespace ImportMeter

open Path (isIdle rooted AreEntryNames IsEntryName pushPiece)

namespace Glob

open FileTree (HoldAlike IsTried nameCount linkLimit)

variable {first second inner : FileTree} {here there pieces front : List Text} {last name piece : Text}
  {patterns rest others : List Pattern} {pattern : Pattern} {slack fuel more less : Nat}

/-- A search below a directory: the pieces that were gone down, and those that are left to be matched. None
of them leads up, and the last is a plain name. -/
structure IsSearch (last : Text) (slack : Nat) (patterns : List Pattern) (pieces : List Text) : Prop where
  free : ∀ pattern ∈ patterns, .letter '/' ∉ pattern
  noUp : ∀ pattern ∈ patterns, ['.', '.'] ∉ dotsOf pattern
  ends : ∀ pattern ∈ patterns.getLast?, pattern = last.map .letter
  slashless : ∀ piece ∈ pieces, '/' ∉ piece
  noUpSoFar : ['.', '.'] ∉ pieces
  few : pieces.countP isIdle + patterns.length ≤ slack
  named : patterns = [] → ∃ piece ∈ pieces, isIdle piece = false

namespace IsSearch

theorem tried (search : IsSearch last slack patterns pieces) : IsTried slack pieces :=
  ⟨search.slashless, search.noUpSoFar, (Nat.le_add_right _ _).trans search.few⟩

theorem of_suffix (search : IsSearch last slack patterns pieces) (isSuffix : others <:+ patterns)
    (filled : others ≠ []) : IsSearch last slack others pieces := by
  refine ⟨fun pattern member => search.free pattern (isSuffix.mem member),
    fun pattern member => search.noUp pattern (isSuffix.mem member), fun pattern isLast => search.ends pattern ?_,
    search.slashless, search.noUpSoFar, ?_, fun none => absurd none filled⟩
  · obtain ⟨front, rfl⟩ := isSuffix
    rwa [List.getLast?_append_of_ne_nil _ filled]
  · have shorter := isSuffix.length_le
    have few := search.few
    omega

/-- An entry of the directory is gone down, its name being still to be matched. -/
theorem push_entry (search : IsSearch last slack patterns pieces) (filled : patterns ≠ [])
    (isName : IsEntryName name) : IsSearch last slack patterns (pushPiece pieces name) := by
  refine ⟨search.free, search.noUp, search.ends, fun other member => ?_, fun member => ?_, ?_,
    fun none => absurd none filled⟩
  · exact (Path.mem_pushPiece member).elim (search.slashless other) fun same => same ▸ isName.slashless
  · exact (Path.mem_pushPiece member).elim search.noUpSoFar fun same => isName.notDots same.symm
  · have count := (FileTree.countP_pushPiece pieces name).1
    have few := search.few
    rw [List.countP_singleton, isName.isIdle, if_neg Bool.false_ne_true] at count
    omega

/-- A piece is gone down that the first pattern stands for. -/
theorem push_piece (search : IsSearch last slack (pattern :: rest) pieces) (free : '/' ∉ piece)
    (notUp : piece ≠ ['.', '.']) (isLast : rest = [] → IsEntryName piece) :
    IsSearch last slack rest (pushPiece pieces piece) := by
  refine ⟨(List.forall_mem_cons.mp search.free).2, (List.forall_mem_cons.mp search.noUp).2,
    fun pattern isEnd => ?_, fun other member => ?_, fun member => ?_, ?_,
    fun none => ⟨piece, by simp [pushPiece], (isLast none).isIdle⟩⟩
  · have filled : rest ≠ [] := by
      rintro rfl
      cases isEnd
    refine search.ends pattern ?_
    rwa [List.getLast?_cons_of_ne_nil filled]
  · exact (Path.mem_pushPiece member).elim (search.slashless other) fun same => same ▸ free
  · exact (Path.mem_pushPiece member).elim search.noUpSoFar fun same => notUp same.symm
  · have count := (FileTree.countP_pushPiece pieces piece).1
    have one : [piece].countP isIdle ≤ 1 := List.countP_le_length
    have few := search.few
    rw [List.length_cons] at few
    omega

end IsSearch

/-- Two paths that go on alike below two directories, with some name. -/
def IsMoved (here there : List Text) (path other : Path) : Prop :=
  ∃ pieces : List Text, (∀ piece ∈ pieces, '/' ∉ piece) ∧ (∃ piece ∈ pieces, isIdle piece = false) ∧
    path = rooted (here ++ pieces) ∧ other = rooted (there ++ pieces)

/-- The same paths, one after the other, below two directories. -/
abbrev AreMoved (here there : List Text) : List Path → List Path → Prop := List.Forall₂ (IsMoved here there)

/-- How many steps a search can take: one for each piece that is left and each name that links can lead down
further. -/
def effort (inner : FileTree) (patterns : List Pattern) (pieces : List Text) : Nat :=
  patterns.length + ((linkLimit + 1) * inner.root.depth + 1 - nameCount pieces)

theorem effort_cons : effort inner (pattern :: rest) pieces = effort inner rest pieces + 1 := by
  unfold effort
  rw [List.length_cons]
  omega

theorem effort_le_of_suffix (inner : FileTree) (pieces : List Text) (isSuffix : others <:+ patterns) :
    effort inner others pieces ≤ effort inner patterns pieces :=
  Nat.add_le_add_right isSuffix.length_le _

theorem effort_pushPiece_le (inner : FileTree) (patterns : List Pattern) (pieces : List Text) (piece : Text) :
    effort inner patterns (pushPiece pieces piece) ≤ effort inner patterns pieces := by
  have count := (FileTree.countP_pushPiece pieces piece).2
  unfold effort
  omega

/-- Where there is a directory, an entry of it is one name further down. -/
theorem effort_pushPiece_lt (isName : IsEntryName name)
    (inside : nameCount pieces ≤ (linkLimit + 1) * inner.root.depth) :
    effort inner patterns (pushPiece pieces name) < effort inner patterns pieces := by
  have count := (FileTree.countP_pushPiece pieces name).2
  have one : nameCount [name] = 1 := FileTree.nameCount_of_names (List.forall_mem_singleton.mpr isName)
  unfold effort
  omega

theorem forall₂_flatMap {α β γ : Type} {relates : β → γ → Prop} {items : List α} {one : α → List β}
    {other : α → List γ} (each : ∀ item ∈ items, List.Forall₂ relates (one item) (other item)) :
    List.Forall₂ relates (items.flatMap one) (items.flatMap other) := by
  induction items with
  | nil => exact .nil
  | cons item items inductionHypothesis =>
      obtain ⟨isFirst, each⟩ := List.forall_mem_cons.mp each
      exact List.rel_append isFirst (inductionHypothesis each)

/-- With so much fuel at least, searches in both directories find the same. -/
structure Moves (first second inner : FileTree) (here there : List Text) (last : Text) (slack fuel : Nat) :
    Prop where
  within : ∀ {patterns pieces more less}, IsSearch last slack patterns pieces →
    2 * effort inner patterns pieces + 1 ≤ fuel → fuel ≤ more → fuel ≤ less →
    AreMoved here there (within first more patterns (rooted (here ++ pieces)))
      (Glob.within second less patterns (rooted (there ++ pieces)))
  arrive : ∀ {patterns pieces more less}, IsSearch last slack patterns pieces →
    2 * effort inner patterns pieces + 2 ≤ fuel → fuel ≤ more → fuel ≤ less →
    AreMoved here there (arrive first more patterns (rooted (here ++ pieces)))
      (Glob.arrive second less patterns (rooted (there ++ pieces)))
  visit : ∀ {patterns front name more less}, IsSearch last slack patterns (front ++ [name]) →
    IsEntryName name → 2 * effort inner patterns (front ++ [name]) + 2 ≤ fuel → fuel ≤ more → fuel ≤ less →
    AreMoved here there (visit first more patterns (rooted (here ++ (front ++ [name]))))
      (Glob.visit second less patterns (rooted (there ++ (front ++ [name]))))
  matchName : ∀ {patterns front name more less}, IsSearch last slack patterns (front ++ [name]) →
    IsEntryName name → 2 * effort inner patterns (front ++ [name]) + 1 ≤ fuel → fuel ≤ more → fuel ≤ less →
    AreMoved here there (matchName first more patterns (rooted (here ++ (front ++ [name]))))
      (Glob.matchName second less patterns (rooted (there ++ (front ++ [name]))))

theorem isMoved_entry (slashless : ∀ piece ∈ front ++ [name], '/' ∉ piece) (isName : IsEntryName name) :
    IsMoved here there (rooted (here ++ (front ++ [name]))) (rooted (there ++ (front ++ [name]))) :=
  ⟨front ++ [name], slashless, ⟨name, by simp, isName.isIdle⟩, rfl, rfl⟩

theorem matchName_nil (tree : FileTree) (fuel : Nat) (path : Path) : matchName tree fuel [] path = [] := by
  cases fuel <;> rfl

/-- Of the dots, only the one for the directory itself leads nowhere up. -/
theorem eq_dot_of_mem_dotsOf (noUp : ['.', '.'] ∉ dotsOf pattern) (member : name ∈ dotsOf pattern) :
    name = ['.'] := by
  have isDots := (List.mem_filter.mp member).1
  split at isDots
  · rcases List.mem_cons.mp isDots with rfl | isDot
    · exact absurd member noUp
    · exact List.mem_singleton.mp isDot
  · cases isDots

/-- A piece leads on in both directories or in none. -/
theorem leadsOn_eq (alike : HoldAlike first second here there inner slack) (tried : IsTried slack pieces)
    (triedNext : IsTried slack (pushPiece pieces name)) (free : '/' ∉ name) :
    leadsOn first (rooted (here ++ pieces)) name = leadsOn second (rooted (there ++ pieces)) name := by
  rw [leadsOn, leadsOn, FileTree.isDirectory, FileTree.isDirectory, alike.entries?_eq tried,
    alike.holds.join tried.slashless free, alike.alsoHolds.join tried.slashless free,
    alike.existsUnfollowed_eq triedNext]

section Steps

variable (alike : HoldAlike first second here there inner slack) (isLast : IsEntryName last)
  (moves : Moves first second inner here there last slack fuel)

include alike moves in
theorem Moves.arrive_below (free : '/' ∉ piece) (slashless : ∀ piece ∈ pieces, '/' ∉ piece)
    (search : IsSearch last slack rest (pushPiece pieces piece))
    (enough : 2 * (effort inner rest pieces) + 2 ≤ fuel) (enoughMore : fuel ≤ more) (enoughLess : fuel ≤ less) :
    AreMoved here there (Glob.arrive first more rest ((rooted (here ++ pieces)).join ⟨piece⟩))
      (Glob.arrive second less rest ((rooted (there ++ pieces)).join ⟨piece⟩)) := by
  have further := effort_pushPiece_le inner rest pieces piece
  rw [alike.holds.join slashless free, alike.alsoHolds.join slashless free]
  exact moves.arrive search (by omega) enoughMore enoughLess

include alike moves in
theorem Moves.visit_below (search : IsSearch last slack patterns pieces) (filled : patterns ≠ [])
    {entries : List (Text × Node)} {entry : Text × Node}
    (listed : first.entries? (rooted (here ++ pieces)) = some entries) (member : entry ∈ entries)
    (enough : 2 * effort inner patterns pieces ≤ fuel) (enoughMore : fuel ≤ more) (enoughLess : fuel ≤ less) :
    AreMoved here there (Glob.visit first more patterns ((rooted (here ++ pieces)).join ⟨entry.1⟩))
      (Glob.visit second less patterns ((rooted (there ++ pieces)).join ⟨entry.1⟩)) := by
  have isName := (alike.isFileName search.tried listed entry member).toIsEntryName
  obtain ⟨place, located, _⟩ := FileTree.entries?_eq_some_iff.mp listed
  have fewer : effort inner patterns (pushPiece pieces entry.1) < effort inner patterns pieces :=
    effort_pushPiece_lt isName (alike.nameCount_le search.tried located)
  rw [alike.holds.join search.slashless isName.slashless,
    alike.alsoHolds.join search.slashless isName.slashless]
  apply moves.visit (search.push_entry filled isName) isName _ enoughMore enoughLess
  show 2 * effort inner patterns (pushPiece pieces entry.1) + 2 ≤ fuel
  omega

include alike isLast moves in
theorem Moves.within_succ (search : IsSearch last slack patterns pieces)
    (enough : 2 * effort inner patterns pieces + 1 ≤ fuel + 1) (enoughMore : fuel ≤ more)
    (enoughLess : fuel ≤ less) :
    AreMoved here there (Glob.within first (more + 1) patterns (rooted (here ++ pieces)))
      (Glob.within second (less + 1) patterns (rooted (there ++ pieces))) := by
  cases patterns with
  | nil => exact .nil
  | cons pattern rest =>
      have fewer : 2 * effort inner rest pieces + 2 ≤ fuel := by
        rw [effort_cons] at enough
        omega
      have free : .letter '/' ∉ pattern := search.free pattern List.mem_cons_self
      have noUp : ['.', '.'] ∉ dotsOf pattern := search.noUp pattern List.mem_cons_self
      have isEnd : rest = [] → pattern = last.map .letter := by
        rintro rfl
        exact search.ends pattern rfl
      cases literal : literal? pattern with
      | some name =>
          obtain rfl := literal?_eq_some_iff.mp literal
          have slashless : '/' ∉ name := fun slash => free (List.mem_map_of_mem slash)
          have notUp : name ≠ ['.', '.'] := by
            rintro rfl
            exact noUp (by decide)
          have isName : rest = [] → IsEntryName name := fun none => by
            rwa [List.map_injective_iff.mpr (fun _ _ => Token.letter.inj) (isEnd none)]
          have next := search.push_piece slashless notUp isName
          rw [within_literal literal, within_literal literal,
            leadsOn_eq alike search.tried next.tried slashless]
          split
          · exact moves.arrive_below alike slashless search.slashless next fewer enoughMore enoughLess
          · exact .nil
      | none =>
          rw [within_wildcard literal, within_wildcard literal, alike.entries?_eq search.tried]
          split
          · exact .nil
          next entries listed =>
            rw [← alike.entries?_eq search.tried] at listed
            apply List.rel_append <;> apply forall₂_flatMap
            · intro dots member
              obtain rfl := eq_dot_of_mem_dotsOf noUp member
              have notEnd : rest ≠ [] := fun none => by
                rw [literal?_eq_some_iff.mpr (isEnd none)] at literal
                cases literal
              have next : IsSearch last slack rest (pushPiece pieces ['.']) :=
                search.push_piece (by decide) (by decide) fun none => absurd none notEnd
              exact moves.arrive_below alike (by decide) search.slashless next fewer enoughMore enoughLess
            · intro entry member
              exact moves.visit_below alike search (List.cons_ne_nil _ _) listed member
                (Nat.le_of_succ_le_succ enough) enoughMore enoughLess

include moves in
theorem Moves.arrive_succ (search : IsSearch last slack patterns pieces)
    (enough : 2 * effort inner patterns pieces + 2 ≤ fuel + 1) (enoughMore : fuel ≤ more)
    (enoughLess : fuel ≤ less) :
    AreMoved here there (Glob.arrive first (more + 1) patterns (rooted (here ++ pieces)))
      (Glob.arrive second (less + 1) patterns (rooted (there ++ pieces))) := by
  cases patterns with
  | nil => exact .cons ⟨pieces, search.slashless, search.named rfl, rfl, rfl⟩ .nil
  | cons pattern rest => exact moves.within search (Nat.le_of_succ_le_succ enough) enoughMore enoughLess

include alike moves in
theorem Moves.visit_succ (search : IsSearch last slack patterns (front ++ [name])) (isName : IsEntryName name)
    (enough : 2 * effort inner patterns (front ++ [name]) + 2 ≤ fuel + 1) (enoughMore : fuel ≤ more)
    (enoughLess : fuel ≤ less) :
    AreMoved here there (Glob.visit first (more + 1) patterns (rooted (here ++ (front ++ [name]))))
      (Glob.visit second (less + 1) patterns (rooted (there ++ (front ++ [name])))) := by
  rw [Glob.visit, Glob.visit]
  have isSuffix := (collapse_spec patterns).1
  have sameDirectory : first.isDirectory (rooted (here ++ (front ++ [name]))) =
      second.isDirectory (rooted (there ++ (front ++ [name]))) := by
    rw [FileTree.isDirectory, FileTree.isDirectory, alike.entries?_eq search.tried]
  cases collapsed : collapse patterns with
  | nil => exact .nil
  | cons pattern rest =>
      rw [collapsed] at isSuffix
      have whole := search.of_suffix isSuffix (List.cons_ne_nil pattern rest)
      have notMore := effort_le_of_suffix inner (front ++ [name]) isSuffix
      have matched : ∀ others, others <:+ pattern :: rest → others ≠ [] → AreMoved here there
          (Glob.matchName first more others (rooted (here ++ (front ++ [name]))))
          (Glob.matchName second less others (rooted (there ++ (front ++ [name])))) := by
        intro others isLeft filled
        have fewer := effort_le_of_suffix inner (front ++ [name]) isLeft
        exact moves.matchName (whole.of_suffix isLeft filled) isName (by omega) enoughMore enoughLess
      have behind : AreMoved here there
          (if rest.isEmpty then [rooted (here ++ (front ++ [name]))] else
            Glob.matchName first more rest (rooted (here ++ (front ++ [name]))))
          (if rest.isEmpty then [rooted (there ++ (front ++ [name]))] else
            Glob.matchName second less rest (rooted (there ++ (front ++ [name])))) := by
        split
        next => exact .cons (isMoved_entry search.slashless isName) .nil
        next filled => exact matched rest (List.suffix_cons _ _) (mt List.isEmpty_iff.mpr filled)
      dsimp only
      rw [sameDirectory]
      split
      next =>
        split
        next =>
          exact List.rel_append behind (moves.within whole (by omega) enoughMore enoughLess)
        next =>
          by_cases none : rest = []
          · rw [none, matchName_nil, matchName_nil]
            exact .nil
          · exact matched rest (List.suffix_cons _ _) none
      next => exact matched _ (List.suffix_refl _) (List.cons_ne_nil _ _)

include alike moves in
theorem Moves.matchName_succ (search : IsSearch last slack patterns (front ++ [name])) (isName : IsEntryName name)
    (enough : 2 * effort inner patterns (front ++ [name]) + 1 ≤ fuel + 1) (enoughMore : fuel ≤ more)
    (enoughLess : fuel ≤ less) :
    AreMoved here there (Glob.matchName first (more + 1) patterns (rooted (here ++ (front ++ [name]))))
      (Glob.matchName second (less + 1) patterns (rooted (there ++ (front ++ [name])))) := by
  cases patterns with
  | nil => exact .nil
  | cons pattern rest =>
      have fileName : ∀ {names : List Text}, AreEntryNames names →
          (rooted (names ++ (front ++ [name]))).fileName? = some name := by
        intro names areNames
        rw [← List.append_assoc]
        have inFront : ∀ piece ∈ front, '/' ∉ piece := (List.forall_mem_append.mp search.slashless).1
        exact Path.fileName?_rooted (List.forall_mem_append.mpr ⟨areNames.slashless, inFront⟩) isName
      rw [Glob.matchName, Glob.matchName, fileName alike.holds.areEntryNames,
        fileName alike.alsoHolds.areEntryNames]
      dsimp only
      split
      next =>
        split
        next => exact .cons (isMoved_entry search.slashless isName) .nil
        next filled =>
          rw [effort_cons] at enough
          exact moves.within (search.of_suffix (List.suffix_cons _ _) (mt List.isEmpty_iff.mpr filled))
            (by omega) enoughMore enoughLess
      next => exact .nil

end Steps

/-- Searches that have fuel enough find the same in both directories. -/
theorem moves (alike : HoldAlike first second here there inner slack) (isLast : IsEntryName last) (fuel : Nat) :
    Moves first second inner here there last slack fuel := by
  induction fuel with
  | zero => constructor <;> intros <;> omega
  | succ fuel moves =>
      refine ⟨fun search enough enoughMore enoughLess => ?_, fun search enough enoughMore enoughLess => ?_,
        fun search isName enough enoughMore enoughLess => ?_, fun search isName enough enoughMore enoughLess => ?_⟩
      all_goals
        obtain ⟨_, rfl⟩ := Nat.exists_eq_add_one_of_ne_zero (Nat.ne_zero_of_lt enoughMore)
        obtain ⟨_, rfl⟩ := Nat.exists_eq_add_one_of_ne_zero (Nat.ne_zero_of_lt enoughLess)
        replace enoughMore := Nat.le_of_succ_le_succ enoughMore
        replace enoughLess := Nat.le_of_succ_le_succ enoughLess
      · exact moves.within_succ alike isLast search enough enoughMore enoughLess
      · exact moves.arrive_succ search enough enoughMore enoughLess
      · exact moves.visit_succ alike search isName enough enoughMore enoughLess
      · exact moves.matchName_succ alike search isName enough enoughMore enoughLess

/-! ### From the root -/

/-- Where there is something below some names, the search goes down over them. -/
theorem within_names {tree : FileTree} {names base : List Text} (areNames : AreEntryNames (base ++ names))
    (isThere : names ≠ [] → tree.existsUnfollowed (rooted (base ++ names)) = true) (filled : patterns ≠ []) :
    within tree (fuel + 2 * names.length) (names.map (·.map .letter) ++ patterns) (rooted base) =
      within tree fuel patterns (rooted (base ++ names)) := by
  induction names generalizing base with
  | nil => rw [List.append_nil]; rfl
  | cons name names inductionHypothesis =>
      have split : base ++ name :: names = base ++ [name] ++ names := by simp
      have isThere := isThere (List.cons_ne_nil _ _)
      have isNext := (FileTree.exists_entry_of_existsUnfollowed areNames isThere).2
      have areBase := areNames.front
      have isName : IsEntryName name := areNames name (by simp)
      obtain ⟨next, others, more⟩ := List.exists_cons_of_ne_nil
        (List.append_ne_nil_of_right_ne_nil (names.map (·.map Token.letter)) filled)
      have fuelSplit : fuel + 2 * (name :: names).length = fuel + 2 * names.length + 1 + 1 := by
        rw [List.length_cons]
        omega
      rw [fuelSplit, List.map_cons, List.cons_append, within_literal (literal?_eq_some_iff.mpr rfl),
        leadsOn_rooted tree areBase isName, if_pos isNext, Path.join_rooted_name areBase isName, more]
      have onward : ∀ path, arrive tree (fuel + 2 * names.length + 1) (next :: others) path =
          within tree (fuel + 2 * names.length) (next :: others) path := fun _ => rfl
      rw [onward, ← more, split]
      exact inductionHypothesis (split ▸ areNames) fun _ => split ▸ isThere

/-- Names that stand for themselves are read as they are, and what is behind them by itself. -/
theorem areRead_names_iff {names : List Text} (plain : ∀ name ∈ names, ∀ letter ∈ name, isWild letter = false) :
    AreRead (names ++ pieces) patterns ↔
      ∃ others, AreRead pieces others ∧ patterns = names.map (·.map .letter) ++ others := by
  induction names generalizing patterns with
  | nil => simp
  | cons name names inductionHypothesis =>
      obtain ⟨isPlain, plain⟩ := List.forall_mem_cons.mp plain
      rw [List.cons_append, AreRead, List.forall₂_cons_left_iff]
      simp only [read_letters isPlain, Except.ok.injEq]
      constructor
      · rintro ⟨_, _, rfl, areRead, rfl⟩
        obtain ⟨others, areOthers, rfl⟩ := (inductionHypothesis plain).mp areRead
        exact ⟨others, areOthers, rfl⟩
      · rintro ⟨others, areOthers, rfl⟩
        exact ⟨_, _, rfl, (inductionHypothesis plain).mpr ⟨others, areOthers, rfl⟩, rfl⟩

/-- There is fuel enough for the names above a directory and for a search below it. -/
theorem effort_le_fuelFor {tree : FileTree} {names : List Text} (holds : tree.Holds names inner)
    (patterns : List Pattern) :
    ∃ fuel, fuelFor tree (names.map (·.map .letter) ++ patterns) = fuel + 2 * names.length ∧
      2 * effort inner patterns [] + 1 ≤ fuel := by
  have deep := Node.length_le_depth holds.isAt
  have limit : linkLimit = 40 := rfl
  have none : nameCount [] = 0 := rfl
  refine ⟨fuelFor tree (names.map (·.map .letter) ++ patterns) - 2 * names.length, ?_, ?_⟩
  · rw [fuelFor, List.length_append, List.length_map]
    omega
  · rw [fuelFor, effort, List.length_append, List.length_map, limit, none]
    omega

/-- Pieces that are read begin a search, if none of them stands for dots that lead up. -/
theorem isSearch_of_areRead (isLast : IsEntryName last) (plainLast : ∀ letter ∈ last, isWild letter = false)
    (slashless : ∀ piece ∈ front, '/' ∉ piece)
    (noUp : ∀ piece ∈ front, ∀ pattern, read piece = .ok pattern → ['.', '.'] ∉ dotsOf pattern)
    (few : front.length < slack) (areRead : AreRead (front ++ [last]) patterns) :
    IsSearch last slack patterns [] := by
  have sameLength := List.Forall₂.length_eq areRead
  rw [List.length_append, List.length_singleton] at sameLength
  have origin : ∀ pattern ∈ patterns, ∃ piece ∈ front ++ [last], read piece = .ok pattern :=
    fun pattern member => by
      obtain ⟨piece, isPiece, isRead⟩ := exists_left_of_forall₂ areRead member
      exact ⟨piece, isPiece, isRead⟩
  have allFree : ∀ piece ∈ front ++ [last], '/' ∉ piece :=
    List.forall_mem_append.mpr ⟨slashless, List.forall_mem_singleton.mpr isLast.slashless⟩
  refine ⟨fun pattern member => ?_, fun pattern member => ?_, fun pattern isEnd => ?_, nofun, nofun, ?_,
    fun none => ?_⟩
  · obtain ⟨piece, isPiece, isRead⟩ := origin pattern member
    rcases cases_of_read (allFree piece isPiece) isRead with ⟨_, rfl⟩ | ⟨_, isName, _⟩
    · decide
    · exact fun slash => (isName _ slash).1 rfl
  · obtain ⟨piece, isPiece, isRead⟩ := origin pattern member
    rcases List.mem_append.mp isPiece with inFront | isEnd
    · exact noUp piece inFront pattern isRead
    · rw [List.mem_singleton.mp isEnd, read_letters plainLast] at isRead
      obtain rfl := Except.ok.inj isRead
      exact fun stands => isLast.notDots (matchesText_letters.mp (List.mem_filter.mp stands).2).symm
  · obtain ⟨firsts, seconds, rfl, _, lastRead⟩ := forall₂_append_left areRead
    obtain ⟨other, none, isRead, areNone, rfl⟩ := List.forall₂_cons_left_iff.mp lastRead
    obtain rfl := List.forall₂_nil_left_iff.mp areNone
    rw [List.getLast?_concat] at isEnd
    rw [read_letters plainLast] at isRead
    exact (Option.some.inj isEnd).symm.trans (Except.ok.inj isRead).symm
  · rw [List.countP_nil, Nat.zero_add]
    omega
  · rw [none] at sameLength
    cases sameLength

/-- What an absolute pattern finds below plain names that are there. -/
theorem expand_names_eq_ok_iff {tree : FileTree} {names : List Text} {files : List Path}
    (areNames : AreEntryNames names) (plain : ∀ name ∈ names, ∀ letter ∈ name, isWild letter = false)
    (isLast : IsEntryName last)
    (slashless : ∀ piece ∈ front, '/' ∉ piece) :
    expand tree (rooted (names ++ (front ++ [last]))).letters = .ok files ↔
      ∃ patterns, AreRead (front ++ [last]) patterns ∧
        files = within tree (fuelFor tree (names.map (·.map .letter) ++ patterns))
          (names.map (·.map .letter) ++ patterns) (rooted []) := by
  have allFree : ∀ piece ∈ names ++ front ++ [last], '/' ∉ piece :=
    List.forall_mem_append.mpr ⟨List.forall_mem_append.mpr ⟨areNames.slashless, slashless⟩,
      List.forall_mem_singleton.mpr isLast.slashless⟩
  rw [← List.append_assoc, expand_rooted_eq_ok_iff isLast.filled allFree]
  simp only [List.append_assoc, areRead_names_iff plain]
  constructor
  · rintro ⟨_, ⟨patterns, areRead, rfl⟩, same⟩
    exact ⟨patterns, areRead, same⟩
  · rintro ⟨patterns, areRead, same⟩
    exact ⟨_, ⟨patterns, areRead, rfl⟩, same⟩

/-- A directory whose names stand for themselves and that is there. -/
structure IsPlainPlace (tree : FileTree) (names : List Text) : Prop where
  plain : ∀ name ∈ names, ∀ letter ∈ name, isWild letter = false
  isThere : tree.existsUnfollowed (rooted names) = true

theorem IsPlainPlace.letters {tree : FileTree} {names : List Text} (isPlace : IsPlainPlace tree names) :
    ∀ letter ∈ (rooted names).letters, isWild letter = false := by
  intro letter member
  rcases Path.mem_letters_rooted_iff.mp member with rfl | ⟨name, isName, member⟩
  · decide
  · exact isPlace.plain name isName letter member

/-- A pattern finds the same below two directories that hold the same tree, or cannot be read below either. -/
theorem expand_moved (alike : HoldAlike first second here there inner slack) (isHere : IsPlainPlace first here)
    (isThere : IsPlainPlace second there) (isLast : IsEntryName last)
    (plainLast : ∀ letter ∈ last, isWild letter = false) (slashless : ∀ piece ∈ front, '/' ∉ piece)
    (noUp : ∀ piece ∈ front, ∀ pattern, read piece = .ok pattern → ['.', '.'] ∉ dotsOf pattern)
    (few : front.length < slack) :
    EndAlike (AreMoved here there) (expand first (rooted (here ++ (front ++ [last]))).letters)
      (expand second (rooted (there ++ (front ++ [last]))).letters) := by
  refine .of_iff (fun files expanded => ?_) (fun files expanded => ?_)
  · rw [expand_names_eq_ok_iff alike.holds.areEntryNames isHere.plain isLast slashless] at expanded
    obtain ⟨patterns, areRead, rfl⟩ := expanded
    refine ⟨_, (expand_names_eq_ok_iff alike.alsoHolds.areEntryNames isThere.plain isLast slashless).mpr
      ⟨patterns, areRead, rfl⟩, ?_⟩
    have search := isSearch_of_areRead isLast plainLast slashless noUp few areRead
    have filled : patterns ≠ [] := fun none => by
      obtain ⟨piece, member, _⟩ := search.named none
      cases member
    obtain ⟨more, isMore, enoughMore⟩ := effort_le_fuelFor alike.holds patterns
    obtain ⟨less, isLess, enoughLess⟩ := effort_le_fuelFor alike.alsoHolds patterns
    have downHere : AreEntryNames ([] ++ here) := alike.holds.areEntryNames
    have downThere : AreEntryNames ([] ++ there) := alike.alsoHolds.areEntryNames
    rw [isMore, isLess, within_names downHere (fun _ => isHere.isThere) filled,
      within_names downThere (fun _ => isThere.isThere) filled, List.nil_append, List.nil_append]
    have same := (moves alike isLast _).within search (Nat.le_refl _) enoughMore enoughLess
    rwa [List.append_nil, List.append_nil] at same
  · rw [expand_names_eq_ok_iff alike.alsoHolds.areEntryNames isThere.plain isLast slashless] at expanded
    obtain ⟨patterns, areRead, _⟩ := expanded
    exact ⟨_, (expand_names_eq_ok_iff alike.holds.areEntryNames isHere.plain isLast slashless).mpr
      ⟨patterns, areRead, rfl⟩⟩

/-! ### Patterns as texts -/

theorem addDirectories_append {own stack : List Token} (filled : stack ≠ [])
    (apart : stack.head? ≠ some .anyDirectories) :
    addDirectories (own ++ stack) =
      (if own.head? = some .anyDirectories then own else .anyDirectories :: own) ++ stack := by
  have some := List.length_pos_iff.mpr filled
  cases own with
  | nil => simp [addDirectories, apart]
  | cons token own =>
      rw [addDirectories, List.cons_append, List.head?_cons, List.head?_cons, List.length_cons, List.length_append]
      by_cases again : token = .anyDirectories
      · rw [if_pos (by simp [again]; omega), if_pos (by rw [again])]
        rfl
      · rw [if_neg (by simp [again]), if_neg (by simp [again])]
        rfl

/-- What is read behind some tokens does not depend on them, as long as the last is not two stars. -/
theorem readFrom_behind {stack other : List Token} (filled : stack ≠ [])
    (apart : stack.head? ≠ some .anyDirectories) (alsoFilled : other ≠ [])
    (alsoApart : other.head? ≠ some .anyDirectories) (fuel position otherPosition : Nat) (before : Option Char)
    (own : List Token) (text : Text) :
    EndAlike (fun one two => ∃ rest, one = stack.reverse ++ rest ∧ two = other.reverse ++ rest)
      (readFrom fuel position before (own ++ stack) text)
      (readFrom fuel otherPosition before (own ++ other) text) := by
  have ended : ∀ own : List Token,
      EndAlike (fun one two => ∃ rest, one = stack.reverse ++ rest ∧ two = other.reverse ++ rest)
      (.ok (own ++ stack).reverse : Except PatternFault Pattern) (.ok (own ++ other).reverse) :=
    fun own => .ok ⟨own.reverse, List.reverse_append, List.reverse_append⟩
  induction fuel generalizing position otherPosition before own text with
  | zero => exact ended own
  | succ fuel inductionHypothesis =>
      cases first : firstToken? text with
      | some found =>
          obtain ⟨token, length⟩ := found
          obtain ⟨_, next, _, reads⟩ := readFrom_of_firstToken? first
          rw [reads, reads]
          exact inductionHypothesis _ _ _ (token :: own) _
      | none =>
          by_cases isStars : text = [] ∨ ∃ behind, text = '*' :: '*' :: behind ∧ IsBehindPiece behind ∧
              (before = .none ∨ before = some '/')
          · rcases isStars with rfl | ⟨behind, rfl, isBehind, starts⟩
            · exact ended own
            · cases behind with
              | nil =>
                  rw [readFrom_stars starts, readFrom_stars starts, addDirectories_append filled apart,
                    addDirectories_append alsoFilled alsoApart]
                  exact ended _
              | cons letter behind =>
                  obtain rfl := isBehind letter rfl
                  rw [readFrom_stars_slash starts, readFrom_stars_slash starts, addDirectories_append filled apart,
                    addDirectories_append alsoFilled alsoApart]
                  exact inductionHypothesis _ _ _ _ _
          · exact .of_iff (fun result isRead => absurd (stars_of_readFrom first isRead) isStars)
              fun result isRead => absurd (stars_of_readFrom first isRead) isStars

/-- Behind plain letters and a slash, a text is read alike. -/
theorem read_behind {letters others : Text} (plain : ∀ letter ∈ letters, isWild letter = false)
    (alsoPlain : ∀ letter ∈ others, isWild letter = false) (text : Text) :
    EndAlike (fun one two => ∃ rest, one = letters.map .letter ++ rest ∧ two = others.map .letter ++ rest)
      (read (letters ++ '/' :: text)) (read (others ++ '/' :: text)) := by
  have opened : ∀ {letters : Text}, (∀ letter ∈ letters, isWild letter = false) → ∃ position,
      read (letters ++ '/' :: text) = readFrom (text.length + 1) position (some '/')
        ([] ++ ((letters ++ ['/']).map Token.letter).reverse) text := by
    intro letters plain
    have allPlain : ∀ letter ∈ letters ++ ['/'], isWild letter = false :=
      List.forall_mem_append.mpr ⟨plain, List.forall_mem_singleton.mpr (by decide)⟩
    have whole := readFrom_letters allPlain (text.length + 1) 0 none [] text
    have length : (letters ++ '/' :: text).length + 1 = text.length + 1 + (letters ++ ['/']).length := by
      simp only [List.length_append, List.length_cons, List.length_nil]
      omega
    rw [List.append_assoc, List.singleton_append, List.getLast?_concat, List.append_nil] at whole
    exact ⟨_, by rw [read, length, whole]; rfl⟩
  obtain ⟨position, isRead⟩ := opened plain
  obtain ⟨otherPosition, alsoRead⟩ := opened alsoPlain
  have begun : ∀ letters : Text, ((letters ++ ['/']).map Token.letter).reverse ≠ [] ∧
      ((letters ++ ['/']).map Token.letter).reverse.head? ≠ some .anyDirectories := by simp
  rw [isRead, alsoRead]
  refine (readFrom_behind (begun letters).1 (begun letters).2 (begun others).1 (begun others).2 (text.length + 1)
    position otherPosition (some '/') [] text).imp fun one two => ?_
  rintro ⟨rest, rfl, rfl⟩
  exact ⟨.letter '/' :: rest, by simp, by simp⟩

/-- Plain letters stand for themselves. -/
theorem matchesText_letters_append (letters : Text) (pattern : Pattern) (text : Text) :
    matchesText (letters.map .letter ++ pattern) (letters ++ text) = matchesText pattern text := by
  rw [Bool.eq_iff_iff, matchesText_letters_append_iff]
  simp

end Glob

end ImportMeter
