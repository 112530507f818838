/-
This file says what the listing of a pattern finds: the paths that exist and whose names its pieces
stand for, name by name.
-/
import ImportMeter.Proofs.Attempt
import ImportMeter.Proofs.FileTree.Lookup
import ImportMeter.Proofs.Glob.Listing
import ImportMeter.Proofs.Glob.Matching

namespace ImportMeter.Glob

open Path (rooted AreEntryNames IsEntryName)

variable {tree : FileTree} {pattern : Pattern} {patterns rest : List Pattern} {path found : Path}
  {base names : List Text} {name : Text} {fuel : Nat}

/-! ### Pieces -/

/-- True for a piece that stands for no dots. -/
structure IsPlain (pattern : Pattern) : Prop where
  isPiece : IsPiece pattern
  dotless : dotsOf pattern = []

/-- Without wildcards, a piece is made of letters. -/
theorem literal?_eq_some_iff : literal? pattern = some name ↔ pattern = name.map Token.letter := by
  induction pattern generalizing name with
  | nil => simp [literal?, eq_comm]
  | cons token pattern inductionHypothesis =>
      cases token with
      | letter only =>
          rw [literal?, Option.map_eq_some_iff]
          constructor
          · rintro ⟨others, isLiteral, rfl⟩
            rw [inductionHypothesis.mp isLiteral, List.map_cons]
          · intro same
            cases name with
            | nil => cases same
            | cons letter others =>
                obtain rfl : only = letter := Token.letter.inj (List.head_eq_of_cons_eq same)
                exact ⟨others, inductionHypothesis.mpr (List.tail_eq_of_cons_eq same), rfl⟩
      | anyLetter | anyRun | anyDirectories | oneOf | noneOf =>
          refine ⟨nofun, fun same => ?_⟩
          cases name <;> cases same

/-- A piece without wildcards stands for its own letters. -/
theorem matchesText_letters {text : Text} : matchesText (name.map Token.letter) text = true ↔ text = name := by
  rw [← List.append_nil (name.map Token.letter), matchesText_letters_append_iff]
  simp [matchesText]

/-- A plain piece without wildcards is the name of an entry. -/
theorem IsPlain.isEntryName (isPlain : IsPlain (name.map .letter)) : IsEntryName name := by
  have notDots : ∀ dots, dots = ['.', '.'] ∨ dots = ['.'] → name ≠ dots := by
    rintro dots isDots rfl
    have stands : name ∈ dotsOf (name.map .letter) := by
      have both : name ∈ [['.', '.'], ['.']] := by simpa using isDots
      have isFirst : (name.map Token.letter).head? = some (.letter '.') := by
        rcases isDots with rfl | rfl <;> rfl
      rw [dotsOf, if_pos isFirst]
      exact List.mem_filter.mpr ⟨both, matchesText_letters.mpr rfl⟩
    rw [isPlain.dotless] at stands
    cases stands
  rcases isPlain.isPiece with isStars | ⟨notEmpty, isName⟩
  · cases name <;> cases isStars
  · refine ⟨fun none => notEmpty (by rw [none]; rfl), notDots _ (.inr rfl), notDots _ (.inl rfl), fun slash => ?_⟩
    exact (isName _ (List.mem_map_of_mem slash)).1 rfl

/-- Of two stars in a row, one pair is dropped. -/
theorem collapse_spec (patterns : List Pattern) :
    collapse patterns <:+ patterns ∧
      (∀ names, matchesPieces (collapse patterns) names = matchesPieces patterns names) ∧
      ∀ first second others, collapse patterns = first :: second :: others →
        isRecursive first = true → isRecursive second = false := by
  induction patterns with
  | nil => exact ⟨List.suffix_refl _, fun _ => rfl, nofun⟩
  | cons first patterns inductionHypothesis =>
      cases patterns with
      | nil => exact ⟨List.suffix_refl _, fun _ => rfl, nofun⟩
      | cons second rest =>
          rw [collapse]
          by_cases both : (isRecursive first && isRecursive second) = true
          · rw [if_pos both]
            obtain ⟨isStars, alsoStars⟩ := Bool.and_eq_true_iff.mp both
            refine ⟨inductionHypothesis.1.trans (List.suffix_cons _ _), fun names => ?_, inductionHypothesis.2.2⟩
            rw [inductionHypothesis.2.1, Bool.eq_iff_iff, matchesPieces_recursive isStars]
            constructor
            · exact fun isMatch => ⟨names, List.suffix_refl _, isMatch⟩
            · rintro ⟨left, isSuffix, isMatch⟩
              obtain ⟨others, isRest, isMatch⟩ := (matchesPieces_recursive alsoStars).mp isMatch
              exact (matchesPieces_recursive alsoStars).mpr ⟨others, isRest.trans isSuffix, isMatch⟩
          · rw [if_neg both]
            refine ⟨List.suffix_refl _, fun _ => rfl, ?_⟩
            rintro _ _ _ ⟨⟩ isStars
            exact eq_false_of_ne_true fun alsoStars => both (Bool.and_eq_true_iff.mpr ⟨isStars, alsoStars⟩)

/-! ### What is found -/

/-- A path that can be looked up unless it is too long. -/
def IsReached (tree : FileTree) (path : Path) : Prop :=
  Text.utf8Length path.letters ≤ FileTree.pathLimit → tree.existsUnfollowed path = true

/-- What some pieces may find below a path: a path below it, whose further names they stand for. -/
structure Finds (tree : FileTree) (patterns : List Pattern) (base names : List Text) (found : Path) : Prop where
  areNames : AreEntryNames (base ++ names)
  isBelow : found = rooted (base ++ names)
  isMatch : matchesPieces patterns names = true
  isReached : IsReached tree found

theorem Finds.weaken {others : List Pattern} (finds : Finds tree patterns base names found)
    (isMatch : matchesPieces others names = true) : Finds tree others base names found :=
  ⟨finds.areNames, finds.isBelow, isMatch, finds.isReached⟩

/-- What is found below an entry is found below its directory. -/
theorem Finds.up {others : List Pattern} (finds : Finds tree patterns (base ++ [name]) names found)
    (isMatch : matchesPieces others (name :: names) = true) :
    Finds tree others base (name :: names) found := by
  have split : base ++ [name] ++ names = base ++ name :: names := by simp
  exact ⟨split ▸ finds.areNames, split ▸ finds.isBelow, isMatch, finds.isReached⟩

/-- A piece takes the first name, and two stars may take more. -/
theorem matchesPieces_cons (isMatch : matchesText pattern name = true)
    (others : matchesPieces rest names = true) : matchesPieces (pattern :: rest) (name :: names) = true := by
  cases isStars : isRecursive pattern with
  | true => exact (matchesPieces_recursive isStars).mpr ⟨names, List.suffix_cons _ _, others⟩
  | false => exact (matchesPieces_name isStars).mpr ⟨name, names, rfl, isMatch, others⟩

theorem leadsOn_rooted (tree : FileTree) (areNames : AreEntryNames base) (isName : IsEntryName name) :
    leadsOn tree (rooted base) name = tree.existsUnfollowed (rooted (base ++ [name])) := by
  rw [leadsOn, Path.join_rooted_name areNames isName]
  exact if_neg (by simp [isName.notDot, isName.notDots])

/-- With so much fuel, nothing is found but what the pieces stand for. -/
structure FindsOnly (tree : FileTree) (fuel : Nat) : Prop where
  within : ∀ {patterns base}, (∀ pattern ∈ patterns, IsPlain pattern) → AreEntryNames base →
    ∀ found ∈ within tree fuel patterns (rooted base), ∃ names, Finds tree patterns base names found
  arrive : ∀ {patterns base}, (∀ pattern ∈ patterns, IsPlain pattern) → AreEntryNames base →
    IsReached tree (rooted base) →
      ∀ found ∈ arrive tree fuel patterns (rooted base), ∃ names, Finds tree patterns base names found
  visit : ∀ {patterns base name}, (∀ pattern ∈ patterns, IsPlain pattern) → AreEntryNames (base ++ [name]) →
    IsReached tree (rooted (base ++ [name])) →
      ∀ found ∈ visit tree fuel patterns (rooted (base ++ [name])),
        ∃ names, Finds tree patterns base (name :: names) found
  matchName : ∀ {patterns base name}, (∀ pattern ∈ patterns, IsPlain pattern) →
    AreEntryNames (base ++ [name]) → IsReached tree (rooted (base ++ [name])) →
      ∀ found ∈ matchName tree fuel patterns (rooted (base ++ [name])),
        ∃ names, Finds tree patterns base (name :: names) found

section Steps

variable (wellNamed : tree.WellNamed) (findsOnly : FindsOnly tree fuel)
  (arePlain : ∀ pattern ∈ patterns, IsPlain pattern)

include wellNamed findsOnly arePlain in
theorem FindsOnly.within_succ (areNames : AreEntryNames base)
    (member : found ∈ Glob.within tree (fuel + 1) patterns (rooted base)) :
    ∃ names, Finds tree patterns base names found := by
  cases patterns with
  | nil => cases member
  | cons pattern rest =>
      obtain ⟨isPlain, areOthers⟩ := List.forall_mem_cons.mp arePlain
      cases literal : literal? pattern with
      | some name =>
          obtain rfl := literal?_eq_some_iff.mp literal
          have isName := isPlain.isEntryName
          rw [within_literal literal, leadsOn_rooted tree areNames isName,
            Path.join_rooted_name areNames isName] at member
          split at member
          next isThere =>
            obtain ⟨names, finds⟩ :=
              findsOnly.arrive areOthers (areNames.concat isName) (fun _ => isThere) found member
            exact ⟨name :: names, finds.up (matchesPieces_cons (matchesText_letters.mpr rfl) finds.isMatch)⟩
          next => cases member
      | none =>
          rw [within_wildcard literal] at member
          split at member
          · cases member
          next entries listed =>
            rw [isPlain.dotless, List.flatMap_nil, List.nil_append] at member
            obtain ⟨⟨name, node⟩, isEntry, member⟩ := List.mem_flatMap.mp member
            have isFileName := wellNamed.isFileName listed _ isEntry
            have isName := isFileName.toIsEntryName
            obtain ⟨other, isChild⟩ := Node.exists_child? isEntry
            rw [Path.join_rooted_name areNames isName] at member
            have isReached : IsReached tree (rooted (base ++ [name])) :=
              FileTree.existsUnfollowed_of_entry areNames listed isChild isFileName
            obtain ⟨names, finds⟩ := findsOnly.visit arePlain (areNames.concat isName) isReached found member
            exact ⟨name :: names, finds⟩

include findsOnly arePlain in
theorem FindsOnly.arrive_succ (areNames : AreEntryNames base) (isReached : IsReached tree (rooted base))
    (member : found ∈ Glob.arrive tree (fuel + 1) patterns (rooted base)) :
    ∃ names, Finds tree patterns base names found := by
  cases patterns with
  | nil =>
      obtain rfl := List.mem_singleton.mp member
      have whole : base ++ [] = base := List.append_nil base
      exact ⟨[], whole.symm ▸ areNames, by rw [whole], rfl, isReached⟩
  | cons pattern rest => exact findsOnly.within arePlain areNames found member

include findsOnly arePlain in
theorem FindsOnly.visit_succ (areNames : AreEntryNames (base ++ [name]))
    (isReached : IsReached tree (rooted (base ++ [name])))
    (member : found ∈ Glob.visit tree (fuel + 1) patterns (rooted (base ++ [name]))) :
    ∃ names, Finds tree patterns base (name :: names) found := by
  obtain ⟨isSuffix, sameMatch, _⟩ := collapse_spec patterns
  rw [Glob.visit] at member
  split at member
  · cases member
  next pattern rest collapsed =>
    rw [collapsed] at isSuffix
    have areCollapsed : ∀ other ∈ pattern :: rest, IsPlain other :=
      fun other isIn => arePlain other (isSuffix.mem isIn)
    have areOthers := (List.forall_mem_cons.mp areCollapsed).2
    suffices whole : ∃ names, Finds tree (pattern :: rest) base (name :: names) found by
      obtain ⟨names, finds⟩ := whole
      refine ⟨names, finds.weaken ?_⟩
      rw [← sameMatch, collapsed]
      exact finds.isMatch
    split at member
    next isStars =>
      -- What is found behind two stars, the stars find as well.
      have behindStars (member : found ∈ Glob.matchName tree fuel rest (rooted (base ++ [name]))) :
          ∃ names, Finds tree (pattern :: rest) base (name :: names) found := by
        obtain ⟨names, finds⟩ := findsOnly.matchName areOthers areNames isReached found member
        exact ⟨names, finds.weaken ((matchesPieces_recursive isStars).mpr ⟨_, List.suffix_refl _, finds.isMatch⟩)⟩
      split at member
      next =>
        rcases List.mem_append.mp member with isHere | isBelow
        · split at isHere
          next isLast =>
            obtain rfl := List.mem_singleton.mp isHere
            obtain rfl := List.isEmpty_iff.mp isLast
            exact ⟨[], areNames, rfl, (matchesPieces_recursive isStars).mpr ⟨[], List.nil_suffix, rfl⟩, isReached⟩
          next => exact behindStars isHere
        · obtain ⟨names, finds⟩ := findsOnly.within areCollapsed areNames found isBelow
          obtain ⟨left, isLeft, isMatch⟩ := (matchesPieces_recursive isStars).mp finds.isMatch
          exact ⟨names, finds.up ((matchesPieces_recursive isStars).mpr
            ⟨left, isLeft.trans (List.suffix_cons _ _), isMatch⟩)⟩
      next => exact behindStars member
    next => exact findsOnly.matchName areCollapsed areNames isReached found member

include findsOnly arePlain in
theorem FindsOnly.matchName_succ (areNames : AreEntryNames (base ++ [name]))
    (isReached : IsReached tree (rooted (base ++ [name])))
    (member : found ∈ Glob.matchName tree (fuel + 1) patterns (rooted (base ++ [name]))) :
    ∃ names, Finds tree patterns base (name :: names) found := by
  cases patterns with
  | nil => cases member
  | cons pattern rest =>
      rw [Glob.matchName, Path.fileName?_rooted_concat areNames] at member
      dsimp only at member
      split at member
      next isMatch =>
        split at member
        next isLast =>
          obtain rfl := List.mem_singleton.mp member
          obtain rfl := List.isEmpty_iff.mp isLast
          exact ⟨[], areNames, rfl, matchesPieces_cons isMatch rfl, isReached⟩
        next =>
          obtain ⟨names, finds⟩ :=
            findsOnly.within (List.forall_mem_cons.mp arePlain).2 areNames found member
          exact ⟨names, finds.up (matchesPieces_cons isMatch finds.isMatch)⟩
      next => cases member

end Steps

/-- Nothing is found but what the pieces stand for, whatever the fuel. -/
theorem findsOnly (wellNamed : tree.WellNamed) (fuel : Nat) : FindsOnly tree fuel := by
  induction fuel with
  | zero => constructor <;> intros <;> contradiction
  | succ fuel findsOnly =>
      constructor
      · exact fun arePlain areNames found => findsOnly.within_succ wellNamed arePlain areNames
      · exact fun arePlain areNames isReached found => findsOnly.arrive_succ arePlain areNames isReached
      · exact fun arePlain areNames isReached found => findsOnly.visit_succ arePlain areNames isReached
      · exact fun arePlain areNames isReached found => findsOnly.matchName_succ arePlain areNames isReached

theorem mem_matchName (areNames : AreEntryNames (base ++ [name])) (isName : isRecursive pattern = false)
    (isMatch : matchesPieces (pattern :: rest) (name :: names) = true)
    (further : rest ≠ [] → matchesPieces rest names = true →
      found ∈ within tree fuel rest (rooted (base ++ [name])))
    (last : names = [] → found = rooted (base ++ [name])) :
    found ∈ matchName tree (fuel + 1) (pattern :: rest) (rooted (base ++ [name])) := by
  obtain ⟨_, _, same, isMatch, others⟩ := (matchesPieces_name isName).mp isMatch
  obtain ⟨rfl, rfl⟩ := List.cons.inj same
  rw [matchName, Path.fileName?_rooted_concat areNames]
  dsimp only
  rw [if_pos isMatch]
  cases rest with
  | nil =>
      rw [last (List.isEmpty_iff.mp others)]
      exact List.mem_singleton_self _
  | cons next rest => exact further (List.cons_ne_nil _ _) others

/-- Behind an entry whose name is taken, what the other names lead to is found. -/
theorem mem_visit (areNames : AreEntryNames (base ++ [name])) (ends : EndInName patterns)
    (isMatch : matchesPieces patterns (name :: names) = true) (enough : 3 * names.length ≤ fuel)
    (further : ∀ {others less}, others <:+ patterns → others ≠ [] → 3 * names.length ≤ less →
      matchesPieces others names = true → found ∈ within tree less others (rooted (base ++ [name])))
    (last : names = [] → found = rooted (base ++ [name]))
    (isDirectory : names ≠ [] → tree.isDirectory (rooted (base ++ [name])) = true) :
    found ∈ visit tree (fuel + 2) patterns (rooted (base ++ [name])) := by
  obtain ⟨isSuffix, sameMatch, apart⟩ := collapse_spec patterns
  have someLeft : collapse patterns ≠ [] := fun none => by
    rw [← sameMatch, none] at isMatch
    cases isMatch
  rw [← sameMatch] at isMatch
  rw [visit]
  generalize collapse patterns = collapsed at isSuffix apart isMatch someLeft
  obtain ⟨first, others, rfl⟩ := List.exists_cons_of_ne_nil someLeft
  have matched : ∀ {second : Pattern} {left : List Pattern}, second :: left <:+ patterns →
      isRecursive second = false → matchesPieces (second :: left) (name :: names) = true →
        found ∈ matchName tree (fuel + 1) (second :: left) (rooted (base ++ [name])) := by
    intro second left isLeft isName isMatch
    exact mem_matchName areNames isName isMatch
      (fun some others => further ((List.suffix_cons _ _).trans isLeft) some enough others) last
  dsimp only
  cases isStars : isRecursive first with
  | false => exact matched isSuffix isStars isMatch
  | true =>
      have more : others ≠ [] := by
        rintro rfl
        exact absurd (ends.of_suffix isSuffix someLeft first rfl) (by simp [isStars])
      obtain ⟨second, left, rfl⟩ := List.exists_cons_of_ne_nil more
      obtain ⟨taken, isTaken, others⟩ := (matchesPieces_recursive isStars).mp isMatch
      -- Two stars take no name at all, or this one and maybe more.
      rcases List.suffix_cons_iff.mp isTaken with rfl | isTaken
      · have isHere := matched ((List.suffix_cons _ _).trans isSuffix) (apart _ _ _ rfl isStars) others
        simp only [if_true]
        split
        · exact List.mem_append_left _ isHere
        · exact isHere
      · have someNames : names ≠ [] := by
          rintro rfl
          rw [List.suffix_nil.mp isTaken, matchesPieces_nil
            (ends.of_suffix ((List.suffix_cons _ _).trans isSuffix) more) more] at others
          cases others
        rw [if_pos rfl, if_pos (isDirectory someNames)]
        exact List.mem_append_right _ (further isSuffix someLeft (by omega)
          ((matchesPieces_recursive isStars).mpr ⟨taken, isTaken, others⟩))

/-- What exists and is stood for is found, given fuel for each name. -/
theorem mem_within (arePlain : ∀ pattern ∈ patterns, IsPlain pattern) (ends : EndInName patterns)
    (filled : patterns ≠ []) (areNames : AreEntryNames (base ++ names))
    (isMatch : matchesPieces patterns names = true)
    (isThere : tree.existsUnfollowed (rooted (base ++ names)) = true) (enough : 3 * names.length ≤ fuel) :
    rooted (base ++ names) ∈ within tree fuel patterns (rooted base) := by
  induction names generalizing base patterns fuel with
  | nil =>
      rw [matchesPieces_nil ends filled] at isMatch
      cases isMatch
  | cons name names inductionHypothesis =>
      obtain ⟨⟨entries, node, listed, isChild⟩, isEntry⟩ :=
        FileTree.exists_entry_of_existsUnfollowed areNames isThere
      have split : base ++ name :: names = base ++ [name] ++ names := by simp
      have areBase := areNames.front
      have isName : IsEntryName name := areNames name (by simp)
      rw [split] at areNames isThere ⊢
      rw [List.length_cons] at enough
      obtain ⟨fuel, rfl⟩ : ∃ less, fuel = less + 3 := ⟨fuel - 3, by omega⟩
      obtain ⟨pattern, rest, rfl⟩ := List.exists_cons_of_ne_nil filled
      -- One name is taken, and the other names are found from there.
      have onward : ∀ {others : List Pattern} {less : Nat}, others <:+ pattern :: rest → others ≠ [] →
          3 * names.length ≤ less → matchesPieces others names = true →
            rooted (base ++ [name] ++ names) ∈ within tree less others (rooted (base ++ [name])) := by
        intro others less isSuffix some enough isMatch
        exact inductionHypothesis (fun other member => arePlain other (isSuffix.mem member))
          (ends.of_suffix isSuffix some) some areNames isMatch isThere enough
      have atEnd : names = [] → rooted (base ++ [name] ++ names) = rooted (base ++ [name]) := by
        rintro rfl
        rw [List.append_nil]
      cases literal : literal? pattern with
      | some text =>
          obtain rfl := literal?_eq_some_iff.mp literal
          have isLiteral : isRecursive (text.map .letter) = false := by
            refine decide_eq_false fun same => ?_
            cases text <;> cases same
          obtain ⟨_, _, same, isText, others⟩ := (matchesPieces_name isLiteral).mp isMatch
          obtain ⟨rfl, rfl⟩ := List.cons.inj same
          obtain rfl := matchesText_letters.mp isText
          rw [within_literal literal, leadsOn_rooted tree areBase isName, if_pos isEntry,
            Path.join_rooted_name areBase isName]
          cases rest with
          | nil =>
              rw [atEnd (List.isEmpty_iff.mp others)]
              exact List.mem_singleton_self _
          | cons next rest =>
              exact onward (List.suffix_cons _ _) (List.cons_ne_nil _ _) (by omega) others
      | none =>
          rw [within_wildcard literal, listed]
          refine List.mem_append_right _ (List.mem_flatMap.mpr ⟨(name, node), Node.child?_eq_some isChild, ?_⟩)
          rw [Path.join_rooted_name areBase isName]
          refine mem_visit (areBase.concat isName) ends isMatch (by omega) onward atEnd fun someNames => ?_
          obtain ⟨next, names, rfl⟩ := List.exists_cons_of_ne_nil someNames
          obtain ⟨⟨_, _, listed, _⟩, _⟩ := FileTree.exists_entry_of_existsUnfollowed areNames isThere
          rw [FileTree.isDirectory, listed]
          rfl

/-! ### Patterns that are spelled by pieces -/

/-- Behind other pieces, a piece for a name stands for the last name. -/
theorem matchesPieces_concat {pattern : Pattern} (isName : isRecursive pattern = false) :
    matchesPieces (patterns ++ [pattern]) names = true ↔
      ∃ upper last, names = upper ++ [last] ∧ matchesPieces patterns upper = true ∧
        matchesText pattern last = true := by
  induction patterns generalizing names with
  | nil =>
      rw [List.nil_append, matchesPieces_name isName]
      constructor
      · rintro ⟨last, left, rfl, isMatch, isEmpty⟩
        obtain rfl := List.isEmpty_iff.mp isEmpty
        exact ⟨[], last, rfl, rfl, isMatch⟩
      · rintro ⟨upper, last, rfl, isEmpty, isMatch⟩
        obtain rfl := List.isEmpty_iff.mp isEmpty
        exact ⟨last, [], rfl, isMatch, rfl⟩
  | cons first patterns inductionHypothesis =>
      rw [List.cons_append]
      cases isStars : isRecursive first with
      | true =>
          rw [matchesPieces_recursive isStars]
          constructor
          · rintro ⟨left, ⟨front, rfl⟩, isMatch⟩
            obtain ⟨upper, last, rfl, others, isMatch⟩ := inductionHypothesis.mp isMatch
            exact ⟨front ++ upper, last, (List.append_assoc _ _ _).symm,
              (matchesPieces_recursive isStars).mpr ⟨upper, List.suffix_append _ _, others⟩, isMatch⟩
          · rintro ⟨upper, last, rfl, all, isMatch⟩
            obtain ⟨left, ⟨front, rfl⟩, others⟩ := (matchesPieces_recursive isStars).mp all
            exact ⟨left ++ [last], ⟨front, (List.append_assoc _ _ _).symm⟩,
              inductionHypothesis.mpr ⟨left, last, rfl, others, isMatch⟩⟩
      | false =>
          rw [matchesPieces_name isStars]
          constructor
          · rintro ⟨name, left, rfl, isFirst, isMatch⟩
            obtain ⟨upper, last, rfl, others, isMatch⟩ := inductionHypothesis.mp isMatch
            exact ⟨name :: upper, last, rfl, matchesPieces_cons isFirst others, isMatch⟩
          · rintro ⟨upper, last, rfl, all, isMatch⟩
            obtain ⟨name, left, rfl, isFirst, others⟩ := (matchesPieces_name isStars).mp all
            exact ⟨name, left ++ [last], rfl, isFirst, inductionHypothesis.mpr ⟨left, last, rfl, others, isMatch⟩⟩

/-- True if some pieces are read as some patterns. -/
abbrev AreRead (pieces : List Text) (patterns : List Pattern) : Prop :=
  List.Forall₂ (fun piece pattern => read piece = .ok pattern) pieces patterns

theorem piecesOf_joinWith {pieces : List Text} {last : Text} (filled : last ≠ [])
    (slashless : ∀ piece ∈ pieces ++ [last], '/' ∉ piece) :
    piecesOf (Text.joinWith ['/'] (pieces ++ [last])) = pieces ++ [last] := by
  have some : pieces ++ [last] ≠ [] := by simp
  obtain ⟨letter, letters, rfl⟩ := List.exists_cons_of_ne_nil filled
  rw [piecesOf, Text.splitOn_joinWith some slashless, List.reverse_append, List.reverse_singleton,
    List.singleton_append]
  simp

/-- An absolute pattern that is spelled by pieces is expanded piece by piece. -/
theorem expand_rooted_eq_ok_iff {pieces : List Text} {last : Text} {files : List Path} (filled : last ≠ [])
    (slashless : ∀ piece ∈ pieces ++ [last], '/' ∉ piece) :
    expand tree (rooted (pieces ++ [last])).letters = .ok files ↔
      ∃ patterns, AreRead (pieces ++ [last]) patterns ∧
        files = within tree (fuelFor tree patterns) patterns (rooted []) := by
  have dropped : (rooted (pieces ++ [last])).letters.drop 1 = Text.joinWith ['/'] (pieces ++ [last]) := rfl
  simp only [expand, bind_eq_ok_iff, dropped, piecesOf_joinWith filled slashless, mapM_eq_ok_iff]
  constructor
  · rintro ⟨_, _, patterns, areRead, same⟩
    exact ⟨patterns, areRead, (Except.ok.inj same).symm⟩
  · rintro ⟨patterns, areRead, rfl⟩
    exact ⟨_, read_rooted areRead slashless, patterns, areRead, rfl⟩

end ImportMeter.Glob
