/-
This file compares what a pattern behind an exclamation mark takes away with what it would list by
itself. Members are taken away by their text, in which a star may stand for slashes; they are listed
name by name.
-/
import ImportMeter.FileTree.Build
import ImportMeter.Proofs.Glob.Search
import ImportMeter.Proofs.Package.Root
import ImportMeter.Proofs.Package.Search

namespace ImportMeter

open Manifest (isEntryName_fileName)
open Path (rooted AreEntryNames IsEntryName)

namespace Glob

variable {tree : FileTree} {piece name : Text} {pattern : Pattern} {patterns : List Pattern}
  {names : List Text}

/-- True for a piece of a pattern that is not empty and stands for no dots. -/
def isPlainPiece (piece : Text) : Bool :=
  piece ≠ [] && match read piece with
    | .ok pattern => (dotsOf pattern).isEmpty
    | .error _ => true

/-- True for a relative pattern spelled without dots and doubled slashes. -/
def isPlainText (text : Text) : Bool := (Text.splitOn '/' text).all isPlainPiece

/-- True for a pattern that ends in two stars. -/
def endsInStars (text : Text) : Bool := (Text.splitOn '/' text).getLast? = some ['*', '*']

theorem isPlain_of_read (plain : isPlainPiece piece = true) (slashless : '/' ∉ piece)
    (isRead : read piece = .ok pattern) : IsPlain pattern := by
  rw [isPlainPiece, isRead, Bool.and_eq_true_iff] at plain
  obtain ⟨filled, dotless⟩ := plain
  refine ⟨?_, List.isEmpty_iff.mp dotless⟩
  rcases cases_of_read slashless isRead with ⟨_, isStars⟩ | ⟨some, isName, _⟩
  · exact .inl isStars
  · exact .inr ⟨some (of_decide_eq_true filled), isName⟩

theorem isPlainPiece_of_isEntryName (isName : IsEntryName name) (plain : ∀ letter ∈ name, isWild letter = false) :
    isPlainPiece name = true := by
  rw [isPlainPiece, read_letters plain, Bool.and_eq_true_iff]
  refine ⟨decide_eq_true isName.filled,
    List.isEmpty_iff.mpr (List.eq_nil_iff_forall_not_mem.mpr fun dots member => ?_)⟩
  obtain ⟨isDots, isMatch⟩ := List.mem_filter.mp member
  rw [matchesText_letters.mp isMatch] at isDots
  split at isDots
  · rcases List.mem_cons.mp isDots with same | isDot
    · exact isName.notDots same
    · exact isName.notDot (List.mem_singleton.mp isDot)
  · cases isDots

end Glob

namespace Workspace

open Glob (isWild isPlainPiece isPlainText endsInStars AreRead IsPlain matchesPieces matchesText
  matchesApart)

variable {tree : FileTree} {start root member : Path} {pattern negated : Text}
  {patterns : List Glob.Pattern} {names : List Text} {rule : Rule}

/-- The root of a workspace is the path of some names. -/
theorem exists_rootOf_eq_rooted (absolute : tree.workingDirectory.isAbsolute = true)
    (found : rootOf tree start = .ok root) :
    ∃ names, AreEntryNames names ∧ names ≠ [] ∧ root = rooted names := by
  obtain ⟨result, search, isRoot⟩ := bind_eq_ok_iff.mp found
  cases result with
  | none => cases isRoot
  | some other =>
      cases isRoot
      obtain ⟨isAncestor, hasParent⟩ := List.mem_filter.mp (liesIn_of_findRoot absolute search).above
      obtain ⟨stack, areNames, same⟩ := Path.exists_absolutize_eq_stacked absolute start
      rw [same, Path.mem_ancestors_stacked areNames] at isAncestor
      obtain ⟨upper, isUpper, rfl⟩ := isAncestor
      refine ⟨upper.reverse, fun name member => areNames name (isUpper.mem (List.mem_reverse.mp member)),
        fun none => ?_, rfl⟩
      rw [List.reverse_eq_nil_iff.mp none] at hasParent
      cases hasParent

/-- The directory of a workspace, without letters that stand for others. -/
structure IsPlainRoot (names : List Text) : Prop where
  areNames : AreEntryNames names
  filled : names ≠ []
  plain : ∀ name ∈ names, ∀ letter ∈ name, isWild letter = false

/-- The pieces of a pattern below a root. -/
def piecesOf (names : List Text) (pattern : Text) : List Text := names ++ Text.splitOn '/' pattern

theorem IsPlainRoot.pieces (isRoot : IsPlainRoot names) (plain : isPlainText pattern = true) :
    ∀ piece ∈ piecesOf names pattern, isPlainPiece piece = true ∧ piece ≠ [] ∧ '/' ∉ piece := by
  intro piece member
  rcases List.mem_append.mp member with isName | isPiece
  · have isEntry := isRoot.areNames piece isName
    exact ⟨Glob.isPlainPiece_of_isEntryName isEntry (isRoot.plain piece isName), isEntry.filled, isEntry.slashless⟩
  · have isPlain := List.all_eq_true.mp plain piece isPiece
    exact ⟨isPlain, of_decide_eq_true (Bool.and_eq_true_iff.mp isPlain).1, Text.notMem_of_mem_splitOn isPiece⟩

/-- A plain pattern seen from the root is spelled by the pieces of both. -/
theorem IsPlainRoot.join (isRoot : IsPlainRoot names) (plain : isPlainText pattern = true) :
    (rooted names).join ⟨pattern⟩ = rooted (piecesOf names pattern) := by
  have relative : (Path.mk pattern).isAbsolute = false := by
    cases pattern with
    | nil => rfl
    | cons letter rest =>
        refine decide_eq_false fun isFirst => ?_
        obtain rfl := Option.some.inj isFirst
        have none := List.all_eq_true.mp plain [] (by simp [Text.splitOn])
        cases none
  exact Path.join_rooted_splitOn isRoot.areNames relative

theorem isPlain_fileName : ∀ letter ∈ Manifest.fileName, isWild letter = false :=
  Glob.forall_isWild_eq_false (by decide)

theorem join_fileName {pieces : List Text} (free : ∀ piece ∈ pieces, piece ≠ [] ∧ '/' ∉ piece) :
    (rooted pieces).join ⟨Manifest.fileName⟩ = rooted (pieces ++ [Manifest.fileName]) :=
  Path.join_rooted (fun last isLast => free last (List.mem_of_getLast? isLast))
    (List.cons_ne_nil Manifest.fileName []) rfl

/-- A pattern below a root stands for some name. -/
theorem IsPlainRoot.ne_nil (isRoot : IsPlainRoot names) (areRead : AreRead (piecesOf names pattern) patterns)
    {others : List Text} (isMatch : matchesPieces patterns others = true) : others ≠ [] := by
  rintro rfl
  obtain ⟨first, rest, rfl⟩ := List.exists_cons_of_ne_nil isRoot.filled
  obtain ⟨letters, _, isRead, _, rfl⟩ := List.forall₂_cons_left_iff.mp areRead
  have isName : Glob.isRecursive letters = false := by
    rw [Glob.read_letters (isRoot.plain first List.mem_cons_self)] at isRead
    obtain rfl := Except.ok.inj isRead
    refine decide_eq_false fun same => ?_
    cases first <;> cases same
  obtain ⟨_, _, same, _⟩ := (Glob.matchesPieces_name isName).mp isMatch
  cases same

/-! ### What a pattern lists -/

/-- The members that a pattern lists: the directories with a manifest whose names its pieces stand for. -/
structure Lists (tree : FileTree) (patterns : List Glob.Pattern) (members : List Path) : Prop where
  sound : ∀ member ∈ members, ∃ names, AreEntryNames names ∧ member = rooted names ∧
    matchesPieces patterns names = true ∧ Glob.IsReached tree (rooted (names ++ [Manifest.fileName]))
  complete : ∀ names, AreEntryNames names → matchesPieces patterns names = true →
    tree.existsUnfollowed (rooted (names ++ [Manifest.fileName])) = true → rooted names ∈ members

/-- What the listing of a manifest finds are the manifests of members. -/
theorem lists_of_within (wellNamed : tree.WellNamed) (arePlain : ∀ pattern ∈ patterns, IsPlain pattern) :
    Lists tree patterns ((Glob.within tree
      (Glob.fuelFor tree (patterns ++ [Manifest.fileName.map .letter]))
      (patterns ++ [Manifest.fileName.map .letter]) (rooted [])).filterMap Path.parent?) := by
  have isPlain : IsPlain (Manifest.fileName.map .letter) :=
    Glob.isPlain_of_read (by decide) isEntryName_fileName.slashless (Glob.read_letters isPlain_fileName)
  have isName : Glob.isRecursive (Manifest.fileName.map .letter) = false := by decide
  have allPlain : ∀ pattern ∈ patterns ++ [Manifest.fileName.map .letter], IsPlain pattern := by
    intro pattern member
    rcases List.mem_append.mp member with isOld | isNew
    · exact arePlain pattern isOld
    · exact List.mem_singleton.mp isNew ▸ isPlain
  refine ⟨fun member isMember => ?_, fun names areNames isMatch isThere => ?_⟩
  · have fromRoot : AreEntryNames [] := nofun
    obtain ⟨file, isFile, isParent⟩ := List.mem_filterMap.mp isMember
    obtain ⟨names, finds⟩ := (Glob.findsOnly wellNamed _).within allPlain fromRoot file isFile
    obtain ⟨areNames, isBelow, isMatch, isReached⟩ := finds
    obtain ⟨upper, last, rfl, upperMatch, isLast⟩ := (Glob.matchesPieces_concat isName).mp isMatch
    obtain rfl := Glob.matchesText_letters.mp isLast
    rw [List.nil_append] at isBelow areNames
    rw [isBelow, Path.parent?_rooted_concat areNames] at isParent
    exact ⟨upper, areNames.front, (Option.some.inj isParent).symm, upperMatch, isBelow ▸ isReached⟩
  · have areAll := areNames.concat isEntryName_fileName
    refine List.mem_filterMap.mpr ⟨rooted (names ++ [Manifest.fileName]), ?_, Path.parent?_rooted_concat areAll⟩
    have ends : Glob.EndInName (patterns ++ [Manifest.fileName.map .letter]) := by
      intro last isLast
      rw [List.getLast?_concat] at isLast
      exact Option.some.inj isLast ▸ isName
    have few := FileTree.length_le_of_existsUnfollowed areAll isThere
    have limit : FileTree.linkLimit = 40 := rfl
    have enough : 3 * (names ++ [Manifest.fileName]).length ≤
        Glob.fuelFor tree (patterns ++ [Manifest.fileName.map .letter]) := by
      rw [limit] at few
      rw [Glob.fuelFor, limit]
      omega
    have isFound : rooted ([] ++ (names ++ [Manifest.fileName])) ∈ _ := Glob.mem_within allPlain ends (by simp)
      areAll ((Glob.matchesPieces_concat isName).mpr
        ⟨names, _, rfl, isMatch, Glob.matchesText_letters.mpr rfl⟩) isThere enough
    exact isFound

/-- A plain pattern lists the members that its pieces stand for. -/
theorem lists_of_ruleOf (wellNamed : tree.WellNamed) (isRoot : IsPlainRoot names)
    (plain : isPlainText pattern = true) (positive : pattern.head? ≠ some '!')
    (isRule : ruleOf tree (rooted names) pattern = .ok rule) :
    ∃ patterns members, rule = .adds members ∧ AreRead (piecesOf names pattern) patterns ∧
      (∀ pattern ∈ patterns, IsPlain pattern) ∧ Lists tree patterns members := by
  have free := isRoot.pieces plain
  have slashless : ∀ piece ∈ piecesOf names pattern ++ [Manifest.fileName], '/' ∉ piece := by
    intro piece member
    rcases List.mem_append.mp member with isPiece | isLast
    · exact (free piece isPiece).2.2
    · exact List.mem_singleton.mp isLast ▸ isEntryName_fileName.slashless
  rw [ruleOf.eq_def] at isRule
  split at isRule
  next => exact absurd rfl positive
  next =>
    rw [isRoot.join plain, join_fileName fun piece member => (free piece member).2] at isRule
    split at isRule
    next files expanded =>
      obtain ⟨all, areRead, rfl⟩ :=
        (Glob.expand_rooted_eq_ok_iff isEntryName_fileName.filled slashless).mp expanded
      obtain ⟨patterns, last, rfl, areFront, isLast⟩ := forall₂_append_left areRead
      obtain ⟨manifest, others, isManifest, noOthers, rfl⟩ := List.forall₂_cons_left_iff.mp isLast
      obtain rfl := List.forall₂_nil_left_iff.mp noOthers
      obtain rfl : Manifest.fileName.map .letter = manifest :=
        Except.ok.inj ((Glob.read_letters isPlain_fileName).symm.trans isManifest)
      cases isRule
      have arePlain : ∀ pattern ∈ patterns, IsPlain pattern := by
        intro pattern member
        obtain ⟨piece, isPiece, isRead⟩ := exists_left_of_forall₂ areFront member
        obtain ⟨isPlain, _, slashless⟩ := free piece isPiece
        exact Glob.isPlain_of_read isPlain slashless isRead
      exact ⟨patterns, _, rfl, areFront, arePlain, lists_of_within wellNamed arePlain⟩
    next => cases isRule

/-! ### What a pattern takes away -/

/-- True for a member that a pattern behind an exclamation mark stands for, given how patterns are matched
with texts. -/
def drops (isMatch : Glob.Pattern → Text → Bool) (root : Path) (negated : Text) (member : Path) : Bool :=
  match Glob.read (root.join ⟨negated⟩).letters with
  | .ok compiled => isMatch compiled member.letters
  | .error _ => false

theorem drops_of_read (isRoot : IsPlainRoot names) (plain : isPlainText negated = true)
    (areRead : AreRead (piecesOf names negated) patterns) (isMatch : Glob.Pattern → Text → Bool)
    (member : Path) :
    drops isMatch (rooted names) negated member =
      isMatch (.letter '/' :: Glob.joined false patterns) member.letters := by
  rw [drops, isRoot.join plain, Glob.read_rooted areRead fun piece member =>
    (isRoot.pieces plain piece member).2.2]

/-- Only two stars are read as two stars. -/
theorem endInName_of_areRead (isRoot : IsPlainRoot names) (plain : isPlainText negated = true)
    (ends : endsInStars negated = false) (areRead : AreRead (piecesOf names negated) patterns) :
    Glob.EndInName patterns := by
  intro last isLast
  have some : Text.splitOn '/' negated ≠ [] := Text.splitOn_ne_nil '/' negated
  obtain ⟨front, piece, split⟩ := (List.eq_nil_or_concat' (Text.splitOn '/' negated)).resolve_left some
  have whole : piecesOf names negated = (names ++ front) ++ [piece] := by
    rw [piecesOf, split, List.append_assoc]
  rw [whole] at areRead
  obtain ⟨firsts, others, rfl, _, lastRead⟩ := forall₂_append_left areRead
  obtain ⟨pattern, left, isRead, noOthers, rfl⟩ := List.forall₂_cons_left_iff.mp lastRead
  obtain rfl := List.forall₂_nil_left_iff.mp noOthers
  rw [List.getLast?_concat] at isLast
  obtain rfl := Option.some.inj isLast
  have slashless : '/' ∉ piece := (isRoot.pieces plain piece (by rw [whole]; simp)).2.2
  rcases Glob.cases_of_read slashless isRead with ⟨rfl, _⟩ | ⟨_, isName, _⟩
  · rw [endsInStars, split, List.getLast?_concat] at ends
    exact absurd rfl (of_decide_eq_false ends)
  · exact Glob.isRecursive_eq_false isName

/-- If its wildcards left slashes alone, a pattern would take away the members that it lists. -/
theorem drops_matchesApart_iff (isRoot : IsPlainRoot names) (plain : isPlainText negated = true)
    (ends : endsInStars negated = false) (areRead : AreRead (piecesOf names negated) patterns)
    (arePlain : ∀ pattern ∈ patterns, IsPlain pattern) {members : List Path} (lists : Lists tree patterns members)
    {others : List Text} (areNames : AreEntryNames others)
    (isThere : tree.existsUnfollowed (rooted (others ++ [Manifest.fileName])) = true) (filled : others ≠ []) :
    drops matchesApart (rooted names) negated (rooted others) = true ↔ rooted others ∈ members := by
  have endInName := endInName_of_areRead isRoot plain ends areRead
  have apart : drops matchesApart (rooted names) negated (rooted others) = true ↔
      matchesPieces patterns others = true := by
    rw [drops_of_read isRoot plain areRead, rooted, Glob.matchesApart_slash]
    rw [← (Glob.matchesApart_joined (fun pattern member => (arePlain pattern member).isPiece) endInName areNames
      filled).1]
    constructor
    · rintro ⟨_, same, isMatch⟩
      exact List.tail_eq_of_cons_eq same ▸ isMatch
    · exact fun isMatch => ⟨_, rfl, isMatch⟩
  rw [apart]
  refine ⟨fun isMatch => lists.complete others areNames isMatch isThere, fun isMember => ?_⟩
  obtain ⟨same, areSame, isSame, isMatch, _⟩ := lists.sound _ isMember
  rwa [Path.rooted_injective areNames areSame isSame]

/-! ### All patterns of a root -/

/-- The patterns that add members. -/
def positives (patterns : List Text) : List Text := patterns.filter fun pattern => pattern.head? ≠ some '!'

/-- The patterns that take members away, without their exclamation marks. -/
def negatives (patterns : List Text) : List Text :=
  patterns.filterMap fun
    | '!' :: negated => some negated
    | _ => none

theorem ruleOf_negative (tree : FileTree) {compiled : Glob.Pattern}
    (isRead : Glob.read (root.join ⟨negated⟩).letters = .ok compiled) :
    ruleOf tree root ('!' :: negated) = .ok (.drops compiled) := by
  rw [ruleOf, isRead]

theorem keeps_of_positive (positive : pattern.head? ≠ some '!') (isRule : ruleOf tree root pattern = .ok rule)
    (member : Path) : rule.keeps member = true := by
  rw [ruleOf.eq_def] at isRule
  split at isRule
  next => exact absurd rfl positive
  next =>
    split at isRule
    next => cases isRule; rfl
    next => cases isRule

/-- The patterns that take members away have no part in what is added, nor the others in what is kept. -/
theorem exists_rules {patterns : List Text} {rules : List Rule}
    (areRules : (positives patterns).mapM (ruleOf tree root) = .ok rules)
    (areRead : ∀ negated ∈ negatives patterns, ∃ compiled,
      Glob.read (root.join ⟨negated⟩).letters = .ok compiled) :
    ∃ all, patterns.mapM (ruleOf tree root) = .ok all ∧ all.flatMap Rule.added = rules.flatMap Rule.added ∧
      ∀ member, all.all (·.keeps member) = !(negatives patterns).any (drops matchesText root · member) := by
  simp only [mapM_eq_ok_iff] at areRules ⊢
  induction patterns generalizing rules with
  | nil =>
      obtain rfl := List.forall₂_nil_left_iff.mp areRules
      exact ⟨[], .nil, rfl, fun _ => rfl⟩
  | cons pattern patterns inductionHypothesis =>
      by_cases negative : pattern.head? = some '!'
      · obtain ⟨negated, rfl⟩ : ∃ negated, pattern = '!' :: negated := by
          cases pattern with
          | nil => cases negative
          | cons letter negated => exact ⟨negated, by rw [Option.some.inj negative]⟩
        have isNegative : negatives (('!' :: negated) :: patterns) = negated :: negatives patterns := rfl
        have noPositive : positives (('!' :: negated) :: patterns) = positives patterns :=
          List.filter_cons_of_neg (by simp)
        rw [noPositive] at areRules
        rw [isNegative] at areRead ⊢
        obtain ⟨⟨compiled, isRead⟩, areRead⟩ := List.forall_mem_cons.mp areRead
        obtain ⟨all, areAll, sameAdded, sameKept⟩ := inductionHypothesis areRead areRules
        refine ⟨.drops compiled :: all, .cons (ruleOf_negative tree isRead) areAll, ?_, fun member => ?_⟩
        · rw [List.flatMap_cons, sameAdded]
          rfl
        · rw [List.all_cons, List.any_cons, sameKept, Rule.keeps, drops, isRead, Bool.not_or]
      · have noNegative : negatives (pattern :: patterns) = negatives patterns := by
          refine List.filterMap_cons_none ?_
          split
          next => exact absurd rfl negative
          next => rfl
        have isPositive : positives (pattern :: patterns) = pattern :: positives patterns :=
          List.filter_cons_of_pos (by simp [negative])
        rw [isPositive] at areRules
        rw [noNegative] at areRead ⊢
        obtain ⟨rule, others, isRule, areOthers, rfl⟩ := List.forall₂_cons_left_iff.mp areRules
        obtain ⟨all, areAll, sameAdded, sameKept⟩ := inductionHypothesis areRead areOthers
        refine ⟨rule :: all, .cons isRule areAll, ?_, fun member => ?_⟩
        · rw [List.flatMap_cons, List.flatMap_cons, sameAdded]
        · rw [List.all_cons, sameKept, keeps_of_positive negative isRule, Bool.true_and]

/-- If all patterns add members, all members that they add are listed. -/
theorem exists_rules_of_positive {patterns : List Text} {listed : List Path}
    (positive : ∀ pattern ∈ patterns, pattern.head? ≠ some '!')
    (lists : membersOf tree root patterns = .ok listed) :
    ∃ rules, patterns.mapM (ruleOf tree root) = .ok rules ∧ listed = rules.flatMap Rule.added := by
  obtain ⟨rules, areRules, same⟩ := bind_eq_ok_iff.mp lists
  refine ⟨rules, areRules, (Except.ok.inj same).symm.trans (List.filter_eq_self.mpr fun member _ => ?_)⟩
  refine List.all_eq_true.mpr fun rule isRule => ?_
  obtain ⟨pattern, isPattern, isRule⟩ := exists_of_mem_mapM areRules isRule
  exact keeps_of_positive (positive pattern isPattern) isRule member

/-- What is listed is what is added and not taken away. -/
theorem membersOf_eq_filter {patterns : List Text} {listed : List Path}
    (lists : membersOf tree root (positives patterns) = .ok listed)
    (areRead : ∀ negated ∈ negatives patterns, ∃ compiled,
      Glob.read (root.join ⟨negated⟩).letters = .ok compiled) :
    membersOf tree root patterns =
      .ok (listed.filter fun member => !(negatives patterns).any (drops matchesText root · member)) := by
  obtain ⟨rules, areRules, rfl⟩ := exists_rules_of_positive
    (fun pattern member => of_decide_eq_true (List.mem_filter.mp member).2) lists
  obtain ⟨all, areAll, sameAdded, sameKept⟩ := exists_rules areRules areRead
  rw [membersOf, areAll]
  refine congrArg Except.ok ?_
  rw [sameAdded]
  exact List.filter_congr fun member _ => sameKept member

/-- What some patterns list is what one of them lists. -/
theorem mem_membersOf_iff {patterns : List Text} {listed : List Path}
    (positive : ∀ pattern ∈ patterns, pattern.head? ≠ some '!')
    (lists : membersOf tree root patterns = .ok listed) :
    (∀ pattern ∈ patterns, ∃ rule, ruleOf tree root pattern = .ok rule) ∧
      ∀ member, member ∈ listed ↔
        ∃ pattern ∈ patterns, ∃ rule, ruleOf tree root pattern = .ok rule ∧ member ∈ rule.added := by
  obtain ⟨rules, areRules, rfl⟩ := exists_rules_of_positive positive lists
  have each : ∀ pattern ∈ patterns, ∃ rule ∈ rules, ruleOf tree root pattern = .ok rule :=
    fun pattern => exists_result_of_mem areRules
  refine ⟨fun pattern isPattern => (each pattern isPattern).imp fun _ both => both.2, fun member => ?_⟩
  rw [List.mem_flatMap]
  constructor
  · rintro ⟨rule, isRule, isAdded⟩
    obtain ⟨pattern, isPattern, isRule⟩ := exists_of_mem_mapM areRules isRule
    exact ⟨pattern, isPattern, rule, isRule, isAdded⟩
  · rintro ⟨pattern, isPattern, rule, isRule, isAdded⟩
    obtain ⟨other, isOther, isSame⟩ := each pattern isPattern
    rw [isRule] at isSame
    exact ⟨rule, Except.ok.inj isSame ▸ isOther, isAdded⟩

theorem filter_eq_filter_iff {α : Type} {first second : α → Bool} {items : List α} :
    items.filter first = items.filter second ↔ ∀ item ∈ items, first item = second item := by
  refine ⟨fun same item member => ?_, List.filter_congr⟩
  have both : item ∈ items.filter first ↔ item ∈ items.filter second := by rw [same]
  rw [List.mem_filter, List.mem_filter] at both
  exact Bool.eq_iff_iff.mpr ⟨fun holds => (both.mp ⟨member, holds⟩).2, fun holds => (both.mpr ⟨member, holds⟩).2⟩

theorem positive_of_mem {patterns : List Text} (isPositive : pattern ∈ positives patterns) :
    pattern.head? ≠ some '!' := of_decide_eq_true (List.mem_filter.mp isPositive).2

section Listed

variable {declared : List Text} {listed excluded : List Path} {others : List Text}

/-- A listed member is the path of some names, and its manifest is there. -/
theorem exists_names_of_mem (wellNamed : tree.WellNamed) (isRoot : IsPlainRoot names)
    (plain : ∀ pattern ∈ positives declared, isPlainText pattern = true)
    (lists : membersOf tree (rooted names) (positives declared) = .ok listed) (isListed : member ∈ listed)
    (short : Text.utf8Length (member.join ⟨Manifest.fileName⟩).letters ≤ FileTree.pathLimit) :
    ∃ others, AreEntryNames others ∧ others ≠ [] ∧ member = rooted others ∧
      tree.existsUnfollowed (rooted (others ++ [Manifest.fileName])) = true := by
  obtain ⟨pattern, isPattern, rule, isRule, isAdded⟩ :=
    ((mem_membersOf_iff (fun _ => positive_of_mem) lists).2 member).mp isListed
  obtain ⟨patterns, added, rfl, areRead, _, isList⟩ :=
    lists_of_ruleOf wellNamed isRoot (plain pattern isPattern) (positive_of_mem isPattern) isRule
  obtain ⟨others, areOthers, rfl, isMatch, isReached⟩ := isList.sound member isAdded
  rw [join_fileName areOthers.free] at short
  exact ⟨others, areOthers, isRoot.ne_nil areRead isMatch, rfl, isReached short⟩

/-- What the patterns behind exclamation marks list themselves is what they would take away if their
wildcards left slashes alone. -/
theorem mem_excluded_iff (wellNamed : tree.WellNamed) (isRoot : IsPlainRoot names)
    (plain : ∀ negated ∈ negatives declared, isPlainText negated = true)
    (positive : ∀ negated ∈ negatives declared, negated.head? ≠ some '!')
    (ends : ∀ negated ∈ negatives declared, endsInStars negated = false)
    (enumerates : membersOf tree (rooted names) (negatives declared) = .ok excluded)
    (areOthers : AreEntryNames others) (filled : others ≠ [])
    (isThere : tree.existsUnfollowed (rooted (others ++ [Manifest.fileName])) = true) :
    rooted others ∈ excluded ↔
      (negatives declared).any (drops matchesApart (rooted names) · (rooted others)) = true := by
  obtain ⟨allRules, memExcluded⟩ := mem_membersOf_iff positive enumerates
  rw [memExcluded, List.any_eq_true]
  refine exists_congr fun negated => and_congr_right fun isNegative => ?_
  obtain ⟨rule, isRule⟩ := allRules negated isNegative
  obtain ⟨patterns, added, rfl, areRead, arePlain, isList⟩ :=
    lists_of_ruleOf wellNamed isRoot (plain negated isNegative) (positive negated isNegative) isRule
  rw [drops_matchesApart_iff isRoot (plain negated isNegative) (ends negated isNegative) areRead arePlain isList
    areOthers isThere filled, isRule]
  constructor
  · rintro ⟨other, isOther, isAdded⟩
    obtain rfl := Except.ok.inj isOther
    exact isAdded
  · exact fun isAdded => ⟨_, rfl, isAdded⟩

/-- Patterns that can be listed can be compiled. -/
theorem exists_read_of_negative (wellNamed : tree.WellNamed) (isRoot : IsPlainRoot names)
    (plain : ∀ negated ∈ negatives declared, isPlainText negated = true)
    (positive : ∀ negated ∈ negatives declared, negated.head? ≠ some '!')
    (enumerates : membersOf tree (rooted names) (negatives declared) = .ok excluded) :
    ∀ negated ∈ negatives declared, ∃ compiled,
      Glob.read ((rooted names).join ⟨negated⟩).letters = .ok compiled := by
  intro negated isNegative
  have isPlain := plain negated isNegative
  obtain ⟨rule, isRule⟩ := (mem_membersOf_iff positive enumerates).1 negated isNegative
  obtain ⟨patterns, _, _, areRead, _⟩ :=
    lists_of_ruleOf wellNamed isRoot isPlain (positive negated isNegative) isRule
  rw [isRoot.join isPlain]
  exact ⟨_, Glob.read_rooted areRead fun piece member => (isRoot.pieces isPlain piece member).2.2⟩

/-- With wildcards that take slashes, no less is taken away. -/
theorem drops_matchesText_of_matchesApart (isDropped : drops matchesApart root negated member = true) :
    drops matchesText root negated member = true := by
  rw [drops] at isDropped ⊢
  cases isRead : Glob.read (root.join ⟨negated⟩).letters with
  | error fault =>
      rw [isRead] at isDropped
      cases isDropped
  | ok compiled =>
      rw [isRead] at isDropped
      exact Glob.matchesText_of_matchesApart isDropped

end Listed

/-- Patterns behind exclamation marks take away exactly the members that they would list, as long as a
listed member that one of them stands for is stood for without a wildcard taking a slash. -/
theorem members_excludes_iff {manifest : Manifest} {listed excluded : List Path}
    (absolute : tree.workingDirectory.isAbsolute = true) (wellNamed : tree.WellNamed)
    (found : rootOf tree start = .ok root)
    (declared : Manifest.ofFile tree (root.join ⟨Manifest.fileName⟩) = .ok manifest)
    (noWildcards : ∀ letter ∈ root.letters, isWild letter = false)
    (plain : ∀ pattern ∈ positives manifest.patterns ++ negatives manifest.patterns, isPlainText pattern = true)
    (positive : ∀ negated ∈ negatives manifest.patterns, negated.head? ≠ some '!')
    (ends : ∀ negated ∈ negatives manifest.patterns, endsInStars negated = false)
    (lists : membersOf tree root (positives manifest.patterns) = .ok listed)
    (enumerates : membersOf tree root (negatives manifest.patterns) = .ok excluded)
    (short : ∀ member ∈ listed,
      Text.utf8Length (member.join ⟨Manifest.fileName⟩).letters ≤ FileTree.pathLimit) :
    members tree start = .ok (listed.filter fun member => member ∉ excluded) ↔
      ∀ member ∈ listed, (negatives manifest.patterns).any (drops matchesText root · member) = true →
        (negatives manifest.patterns).any (drops matchesApart root · member) = true := by
  obtain ⟨names, areNames, filled, rfl⟩ := exists_rootOf_eq_rooted absolute found
  have isRoot : IsPlainRoot names := ⟨areNames, filled, fun name isName letter member =>
    noWildcards letter (Path.mem_letters_rooted_iff.mpr (.inr ⟨name, isName, member⟩))⟩
  obtain ⟨plainPositives, plainNegatives⟩ := List.forall_mem_append.mp plain
  have areRead := exists_read_of_negative wellNamed isRoot plainNegatives positive enumerates
  have opened : members tree start = membersOf tree (rooted names) manifest.patterns := by
    rw [members, found]
    dsimp only [bind, Except.bind]
    rw [declared]
  rw [opened, membersOf_eq_filter lists areRead, Except.ok.injEq, filter_eq_filter_iff]
  refine forall₂_congr fun member isListed => ?_
  -- A listed member is a path without dots, so it is listed again in the same spelling.
  obtain ⟨others, areOthers, someOthers, rfl, isThere⟩ :=
    exists_names_of_mem wellNamed isRoot plainPositives lists isListed (short member isListed)
  rw [decide_not, Bool.not_inj_iff, Bool.eq_iff_iff, decide_eq_true_iff,
    mem_excluded_iff wellNamed isRoot plainNegatives positive ends enumerates areOthers someOthers isThere]
  refine ⟨fun same => same.mp, fun onward => ⟨onward, fun isApart => ?_⟩⟩
  obtain ⟨negated, isNegative, isDropped⟩ := List.any_eq_true.mp isApart
  exact List.any_eq_true.mpr ⟨negated, isNegative, drops_matchesText_of_matchesApart isDropped⟩

/-- A workspace with two packages, one of which holds another. -/
def packagesTree (patterns : String) : FileTree :=
  [["packages".toList, "app".toList], ["packages".toList, "util".toList],
      ["packages".toList, "app".toList, "nested".toList]].foldl
    (fun tree directory =>
      tree.putFile ("ws".toList :: directory ++ [Manifest.fileName]) ⟨.text "\x7b\x7d".toList, true, true⟩)
    (FileTree.empty.putFile ["ws".toList, Manifest.fileName]
      ⟨.text ("\x7b\"workspaces\": [".toList ++ patterns.toList ++ "]\x7d".toList), true, true⟩)

/-- Its first pattern takes away a package, but not the one that is nested in it. -/
def wildTree : FileTree := packagesTree "\"!packages/ap?\", \"packages/*\", \"**/nested\""

/-- Its second pattern ends in a slash. -/
def slashTree : FileTree := packagesTree "\"packages/*\", \"!packages/util/\""

/-- A package is taken away, and the one that it holds is kept. -/
theorem members_excludes_iff_wildTree :
    members wildTree ⟨"/ws/packages".toList⟩ =
      .ok [⟨"/ws/packages/util".toList⟩, ⟨"/ws/packages/app/nested".toList⟩] := by
  have found : rootOf wildTree
      ⟨"/ws/packages".toList⟩ = .ok ⟨"/ws".toList⟩ := toOption_eq_some_iff.mp (by decide +kernel)
  have declared : Manifest.ofFile wildTree
      (Path.join ⟨"/ws".toList⟩ ⟨Manifest.fileName⟩) = .ok ⟨none, none,
        some (.listed ["!packages/ap?".toList, "packages/*".toList, "**/nested".toList])⟩ :=
    toOption_eq_some_iff.mp (by decide +kernel)
  have lists : membersOf wildTree ⟨"/ws".toList⟩
      ["packages/*".toList, "**/nested".toList] =
      .ok [⟨"/ws/packages/app".toList⟩, ⟨"/ws/packages/util".toList⟩, ⟨"/ws/packages/app/nested".toList⟩] :=
    toOption_eq_some_iff.mp (by decide +kernel)
  have enumerates : membersOf wildTree
      ⟨"/ws".toList⟩ ["packages/ap?".toList] = .ok [⟨"/ws/packages/app".toList⟩] :=
    toOption_eq_some_iff.mp (by decide +kernel)
  have noWildcards : ∀ letter ∈ "/ws".toList, isWild letter = false := Glob.forall_isWild_eq_false (by decide)
  exact (members_excludes_iff (by decide +kernel) (by decide +kernel) found declared noWildcards
    (by decide +kernel) (by decide +kernel) (by decide +kernel) lists enumerates (by decide +kernel)).mpr
    (by decide +kernel)

/-- A pattern with a slash at its end takes away nothing, although it lists a package. -/
theorem members_excludes_trailingSlash :
    ¬ ∀ (tree : FileTree) (start root : Path) (manifest : Manifest) (listed excluded : List Path),
      tree.WellNamed → rootOf tree start = .ok root →
      Manifest.ofFile tree (root.join ⟨Manifest.fileName⟩) = .ok manifest →
      (∀ letter ∈ root.letters, isWild letter = false) →
      membersOf tree root (positives manifest.patterns) = .ok listed →
      membersOf tree root (negatives manifest.patterns) = .ok excluded →
      members tree start = .ok (listed.filter fun member =>
        excluded.all fun other => other.normalize ≠ member.normalize) := by
  intro claim
  have found : rootOf slashTree ⟨"/ws".toList⟩ =
      .ok ⟨"/ws".toList⟩ := toOption_eq_some_iff.mp (by decide +kernel)
  have declared : Manifest.ofFile slashTree
      (Path.join ⟨"/ws".toList⟩ ⟨Manifest.fileName⟩) = .ok ⟨none, none,
        some (.listed ["packages/*".toList, "!packages/util/".toList])⟩ :=
    toOption_eq_some_iff.mp (by decide +kernel)
  have lists : membersOf slashTree ⟨"/ws".toList⟩
      ["packages/*".toList] = .ok [⟨"/ws/packages/app".toList⟩, ⟨"/ws/packages/util".toList⟩] :=
    toOption_eq_some_iff.mp (by decide +kernel)
  have enumerates : membersOf slashTree ⟨"/ws".toList⟩
      ["packages/util/".toList] = .ok [⟨"/ws/packages/util".toList⟩] :=
    toOption_eq_some_iff.mp (by decide +kernel)
  have removed := claim _ _ _ _ _ _ (by decide +kernel) found declared
    (Glob.forall_isWild_eq_false (by decide)) lists enumerates
  have kept : (members slashTree ⟨"/ws".toList⟩).toOption =
      some [⟨"/ws/packages/app".toList⟩, ⟨"/ws/packages/util".toList⟩] := by decide +kernel
  have different := (toOption_eq_some_iff.mpr removed).symm.trans kept
  revert different
  decide +kernel

end Workspace

end ImportMeter
