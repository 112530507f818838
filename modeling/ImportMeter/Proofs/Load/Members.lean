/-
This file compares the two rules by which a workspace specifier picks its member. The last piece of a
specifier occurs in it, so where the stricter rule picks a member the other one picks that member or one
that is listed before it.
-/
import Mathlib.Data.List.Infix
import ImportMeter.Proofs.Package.Root

namespace ImportMeter

namespace Text

variable {text part piece : Text} {separator : Char}

theorem contains_iff : text.contains part = true ↔ part <:+: text := by
  induction text with
  | nil =>
      rw [contains, Bool.or_false, startsWith_iff, List.infix_nil]
      constructor
      · rintro ⟨rest, whole⟩
        exact (List.append_eq_nil_iff.mp whole.symm).1
      · rintro rfl
        exact ⟨[], rfl⟩
  | cons letter rest inductionHypothesis =>
      have begins : startsWith (letter :: rest) part = true ↔ part <+: letter :: rest :=
        startsWith_iff.trans (exists_congr fun _ => eq_comm)
      rw [contains, Bool.or_eq_true, begins, List.infix_cons_iff]
      exact or_congr_right inductionHypothesis

theorem lastPiece_of_notMem (free : separator ∉ piece) : piece.lastPiece separator = piece := by
  have all : ∀ letter ∈ piece.reverse, decide (letter ≠ separator) = true :=
    fun letter member => decide_eq_true fun same => free (same ▸ List.mem_reverse.mp member)
  rw [lastPiece, List.takeWhile_eq_self_iff.mpr all, List.reverse_reverse]

theorem lastPiece_append (front : Text) (free : separator ∉ piece) :
    lastPiece (front ++ separator :: piece) separator = piece := by
  have all : ∀ letter ∈ piece.reverse, decide (letter ≠ separator) = true :=
    fun letter member => decide_eq_true fun same => free (same ▸ List.mem_reverse.mp member)
  rw [lastPiece, List.reverse_append, List.reverse_cons, List.append_assoc,
    List.takeWhile_append_of_pos all, List.singleton_append, List.takeWhile_cons_of_neg (by simp),
    List.append_nil, List.reverse_reverse]

/-- The last piece is what is free of the separator and stands behind one or at the start. -/
theorem lastPiece_eq_iff : text.lastPiece separator = piece ↔
    separator ∉ piece ∧ (text = piece ∨ separator :: piece <:+ text) := by
  constructor
  · rintro rfl
    by_cases member : separator ∈ text
    · obtain ⟨behind, front, split, free⟩ := List.eq_append_cons_of_mem (List.mem_reverse.mpr member)
      have whole : text = front.reverse ++ separator :: behind.reverse := by
        rw [← List.reverse_reverse text, split]
        simp
      have isFree : separator ∉ behind.reverse := fun member => free (List.mem_reverse.mp member)
      rw [whole, lastPiece_append _ isFree]
      exact ⟨isFree, .inr (List.suffix_append _ _)⟩
    · rw [lastPiece_of_notMem member]
      exact ⟨member, .inl rfl⟩
  · rintro ⟨free, rfl | ⟨front, rfl⟩⟩
    · exact lastPiece_of_notMem free
    · exact lastPiece_append front free

end Text

namespace Path

variable {path : Path} {name : Text}

/-- True for the name that a path ends in: what stands between the slashes at its end and the last slash
before. A path of slashes alone ends in the empty name. -/
def EndsIn (path : Path) (name : Text) : Prop :=
  ∃ front slashes, path.letters = front ++ name ++ slashes ∧ '/' ∉ name ∧
    (front = [] ∨ front.getLast? = some '/') ∧ (∀ letter ∈ slashes, letter = '/') ∧
    (name = [] → front = [])

/-- Slashes at the end do not matter to the last segment. -/
theorem lastSegment_eq {trimmed slashes : Text} (clean : trimmed.getLast? ≠ some '/')
    (areSlashes : ∀ letter ∈ slashes, letter = '/') :
    lastSegment ⟨trimmed ++ slashes⟩ = trimmed.lastPiece '/' := by
  have dropped : ∀ letter ∈ slashes.reverse, decide (letter = '/') = true :=
    fun letter member => decide_eq_true (areSlashes letter (List.mem_reverse.mp member))
  have kept : trimmed.reverse.dropWhile (· = '/') = trimmed.reverse := by
    rw [List.getLast?_eq_head?_reverse] at clean
    cases reversed : trimmed.reverse with
    | nil => rfl
    | cons last others =>
        rw [reversed, List.head?_cons] at clean
        exact List.dropWhile_cons_of_neg fun isSlash => clean (congrArg some (of_decide_eq_true isSlash))
  rw [lastSegment, List.reverse_append, List.dropWhile_append_of_pos dropped, kept]
  rfl

/-- Every path is one that does not end in a slash and slashes behind it. -/
theorem exists_trimmed (path : Path) : ∃ trimmed slashes, path.letters = trimmed ++ slashes ∧
    trimmed.getLast? ≠ some '/' ∧ ∀ letter ∈ slashes, letter = '/' := by
  refine ⟨(path.letters.reverse.dropWhile (· = '/')).reverse,
    (path.letters.reverse.takeWhile (· = '/')).reverse, ?_, fun ends => ?_, fun letter member => ?_⟩
  · rw [← List.reverse_append, List.takeWhile_append_dropWhile, List.reverse_reverse]
  · rw [List.getLast?_reverse] at ends
    have notSlash := List.head?_dropWhile_not (· = '/') path.letters.reverse
    rw [ends] at notSlash
    cases notSlash
  · have isSlash := List.mem_takeWhile_imp (List.mem_reverse.mp member)
    exact of_decide_eq_true isSlash

/-- The last segment is the name that a path ends in. -/
theorem endsIn_iff : path.EndsIn name ↔ path.lastSegment = name := by
  constructor
  · rintro ⟨front, slashes, letters, free, begins, areSlashes, empty⟩
    have clean : (front ++ name).getLast? ≠ some '/' := by
      intro ends
      by_cases isEmpty : name = []
      · rw [isEmpty, empty isEmpty] at ends
        cases ends
      · rw [List.getLast?_append_of_ne_nil _ isEmpty] at ends
        exact free (List.mem_of_getLast? ends)
    obtain rfl : path = ⟨front ++ name ++ slashes⟩ := congrArg Path.mk letters
    rw [lastSegment_eq clean areSlashes, Text.lastPiece_eq_iff]
    refine ⟨free, begins.imp ?_ fun ends => ?_⟩
    · rintro rfl
      rfl
    · obtain ⟨others, rfl⟩ := List.getLast?_eq_some_iff.mp ends
      exact ⟨others, by rw [List.append_assoc, List.singleton_append]⟩
  · rintro rfl
    obtain ⟨trimmed, slashes, letters, clean, areSlashes⟩ := path.exists_trimmed
    obtain rfl : path = ⟨trimmed ++ slashes⟩ := congrArg Path.mk letters
    rw [lastSegment_eq clean areSlashes]
    obtain ⟨free, whole | ⟨front, behind⟩⟩ := Text.lastPiece_eq_iff.mp (Eq.refl (trimmed.lastPiece '/'))
    · exact ⟨[], slashes, by rw [List.nil_append, ← whole], free, .inl rfl, areSlashes, fun _ => rfl⟩
    · refine ⟨front ++ ['/'], slashes, ?_, free, .inr List.getLast?_concat, areSlashes, fun isEmpty => ?_⟩
      · rw [List.append_assoc front, List.singleton_append, behind]
      · rw [isEmpty] at behind
        exact absurd (behind ▸ List.getLast?_concat) clean

end Path

namespace MemberMatch

variable {rule : MemberMatch} {specifier : Text} {member : Path}

/-- True for the members that a specifier names by a rule. -/
def Picks (rule : MemberMatch) (specifier : Text) (member : Path) : Prop :=
  ∃ name, member.EndsIn name ∧ match rule with
    | .substring => name <:+: specifier
    | .exact => specifier = name ∨ '/' :: name <:+ specifier

theorem accepts_iff : rule.accepts specifier member = true ↔ rule.Picks specifier member := by
  cases rule with
  | substring =>
      rw [accepts, Text.contains_iff]
      exact ⟨fun occurs => ⟨_, Path.endsIn_iff.mpr rfl, occurs⟩,
        fun ⟨name, ends, occurs⟩ => Path.endsIn_iff.mp ends ▸ occurs⟩
  | exact =>
      rw [accepts, decide_eq_true_eq, Text.lastPiece_eq_iff]
      constructor
      · rintro ⟨-, isLast⟩
        exact ⟨_, Path.endsIn_iff.mpr rfl, isLast⟩
      · rintro ⟨name, ends, isLast⟩
        rw [Path.endsIn_iff.mp ends]
        obtain ⟨_, _, _, free, _⟩ := ends
        exact ⟨free, isLast⟩

/-- What is the last piece of a specifier occurs in it. -/
theorem Picks.substring (picked : exact.Picks specifier member) : substring.Picks specifier member := by
  obtain ⟨name, ends, rfl | isLast⟩ := picked
  · exact ⟨_, ends, List.infix_refl _⟩
  · exact ⟨name, ends, (List.suffix_cons _ _).isInfix.trans isLast.isInfix⟩

end MemberMatch

/-- True for the first of some members that passes a test, and for its position. -/
structure IsFirst (passes : Path → Prop) (members : List Path) (position : Nat) (member : Path) :
    Prop where
  found : members[position]? = some member
  accepted : passes member
  before : ∀ earlier < position, ∀ other, members[earlier]? = some other → ¬passes other

namespace IsFirst

variable {passes weaker : Path → Prop} {members : List Path} {position : Nat} {member : Path}

theorem find?_eq_some_iff {test : Path → Bool}
    (decides : ∀ member, test member = true ↔ passes member) :
    members.find? test = some member ↔ ∃ position, IsFirst passes members position member := by
  rw [List.find?_eq_some_iff_getElem]
  constructor
  · rintro ⟨accepted, position, inside, rfl, before⟩
    refine ⟨position, List.getElem?_eq_getElem inside, (decides _).mp accepted,
      fun earlier isEarlier other found passed => ?_⟩
    have refused := before earlier isEarlier
    rw [List.getElem?_eq_getElem (Nat.lt_trans isEarlier inside), Option.some.injEq] at found
    rw [found, (decides other).mpr passed] at refused
    cases refused
  · rintro ⟨position, found, accepted, before⟩
    obtain ⟨inside, same⟩ := List.getElem?_eq_some_iff.mp found
    refine ⟨(decides member).mpr accepted, position, inside, same, fun earlier isEarlier => ?_⟩
    have refused := before earlier isEarlier _ (List.getElem?_eq_getElem (Nat.lt_trans isEarlier inside))
    rw [← decides, Bool.not_eq_true] at refused
    rw [refused]
    rfl

/-- The first member that passes a weaker test does not come later. -/
theorem weaken (first : IsFirst passes members position member)
    (implies : ∀ member, passes member → weaker member) :
    ∃ earlier other, IsFirst weaker members earlier other ∧ earlier ≤ position := by
  classical
  have isMember : member ∈ members := List.mem_of_getElem? first.found
  have isFound : (members.find? fun other => decide (weaker other)).isSome = true :=
    List.find?_isSome.mpr ⟨member, isMember, decide_eq_true (implies member first.accepted)⟩
  obtain ⟨other, found⟩ := Option.isSome_iff_exists.mp isFound
  obtain ⟨earlier, firstOther⟩ := (find?_eq_some_iff fun _ => decide_eq_true_iff).mp found
  refine ⟨earlier, other, firstOther, Nat.not_lt.mp fun later => ?_⟩
  exact firstOther.before position later member first.found (implies member first.accepted)

end IsFirst

namespace Resolver

variable {σ : Type} (resolver : Resolver σ) {specifier : Text}

/-- A workspace specifier leads to the first listed member that it names. -/
theorem resolve_eq_ok_iff (isWorkspace : resolver.classify specifier = .workspace) {importer : Text}
    {target : Target} :
    resolver.resolve specifier importer = .ok target ↔
      ∃ directory members position member,
        Specifier.importerDirectory? importer = some directory ∧
        resolver.packages.members directory = .ok members ∧
        IsFirst (resolver.matching.Picks specifier) members position member ∧
        target = .path member := by
  cases imports : Specifier.importerDirectory? importer with
  | none =>
      rw [resolve, isWorkspace, resolveMember, imports]
      constructor
      · intro leads
        cases leads
      · rintro ⟨_, _, _, _, same, -⟩
        cases same
  | some directory =>
      rw [resolver.resolve_workspace isWorkspace imports]
      constructor
      · intro leads
        cases listed : resolver.packages.members directory with
        | error cause =>
            rw [listed] at leads
            cases leads
        | ok members =>
            rw [listed, leadAmong] at leads
            split at leads
            next member found =>
              cases leads
              obtain ⟨position, first⟩ :=
                (IsFirst.find?_eq_some_iff fun _ => MemberMatch.accepts_iff).mp found
              exact ⟨directory, members, position, member, rfl, listed, first, rfl⟩
            next => cases leads
      · rintro ⟨other, members, position, member, same, listed, first, rfl⟩
        obtain rfl := Option.some.inj same
        have found := (IsFirst.find?_eq_some_iff fun _ => MemberMatch.accepts_iff).mpr ⟨position, first⟩
        rw [listed, leadAmong, found]

/-- Why a workspace specifier leads nowhere, and the error behind it if there is one. -/
inductive Unresolved (resolver : Resolver σ) (specifier importer : Text) : Option Error → Prop where
  | noDirectory (imports : Specifier.importerDirectory? importer = none) :
      Unresolved resolver specifier importer none
  | notListed {directory : Path} {cause : Error}
      (imports : Specifier.importerDirectory? importer = some directory)
      (failed : resolver.packages.members directory = .error cause) :
      Unresolved resolver specifier importer (some cause)
  | notNamed {directory : Path} {members : List Path}
      (imports : Specifier.importerDirectory? importer = some directory)
      (listed : resolver.packages.members directory = .ok members)
      (passedOver : ∀ member ∈ members, ¬resolver.matching.Picks specifier member) :
      Unresolved resolver specifier importer none

/-- All errors about a workspace specifier name it and hold the error of the listing. -/
theorem resolve_eq_error_iff (isWorkspace : resolver.classify specifier = .workspace) {importer : Text}
    {error : Error} :
    resolver.resolve specifier importer = .error error ↔
      ∃ cause, error = .noMember specifier cause ∧ resolver.Unresolved specifier importer cause := by
  cases imports : Specifier.importerDirectory? importer with
  | none =>
      rw [resolve, isWorkspace, resolveMember, imports]
      constructor
      · rintro ⟨⟩
        exact ⟨none, rfl, .noDirectory imports⟩
      · rintro ⟨cause, rfl, isCause⟩
        cases isCause with
        | noDirectory => rfl
        | notListed isDirectory => cases imports.symm.trans isDirectory
        | notNamed isDirectory => cases imports.symm.trans isDirectory
  | some directory =>
      rw [resolver.resolve_workspace isWorkspace imports]
      constructor
      · intro leads
        cases listed : resolver.packages.members directory with
        | error cause =>
            rw [listed] at leads
            cases leads
            exact ⟨some cause, rfl, .notListed imports listed⟩
        | ok members =>
            rw [listed, leadAmong] at leads
            split at leads
            next => cases leads
            next nothing =>
              cases leads
              refine ⟨none, rfl, .notNamed imports listed fun member isMember picked => ?_⟩
              exact List.find?_eq_none.mp nothing member isMember (MemberMatch.accepts_iff.mpr picked)
      · rintro ⟨cause, rfl, isCause⟩
        cases isCause with
        | noDirectory isDirectory => cases imports.symm.trans isDirectory
        | notListed isDirectory failed =>
            obtain rfl := Option.some.inj (imports.symm.trans isDirectory)
            rw [failed, leadAmong]
        | notNamed isDirectory listed passedOver =>
            obtain rfl := Option.some.inj (imports.symm.trans isDirectory)
            have nothing := List.find?_eq_none.mpr fun member isMember accepted =>
              passedOver member isMember (MemberMatch.accepts_iff.mp accepted)
            rw [listed, leadAmong, nothing]

/-- A workspace specifier leads to the first listed member that it names, and otherwise fails with an error
that shows it as it was written. Where the rule that asks for the last piece finds a member, the rule that
asks for an occurrence finds that member or one that is listed before it. -/
theorem resolve_members (isWorkspace : resolver.classify specifier = .workspace) (importer : Text) :
    (∀ target, resolver.resolve specifier importer = .ok target ↔
      ∃ directory members position member,
        Specifier.importerDirectory? importer = some directory ∧
        resolver.packages.members directory = .ok members ∧
        IsFirst (resolver.matching.Picks specifier) members position member ∧
        target = .path member) ∧
    (∀ error, resolver.resolve specifier importer = .error error ↔
      ∃ cause, error = .noMember specifier cause ∧ resolver.Unresolved specifier importer cause) ∧
    (∀ cause, (Error.noMember specifier cause).message =
      "Could not find workspace member for ".toList ++ specifier) ∧
    ∀ target, { resolver with matching := .exact }.resolve specifier importer = .ok target →
      ∃ directory members position member earlier other,
        Specifier.importerDirectory? importer = some directory ∧
        resolver.packages.members directory = .ok members ∧
        IsFirst (MemberMatch.exact.Picks specifier) members position member ∧
        target = .path member ∧
        IsFirst (MemberMatch.substring.Picks specifier) members earlier other ∧
        { resolver with matching := .substring }.resolve specifier importer = .ok (.path other) ∧
        earlier ≤ position := by
  refine ⟨fun target => resolver.resolve_eq_ok_iff isWorkspace,
    fun error => resolver.resolve_eq_error_iff isWorkspace, fun _ => rfl, fun target resolved => ?_⟩
  obtain ⟨directory, members, position, member, imports, listed, first, isTarget⟩ :=
    (resolve_eq_ok_iff { resolver with matching := .exact } isWorkspace).mp resolved
  obtain ⟨earlier, other, firstOther, order⟩ := first.weaken fun _ => MemberMatch.Picks.substring
  have leads : { resolver with matching := .substring }.resolve specifier importer = .ok (.path other) :=
    (resolve_eq_ok_iff { resolver with matching := .substring } isWorkspace).mpr
      ⟨directory, members, earlier, other, imports, listed, firstOther, rfl⟩
  exact ⟨directory, members, position, member, earlier, other, imports, listed, first, isTarget,
    firstOther, leads, order⟩

/-- A resolver for two members; the name of one begins like the name of the other. -/
def overlapping : Resolver Unit where
  scope := "@s/".toList
  matching := .exact
  packages := .fixed (some [⟨"/w/ui".toList⟩, ⟨"/w/ui-kit//".toList⟩]) none
  loader := .ofTable []
  timer := 0

/-- The specifier of the second member names both members, and only that one by its last piece. -/
theorem resolve_members_overlappingNames :
    overlapping.resolve "@s/ui-kit".toList "/w/a.js".toList = .ok (.path ⟨"/w/ui-kit//".toList⟩) ∧
      { overlapping with matching := .substring }.resolve "@s/ui-kit".toList "/w/a.js".toList =
        .ok (.path ⟨"/w/ui".toList⟩) := by
  have isWorkspace : overlapping.classify "@s/ui-kit".toList = .workspace := by decide +kernel
  obtain ⟨leads, -, -, weaken⟩ := overlapping.resolve_members isWorkspace "/w/a.js".toList
  have imports : Specifier.importerDirectory? "/w/a.js".toList = some ⟨"/w".toList⟩ := by decide +kernel
  have found : [Path.mk "/w/ui".toList, ⟨"/w/ui-kit//".toList⟩].find?
      (MemberMatch.exact.accepts "@s/ui-kit".toList) = some ⟨"/w/ui-kit//".toList⟩ := by decide +kernel
  have occurs : [Path.mk "/w/ui".toList, ⟨"/w/ui-kit//".toList⟩].find?
      (MemberMatch.substring.accepts "@s/ui-kit".toList) = some ⟨"/w/ui".toList⟩ := by decide +kernel
  obtain ⟨position, first⟩ := (IsFirst.find?_eq_some_iff fun _ => MemberMatch.accepts_iff).mp found
  have resolved := (leads _).mpr ⟨_, _, position, _, imports, rfl, first, rfl⟩
  obtain ⟨_, members, _, _, earlier, other, _, listed, _, _, firstOther, leadsToOther, _⟩ :=
    weaken _ resolved
  obtain rfl := Except.ok.inj listed
  have same := (IsFirst.find?_eq_some_iff fun _ => MemberMatch.accepts_iff).mpr ⟨earlier, firstOther⟩
  obtain rfl := Option.some.inj (occurs.symm.trans same)
  exact ⟨resolved, leadsToOther⟩

end Resolver

end ImportMeter
