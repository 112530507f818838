/-
This file says how the path of a place below a directory is written and read: behind the pieces of the
directory stand the names that lead to the place.
-/
import Mathlib.Data.List.Infix
import ImportMeter.Glob.Expand
import ImportMeter.Proofs.Path.Parent

namespace ImportMeter

open Glob (piecesOf)

theorem Glob.piecesOf_concat (letters : Text) : piecesOf (letters ++ ['/']) = Text.splitOn '/' letters := by
  rw [piecesOf, Text.splitOn_append, Text.splitOn, List.reverse_append, List.reverse_singleton,
    List.singleton_append]
  exact List.reverse_reverse _

/-- Only a slash at the end has no piece behind it. -/
theorem Glob.piecesOf_of_getLast? {letters : Text} (filled : letters ≠ [])
    (notSlash : letters.getLast? ≠ some '/') : piecesOf letters = Text.splitOn '/' letters := by
  rw [piecesOf]
  split
  next others reversed =>
    -- An empty last piece is all there is, or stands behind a slash.
    have whole := Text.joinWith_splitOn '/' letters
    rw [List.reverse_eq_cons_iff.mp reversed] at whole
    by_cases single : others.reverse = []
    · rw [single] at whole
      exact absurd whole.symm filled
    · rw [Text.joinWith_append ['/'] single (List.cons_ne_nil _ _)] at whole
      exact absurd (by rw [← whole]; simp [Text.joinWith]) notSlash
  next => exact List.reverse_reverse _

namespace Path

variable {path : Path} {name word : Text} {names : List Text}

/-- The path of a place below a directory, to which the names lead one after the other. -/
def below (directory : Path) (names : List Text) : Path :=
  names.foldl (fun path name => path.join ⟨name⟩) directory

theorem below_nil (directory : Path) : directory.below [] = directory := rfl

theorem below_cons (directory : Path) (name : Text) (names : List Text) :
    directory.below (name :: names) = (directory.join ⟨name⟩).below names := rfl

theorem below_concat (directory : Path) (names : List Text) (name : Text) :
    directory.below (names ++ [name]) = (directory.below names).join ⟨name⟩ := by
  rw [below, List.foldl_append]
  rfl

/-- A name that is seen from a path becomes the last piece. -/
theorem splitOn_join (slashless : '/' ∉ name) :
    Text.splitOn '/' (path.join ⟨name⟩).letters = piecesOf path.letters ++ [name] := by
  have single := Text.splitOn_of_notMem slashless
  rw [join, isAbsolute_of_slashless slashless, if_neg Bool.false_ne_true]
  by_cases empty : path.letters = []
  · rw [if_pos (by simp [empty]), empty]
    exact single
  by_cases slash : path.letters.getLast? = some '/'
  · obtain ⟨front, ends⟩ := List.getLast?_eq_some_iff.mp slash
    rw [if_pos (by simp [slash]), ends, Glob.piecesOf_concat, List.append_assoc, List.singleton_append,
      Text.splitOn_append, single]
  · rw [if_neg (by simp [empty, slash]), Text.splitOn_append, single, Glob.piecesOf_of_getLast? empty slash]

theorem piecesOf_join (isName : IsEntryName name) :
    piecesOf (path.join ⟨name⟩).letters = piecesOf path.letters ++ [name] := by
  rw [piecesOf, splitOn_join isName.slashless, List.reverse_append, List.reverse_singleton,
    List.singleton_append]
  split
  next _ _ same => exact absurd (List.cons.inj same).1 isName.filled
  next => rw [List.reverse_cons, List.reverse_reverse]

theorem piecesOf_below (areNames : AreEntryNames names) :
    piecesOf (path.below names).letters = piecesOf path.letters ++ names := by
  induction names generalizing path with
  | nil => rw [below_nil, List.append_nil]
  | cons name names inductionHypothesis =>
      obtain ⟨isName, areNames⟩ := List.forall_mem_cons.mp areNames
      rw [below_cons, inductionHypothesis areNames, piecesOf_join isName, List.append_assoc,
        List.singleton_append]

/-- Different names lead to different paths. -/
theorem below_injective {others : List Text} (areNames : AreEntryNames names) (areOthers : AreEntryNames others)
    (same : path.below names = path.below others) : names = others := by
  have samePieces := congrArg (fun path => piecesOf path.letters) same
  rw [piecesOf_below areNames, piecesOf_below areOthers] at samePieces
  exact List.append_cancel_left samePieces

/-- Only an empty piece may be lost. -/
theorem mem_piecesOf_iff {letters : Text} (filled : word ≠ []) :
    word ∈ piecesOf letters ↔ word ∈ Text.splitOn '/' letters := by
  rw [piecesOf]
  split
  next others reversed => simp [List.reverse_eq_cons_iff.mp reversed, filled]
  next => rw [List.reverse_reverse]

theorem splitOn_of_isAbsolute (absolute : path.isAbsolute = true) :
    ∃ rest, Text.splitOn '/' path.letters = [] :: rest := by
  obtain ⟨letters, same⟩ := isAbsolute_iff.mp absolute
  exact ⟨Text.splitOn '/' letters, by rw [same, Text.splitOn, if_pos rfl]⟩

/-- A component that is a name is a piece. -/
theorem normal_mem_components_iff (isName : IsEntryName word) :
    .normal word ∈ path.components ↔ word ∈ piecesOf path.letters := by
  rw [mem_piecesOf_iff isName.filled, components]
  have own : ∀ piece : Text, componentOf? piece = some (.normal word) ↔ piece = word := by
    intro piece
    refine ⟨fun found => (componentOf?_letters found).symm, ?_⟩
    rintro rfl
    exact isName.componentOf?
  cases pieces : Text.splitOn '/' path.letters with
  | nil => simp
  | cons first rest =>
      have inRest : .normal word ∈ rest.filterMap componentOf? ↔ word ∈ rest := by
        simp [List.mem_filterMap, own]
      dsimp only
      rw [List.mem_append, List.mem_cons, inRest]
      refine or_congr_left ?_
      split
      next absolute =>
        obtain ⟨behind, split⟩ := splitOn_of_isAbsolute absolute
        obtain rfl := (List.cons.inj (pieces.symm.trans split)).1
        simp [isName.filled]
      next =>
        split
        next isDot => simp [isDot, isName.notDot]
        next => simp [Option.mem_toList, own, eq_comm]

/-- The last name that leads to a place is that of its path. -/
theorem fileName?_join (isName : IsEntryName name) : (path.join ⟨name⟩).fileName? = some name := by
  rw [fileName?, components, splitOn_join isName.slashless]
  cases pieces : piecesOf path.letters with
  | nil =>
      have relative : (path.join ⟨name⟩).isAbsolute = false := by
        refine eq_false_of_ne_true fun absolute => ?_
        obtain ⟨rest, split⟩ := splitOn_of_isAbsolute absolute
        rw [splitOn_join isName.slashless, pieces] at split
        exact isName.filled (List.cons.inj split).1
      simp [relative, isName.notDot, isName.componentOf?]
  | cons first rest =>
      simp only [List.cons_append, List.filterMap_append, List.filterMap_cons_some isName.componentOf?,
        List.filterMap_nil, ← List.append_assoc, List.getLast?_concat]

end Path

end ImportMeter
