/-
This file proves what the listing of a glob pattern is made of.
-/
import Mathlib.Data.List.Basic
import ImportMeter.Glob.Expand
import ImportMeter.Proofs.Attempt
import ImportMeter.Proofs.Path

namespace ImportMeter.Glob

variable {tree : FileTree} {pattern : Pattern} {patterns rest : List Pattern} {path : Path}
  {name : Text} {fuel : Nat}

/-- True if a piece without wildcards leads on from a path. -/
def leadsOn (tree : FileTree) (path : Path) (name : Text) : Bool :=
  if name = ['.'] || name = ['.', '.'] then tree.isDirectory path
  else tree.existsUnfollowed (path.join ⟨name⟩)

/-- The entries for a directory itself and for the one above it, as far as a piece stands for them. -/
def dotsOf (pattern : Pattern) : List Text :=
  (if pattern.head? = some (.letter '.') then [['.', '.'], ['.']] else []).filter (matchesText pattern)

theorem within_literal (isLiteral : literal? pattern = some name) :
    within tree (fuel + 1) (pattern :: rest) path =
      if leadsOn tree path name then arrive tree fuel rest (path.join ⟨name⟩) else [] := by
  rw [within, isLiteral]
  rfl

theorem within_wildcard (isWildcard : literal? pattern = none) :
    within tree (fuel + 1) (pattern :: rest) path =
      match tree.entries? path with
      | none => []
      | some entries =>
        (dotsOf pattern).flatMap (fun name => arrive tree fuel rest (path.join ⟨name⟩)) ++
          entries.flatMap fun entry => visit tree fuel (pattern :: rest) (path.join ⟨entry.1⟩) := by
  rw [within, isWildcard]
  rfl

/-- What is found was reached by going down from where the listing began. So what going down keeps
holds of all that is found. -/
theorem forall_mem_within {holds : Path → Prop}
    (down : ∀ path name, holds path → holds (path.join ⟨name⟩)) (fuel : Nat)
    (patterns : List Pattern) (path : Path) (start : holds path) :
    (∀ found ∈ within tree fuel patterns path, holds found) ∧
      (∀ found ∈ arrive tree fuel patterns path, holds found) ∧
      (∀ found ∈ visit tree fuel patterns path, holds found) ∧
      ∀ found ∈ matchName tree fuel patterns path, holds found := by
  induction fuel generalizing patterns path with
  | zero => exact ⟨nofun, nofun, nofun, nofun⟩
  | succ fuel inductionHypothesis =>
      refine ⟨fun found member => ?_, fun found member => ?_, fun found member => ?_,
        fun found member => ?_⟩
      · cases patterns with
        | nil => cases member
        | cons pattern rest =>
            cases literal : literal? pattern with
            | some name =>
                rw [within_literal literal] at member
                split at member
                · exact (inductionHypothesis rest _ (down path name start)).2.1 found member
                · cases member
            | none =>
                rw [within_wildcard literal] at member
                split at member
                · cases member
                next entries _ =>
                  rcases List.mem_append.mp member with isDots | isEntry
                  · obtain ⟨name, _, member⟩ := List.mem_flatMap.mp isDots
                    exact (inductionHypothesis rest _ (down path name start)).2.1 found member
                  · obtain ⟨entry, _, member⟩ := List.mem_flatMap.mp isEntry
                    exact (inductionHypothesis _ _ (down path entry.1 start)).2.2.1 found member
      · cases patterns with
        | nil => exact List.mem_singleton.mp member ▸ start
        | cons pattern rest => exact (inductionHypothesis _ path start).1 found member
      · rw [visit] at member
        split at member
        · cases member
        next pattern rest _ =>
          split at member
          next =>
            split at member
            next =>
              rcases List.mem_append.mp member with isHere | isBelow
              · split at isHere
                · exact List.mem_singleton.mp isHere ▸ start
                · exact (inductionHypothesis rest path start).2.2.2 found isHere
              · exact (inductionHypothesis _ path start).1 found isBelow
            next => exact (inductionHypothesis rest path start).2.2.2 found member
          next => exact (inductionHypothesis _ path start).2.2.2 found member
      · cases patterns with
        | nil => cases member
        | cons pattern rest =>
            rw [matchName] at member
            split at member
            · cases member
            next =>
              split at member
              · split at member
                · exact List.mem_singleton.mp member ▸ start
                · exact (inductionHypothesis rest path start).1 found member
              · cases member

/-- What a glob pattern finds are absolute paths. -/
theorem isAbsolute_of_mem_expand {text : Text} {files : List Path} {file : Path}
    (expanded : expand tree text = .ok files) (member : file ∈ files) : file.isAbsolute = true := by
  obtain ⟨_, _, others⟩ := bind_eq_ok_iff.mp expanded
  obtain ⟨patterns, _, found⟩ := bind_eq_ok_iff.mp others
  cases found
  have down : ∀ (path : Path) (name : Text), path.isAbsolute = true → (path.join ⟨name⟩).isAbsolute = true :=
    fun _ _ => Path.isAbsolute_join _
  exact (forall_mem_within down _ patterns ⟨['/']⟩ rfl).1 file member

end ImportMeter.Glob
