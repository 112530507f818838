/-
This file applies edits to a text. Edits are given by positions in the text as it was before any of
them, and where two overlap the one that starts first is applied.
-/
import ImportMeter.Script.Place

namespace ImportMeter

open Script (Range)

/-- Puts a text in the place of a range. -/
structure Edit where
  range : Range
  text : Text

namespace Edit

def insert (position : Nat) (text : Text) : Edit := ⟨⟨position, position⟩, text⟩

/-- The order in which edits are applied. -/
def before (first second : Edit) : Bool :=
  first.range.start < second.range.start ||
    (first.range.start = second.range.start && first.range.stop ≤ second.range.stop)

/-- Puts an edit into sorted edits, in front of those that do not come before it. -/
def insertSorted (edit : Edit) : List Edit → List Edit
  | [] => [edit]
  | head :: rest =>
    if edit.before head then edit :: head :: rest else head :: insertSorted edit rest

/-- Edits in the order in which they are applied; equal ranges stay in their order. -/
def sorted (edits : List Edit) : List Edit := edits.foldr insertSorted []

/-- The source from a cursor up to `stop` with sorted edits applied; an edit that starts before the
cursor is left out. -/
def applySorted (source : Text) (stop cursor : Nat) : List Edit → Text
  | [] => source.slice cursor stop
  | edit :: edits =>
    if edit.range.start < cursor then applySorted source stop cursor edits
    else
      source.slice cursor edit.range.start ++ edit.text ++
        applySorted source stop edit.range.stop edits

/-- The part of the source in a range, with the edits that lie in the range applied. -/
def splice (source : Text) (range : Range) (edits : List Edit) : Text :=
  applySorted source range.stop range.start
    (sorted (edits.filter fun edit => range.contains edit.range))

/-- The whole source with edits applied. -/
def applyAll (source : Text) (edits : List Edit) : Text :=
  splice source ⟨0, source.length⟩ edits

end Edit

end ImportMeter
