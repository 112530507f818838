/-
This file applies edits that are given by offsets in bytes. No slice between edits of a source fails, and
what comes of them is what comes of the same edits by characters.
-/
import ImportMeter.Proofs.Edit
import ImportMeter.Proofs.Script.Slicing

namespace ImportMeter

open Script (Range)

/-- True for a range of a text. -/
structure Script.Range.LiesIn (source : Text) (range : Range) : Prop where
  proper : range.start ≤ range.stop
  inside : range.stop ≤ source.length

namespace Edit

/-- The same edit with its range in bytes. -/
def inBytes (source : Text) (edit : Edit) : Edit := ⟨edit.range.inBytes source, edit.text⟩

/-- Applies sorted edits from a cursor up to `stop`, all in bytes. -/
def applySortedIn? (source : Text) (stop cursor : Nat) : List Edit → Option Text
  | [] => source.sliceAt? cursor stop
  | edit :: edits =>
    if edit.range.start < cursor then applySortedIn? source stop cursor edits
    else do
      let front ← source.sliceAt? cursor edit.range.start
      let behind ← applySortedIn? source stop edit.range.stop edits
      some (front ++ edit.text ++ behind)

/-- The part of the source in a range, with the edits that lie in the range applied, all in bytes. -/
def spliceIn? (source : Text) (range : Range) (edits : List Edit) : Option Text :=
  applySortedIn? source range.stop range.start
    (sorted (edits.filter fun edit => range.contains edit.range))

/-- The whole source with edits in bytes applied. -/
def applyAllIn? (source : Text) (edits : List Edit) : Option Text :=
  spliceIn? source ⟨0, source.utf8Length⟩ edits

variable {source : Text} {edits : List Edit} {range : Range}

theorem contains_inBytes {outer inner : Range} (ofOuter : outer.LiesIn source)
    (ofInner : inner.LiesIn source) :
    (outer.inBytes source).contains (inner.inBytes source) = outer.contains inner := by
  have start : source.offsetOf outer.start ≤ source.offsetOf inner.start ↔ outer.start ≤ inner.start :=
    Text.offsetOf_le_iff (Nat.le_trans ofOuter.proper ofOuter.inside)
  have stop : source.offsetOf inner.stop ≤ source.offsetOf outer.stop ↔ inner.stop ≤ outer.stop :=
    Text.offsetOf_le_iff ofInner.inside
  rw [Bool.eq_iff_iff, Range.contains_iff, Range.contains_iff]
  exact and_congr start stop

theorem before_inBytes {first second : Edit} (ofFirst : first.range.LiesIn source)
    (ofSecond : second.range.LiesIn source) :
    (first.inBytes source).before (second.inBytes source) = first.before second := by
  have below : source.offsetOf first.range.start < source.offsetOf second.range.start ↔
      first.range.start < second.range.start :=
    Text.offsetOf_lt_iff (Nat.le_trans ofSecond.proper ofSecond.inside)
  have above : source.offsetOf second.range.start < source.offsetOf first.range.start ↔
      second.range.start < first.range.start :=
    Text.offsetOf_lt_iff (Nat.le_trans ofFirst.proper ofFirst.inside)
  have stop : source.offsetOf first.range.stop ≤ source.offsetOf second.range.stop ↔
      first.range.stop ≤ second.range.stop := Text.offsetOf_le_iff ofFirst.inside
  have same : source.offsetOf first.range.start = source.offsetOf second.range.start ↔
      first.range.start = second.range.start := by omega
  rw [Bool.eq_iff_iff, before, before]
  simp only [inBytes, Range.inBytes, Bool.or_eq_true, Bool.and_eq_true, decide_eq_true_eq, below, same,
    stop]

theorem insertSorted_inBytes {edit : Edit} (ofEdit : edit.range.LiesIn source)
    (ofEdits : ∀ other ∈ edits, other.range.LiesIn source) :
    insertSorted (edit.inBytes source) (edits.map (inBytes source)) =
      (insertSorted edit edits).map (inBytes source) := by
  induction edits with
  | nil => rfl
  | cons head edits inductionHypothesis =>
      obtain ⟨ofHead, ofRest⟩ := List.forall_mem_cons.mp ofEdits
      rw [List.map_cons, insertSorted, insertSorted, before_inBytes ofEdit ofHead]
      split
      next => rfl
      next => rw [List.map_cons, inductionHypothesis ofRest]

theorem mem_insertSorted {edit other : Edit} :
    other ∈ insertSorted edit edits ↔ other = edit ∨ other ∈ edits := by
  induction edits with
  | nil => rw [insertSorted, List.mem_singleton, or_iff_left List.not_mem_nil]
  | cons head edits inductionHypothesis =>
      rw [insertSorted]
      split
      next => exact List.mem_cons
      next => rw [List.mem_cons, inductionHypothesis, List.mem_cons, or_left_comm]

theorem mem_sorted {edit : Edit} : edit ∈ sorted edits ↔ edit ∈ edits := by
  induction edits with
  | nil => exact Iff.rfl
  | cons head edits inductionHypothesis =>
      rw [show sorted (head :: edits) = insertSorted head (sorted edits) from rfl, mem_insertSorted,
        inductionHypothesis, List.mem_cons]

theorem sorted_inBytes (ofEdits : ∀ edit ∈ edits, edit.range.LiesIn source) :
    sorted (edits.map (inBytes source)) = (sorted edits).map (inBytes source) := by
  induction edits with
  | nil => rfl
  | cons head edits inductionHypothesis =>
      obtain ⟨ofHead, ofRest⟩ := List.forall_mem_cons.mp ofEdits
      have ofSorted : ∀ edit ∈ sorted edits, edit.range.LiesIn source :=
        fun edit member => ofRest edit (mem_sorted.mp member)
      rw [List.map_cons, show ∀ edit edits, sorted (edit :: edits) = insertSorted edit (sorted edits) from
        fun _ _ => rfl, inductionHypothesis ofRest, insertSorted_inBytes ofHead ofSorted]
      rfl

/-- The slices between edits that lie in front of the end are all taken. -/
theorem applySortedIn?_inBytes {stop cursor : Nat} (inside : stop ≤ source.length)
    (order : cursor ≤ stop) (ofEdits : ∀ edit ∈ edits, edit.range.start ≤ edit.range.stop ∧
      edit.range.stop ≤ stop) :
    applySortedIn? source (source.offsetOf stop) (source.offsetOf cursor) (edits.map (inBytes source)) =
      some (applySorted source stop cursor edits) := by
  induction edits generalizing cursor with
  | nil => exact Text.sliceAt?_offsetOf order inside
  | cons edit edits inductionHypothesis =>
      obtain ⟨⟨proper, below⟩, ofRest⟩ := List.forall_mem_cons.mp ofEdits
      have skipped : source.offsetOf edit.range.start < source.offsetOf cursor ↔
          edit.range.start < cursor := Text.offsetOf_lt_iff (Nat.le_trans order inside)
      rw [List.map_cons, applySortedIn?, applySorted]
      simp only [inBytes, Range.inBytes, skipped]
      split
      next => exact inductionHypothesis order ofRest
      next follows =>
        rw [Text.sliceAt?_offsetOf (Nat.not_lt.mp follows) (by omega), Option.bind_eq_bind,
          Option.bind_some, inductionHypothesis below ofRest]
        rfl

/-- A splice by bytes is the splice, for edits and ranges of the source. -/
theorem spliceIn?_inBytes (ofRange : range.LiesIn source)
    (ofEdits : ∀ edit ∈ edits, edit.range.LiesIn source) :
    spliceIn? source (range.inBytes source) (edits.map (inBytes source)) =
      some (splice source range edits) := by
  have kept : (edits.map (inBytes source)).filter
        (fun edit => (range.inBytes source).contains edit.range) =
      (edits.filter fun edit => range.contains edit.range).map (inBytes source) := by
    rw [List.filter_map]
    exact congrArg _ (List.filter_congr fun edit member => contains_inBytes ofRange (ofEdits edit member))
  rw [spliceIn?, splice, kept, sorted_inBytes fun edit member => ofEdits edit (List.mem_of_mem_filter member)]
  refine applySortedIn?_inBytes ofRange.inside ofRange.proper fun edit member => ?_
  obtain ⟨isEdit, contained⟩ := List.mem_filter.mp (mem_sorted.mp member)
  exact ⟨(ofEdits edit isEdit).proper, (Range.contains_iff.mp contained).2⟩

theorem applyAllIn?_inBytes (ofEdits : ∀ edit ∈ edits, edit.range.LiesIn source) :
    applyAllIn? source (edits.map (inBytes source)) = some (applyAll source edits) := by
  have whole : (⟨0, source.utf8Length⟩ : Range) = (⟨0, source.length⟩ : Range).inBytes source := by
    rw [Range.inBytes, Text.offsetOf_zero, Text.offsetOf_length]
  rw [applyAllIn?, whole]
  exact spliceIn?_inBytes ⟨Nat.zero_le _, Nat.le_refl _⟩ ofEdits

end Edit

end ImportMeter
