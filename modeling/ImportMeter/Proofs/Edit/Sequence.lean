/-
This file applies edits one at a time. Of the edits in a range those count that start where the last one
that counts ends, or behind; they are applied from the last to the first, so that no edit moves what the
edits after it replace.
-/
import Mathlib.Data.List.Nodup
import ImportMeter.Proofs.Edit.Slicing

namespace ImportMeter

open Script (Range)

namespace Text

/-- The text with another one in the place of the characters between two positions. -/
def replace (text : Text) (first last : Nat) (new : Text) : Text :=
  text.take first ++ new ++ text.drop last

/-- The same between two offsets in bytes, where these are a range of the text. -/
def replaceAt? (text : Text) (first last : Nat) (new : Text) : Option Text :=
  if first ≤ last then do
    let front ← text.sliceAt? 0 first
    let behind ← text.sliceAt? last text.utf8Length
    some (front ++ new ++ behind)
  else none

/-- Behind a leading part the positions are those of the rest, moved by its length. -/
theorem replace_append (front behind : Text) (first last : Nat) (new : Text) :
    (front ++ behind).replace (front.length + first) (front.length + last) new =
      front ++ behind.replace first last new := by
  rw [replace, List.take_length_add_append, List.drop_length_add_append, replace]
  simp only [List.append_assoc]

theorem replace_parts (front part behind new : Text) :
    (front ++ part ++ behind).replace front.length (front ++ part).length new =
      front ++ new ++ behind := by
  rw [replace, List.drop_left, List.append_assoc front part, List.take_left]

/-- Of two leading parts the one with fewer bytes is the beginning of the other one. -/
theorem exists_between {first second third fourth : Text} (same : first ++ second = third ++ fourth)
    (shorter : first.utf8Length ≤ third.utf8Length) :
    ∃ between, third = first ++ between ∧ second = between ++ fourth := by
  rcases List.append_eq_append_iff.mp same with found | ⟨between, longer, behind⟩
  · exact found
  · rw [longer, utf8Length_append] at shorter
    have short := length_le_utf8Length between
    obtain rfl : between = [] := List.length_eq_zero_iff.mp (by omega)
    exact ⟨[], by rw [longer, List.append_nil, List.append_nil], behind.symm⟩

/-- Two slices of a text, the one behind the other, are the beginning and the end of a slice. -/
theorem sliceAt?_around {text front behind : Text} {first second third last : Nat}
    (order : second ≤ third) :
    (text.sliceAt? first second = some front ∧ text.sliceAt? third last = some behind) ↔
      ∃ between, text.sliceAt? first last = some (front ++ between ++ behind) ∧
        first + front.utf8Length = second ∧ first + (front ++ between).utf8Length = third := by
  simp only [sliceAt?_eq_some_iff, utf8Length_append]
  constructor
  · rintro ⟨⟨before, rest, split, rfl, rfl⟩, leading, after, rfl, rfl, rfl⟩
    rw [List.append_assoc leading] at split
    obtain ⟨between, rfl, -⟩ := exists_between split.symm (by rwa [utf8Length_append])
    refine ⟨between, ⟨before, after, by simp only [List.append_assoc], rfl, ?_⟩, rfl, ?_⟩
    · simp only [utf8Length_append, Nat.add_assoc]
    · simp only [utf8Length_append, Nat.add_assoc]
  · rintro ⟨between, ⟨before, after, rfl, rfl, rfl⟩, rfl, rfl⟩
    refine ⟨⟨before, between ++ behind ++ after, by simp only [List.append_assoc], rfl, rfl⟩,
      before ++ front ++ between, after, by simp only [List.append_assoc], ?_, ?_⟩
    · simp only [utf8Length_append, Nat.add_assoc]
    · simp only [utf8Length_append, Nat.add_assoc]

/-- A part between two offsets is replaced where the text has a beginning up to the first and an end from the
last of them. -/
theorem replaceAt?_eq_some_iff {text new result : Text} {first last : Nat} :
    text.replaceAt? first last new = some result ↔
      ∃ front part behind, text = front ++ part ++ behind ∧ front.utf8Length = first ∧
        (front ++ part).utf8Length = last ∧ result = front ++ new ++ behind := by
  have whole : text.sliceAt? 0 text.utf8Length = some text :=
    sliceAt?_eq_some_iff.mpr ⟨[], [], (List.append_nil text).symm, rfl, rfl⟩
  rw [replaceAt?]
  constructor
  · intro found
    split at found
    next order =>
      obtain ⟨front, isFront, others⟩ := Option.bind_eq_some_iff.mp found
      obtain ⟨behind, isBehind, isResult⟩ := Option.bind_eq_some_iff.mp others
      obtain ⟨part, isWhole, frontLength, length⟩ := (sliceAt?_around order).mp ⟨isFront, isBehind⟩
      rw [Nat.zero_add] at frontLength length
      exact ⟨front, part, behind, Option.some.inj (whole.symm.trans isWhole), frontLength, length,
        (Option.some.inj isResult).symm⟩
    next => cases found
  · rintro ⟨front, part, behind, same, rfl, rfl, rfl⟩
    have order : front.utf8Length ≤ (front ++ part).utf8Length := by
      rw [utf8Length_append]
      exact Nat.le_add_right _ _
    obtain ⟨isFront, isBehind⟩ := (sliceAt?_around order).mpr
      ⟨part, whole.trans (congrArg some same), Nat.zero_add _, Nat.zero_add _⟩
    rw [if_pos order, isFront, isBehind]
    rfl

end Text

namespace Edit

/-- Of some edits in order those that count: each starts where the last one that counts ends, or
behind. The first argument is where that is. -/
def keptFrom : Nat → List Edit → List Edit
  | _, [] => []
  | stop, edit :: edits =>
    if stop ≤ edit.range.start then edit :: keptFrom edit.range.stop edits else keptFrom stop edits

/-- The edits in a range that count, in order. -/
def kept (range : Range) (edits : List Edit) : List Edit :=
  keptFrom 0 ((edits.filter fun edit => range.contains edit.range).mergeSort before)

/-- Applies edits to a part of the source that starts at some position, the last edit first. -/
def replaceAll (start : Nat) (edits : List Edit) (part : Text) : Text :=
  edits.foldr (fun edit part =>
    part.replace (edit.range.start - start) (edit.range.stop - start) edit.text) part

/-- Applies edits in bytes to a part of the source that starts at some offset, the last edit first. -/
def replaceAllIn? (start : Nat) (edits : List Edit) (part : Text) : Option Text :=
  edits.foldrM (fun edit part =>
    part.replaceAt? (edit.range.start - start) (edit.range.stop - start) edit.text) part

variable {source : Text} {range : Range} {edits : List Edit} {edit : Edit} {start stop : Nat}

/-! ### The order of edits -/

theorem before_iff {first second : Edit} : first.before second = true ↔
    first.range.start < second.range.start ∨
      (first.range.start = second.range.start ∧ first.range.stop ≤ second.range.stop) := by
  simp only [before, Bool.or_eq_true, Bool.and_eq_true, decide_eq_true_eq]

theorem before_trans (first second third : Edit) (below : first.before second = true)
    (above : second.before third = true) : first.before third = true := by
  rw [before_iff] at below above ⊢
  omega

theorem before_total (first second : Edit) : (first.before second || second.before first) = true := by
  rw [Bool.or_eq_true, before_iff, before_iff]
  omega

theorem range_eq_of_before {first second : Edit} (below : first.before second = true)
    (above : second.before first = true) : first.range = second.range := by
  rw [before_iff] at below above
  rcases first with ⟨⟨firstStart, firstStop⟩, firstText⟩
  rcases second with ⟨⟨secondStart, secondStop⟩, secondText⟩
  simp only [Range.mk.injEq] at below above ⊢
  omega

/-- An edit goes behind those that it does not come before. -/
theorem insertSorted_append {front behind : List Edit}
    (passed : ∀ other ∈ front, (!edit.before other) = true) :
    insertSorted edit (front ++ behind) = front ++ insertSorted edit behind := by
  induction front with
  | nil => rfl
  | cons other front inductionHypothesis =>
      obtain ⟨notBefore, passed⟩ := List.forall_mem_cons.mp passed
      rw [Bool.not_eq_true'] at notBefore
      rw [List.cons_append, insertSorted, notBefore, if_neg Bool.false_ne_true,
        inductionHypothesis passed, List.cons_append]

/-- Edits are sorted stably. -/
theorem sorted_eq_mergeSort (edits : List Edit) : sorted edits = edits.mergeSort before := by
  induction edits with
  | nil => exact List.mergeSort_nil.symm
  | cons edit edits inductionHypothesis =>
      obtain ⟨front, behind, whole, rest, passed⟩ :=
        List.mergeSort_cons before_trans before_total edit edits
      have inOrder := List.pairwise_mergeSort before_trans before_total (edit :: edits)
      rw [whole] at inOrder
      have first : insertSorted edit behind = edit :: behind := by
        cases behind with
        | nil => rfl
        | cons next behind =>
            have isBefore : edit.before next = true :=
              List.rel_of_pairwise_cons (List.pairwise_append.mp inOrder).2.1 List.mem_cons_self
            rw [insertSorted, if_pos isBefore]
      rw [show sorted (edit :: edits) = insertSorted edit (sorted edits) from rfl, inductionHypothesis,
        rest, insertSorted_append passed, first, whole]

/-- Where no two edits have the same range, the order in which they are given does not matter. -/
theorem sorted_eq_of_perm {other : List Edit} (unique : (edits.map Edit.range).Nodup)
    (same : other.Perm edits) : sorted other = sorted edits := by
  rw [sorted_eq_mergeSort, sorted_eq_mergeSort]
  have sortedSame : (other.mergeSort before).Perm (edits.mergeSort before) :=
    (List.mergeSort_perm other before).trans (same.trans (List.mergeSort_perm edits before).symm)
  refine List.Perm.eq_of_pairwise ?_ (List.pairwise_mergeSort before_trans before_total other)
    (List.pairwise_mergeSort before_trans before_total edits) sortedSame
  intro first second isFirst isSecond below above
  have firstMember : first ∈ edits := same.mem_iff.mp (List.mem_mergeSort.mp isFirst)
  have secondMember : second ∈ edits := List.mem_mergeSort.mp isSecond
  exact List.inj_on_of_nodup_map unique firstMember secondMember (range_eq_of_before below above)

/-! ### The edits that count -/

/-- The edits that count are edits that stand in order. -/
theorem mem_keptFrom (proper : ∀ edit ∈ edits, edit.range.start ≤ edit.range.stop)
    (member : edit ∈ keptFrom stop edits) : edit ∈ edits ∧ stop ≤ edit.range.start := by
  induction edits generalizing stop with
  | nil => cases member
  | cons first edits inductionHypothesis =>
      obtain ⟨firstProper, proper⟩ := List.forall_mem_cons.mp proper
      rw [keptFrom] at member
      split at member
      next follows =>
        rcases List.mem_cons.mp member with rfl | member
        · exact ⟨List.mem_cons_self, follows⟩
        · obtain ⟨isEdit, behind⟩ := inductionHypothesis proper member
          exact ⟨List.mem_cons_of_mem _ isEdit, by omega⟩
      next =>
        obtain ⟨isEdit, behind⟩ := inductionHypothesis proper member
        exact ⟨List.mem_cons_of_mem _ isEdit, behind⟩

/-- Nothing is left out in front of where all edits start. -/
theorem keptFrom_eq_keptFrom_zero (behind : ∀ edit ∈ edits, stop ≤ edit.range.start) :
    keptFrom stop edits = keptFrom 0 edits := by
  cases edits with
  | nil => rfl
  | cons edit edits =>
      rw [keptFrom, keptFrom, if_pos (behind edit List.mem_cons_self), if_pos (Nat.zero_le _)]

/-! ### One edit after the other -/

/-- Edits behind a leading part leave it. -/
theorem replaceAll_append {front : Text} (behind : Text)
    (follow : ∀ edit ∈ edits, start + front.length ≤ edit.range.start)
    (proper : ∀ edit ∈ edits, edit.range.start ≤ edit.range.stop) :
    replaceAll start edits (front ++ behind) =
      front ++ replaceAll (start + front.length) edits behind := by
  induction edits with
  | nil => rfl
  | cons edit edits inductionHypothesis =>
      obtain ⟨follows, follow⟩ := List.forall_mem_cons.mp follow
      obtain ⟨isProper, proper⟩ := List.forall_mem_cons.mp proper
      have rest := inductionHypothesis follow proper
      have startMoved : edit.range.start - start =
          front.length + (edit.range.start - (start + front.length)) := by omega
      have stopMoved : edit.range.stop - start =
          front.length + (edit.range.stop - (start + front.length)) := by omega
      rw [replaceAll] at rest ⊢
      rw [List.foldr_cons, rest, startMoved, stopMoved, Text.replace_append]
      rfl

/-- A single pass over edits in order does what they do one at a time. -/
theorem applySorted_eq_replaceAll (inside : stop ≤ source.length)
    (within : ∀ edit ∈ edits, edit.range.start ≤ edit.range.stop ∧ edit.range.stop ≤ stop) :
    applySorted source stop start edits =
      replaceAll start (keptFrom start edits) (source.slice start stop) := by
  induction edits generalizing start with
  | nil => rfl
  | cons edit edits inductionHypothesis =>
      obtain ⟨⟨isProper, isBelow⟩, within⟩ := List.forall_mem_cons.mp within
      rw [applySorted, keptFrom]
      by_cases follows : start ≤ edit.range.start
      · rw [if_neg (Nat.not_lt.mpr follows), if_pos follows, inductionHypothesis within]
        have frontLength : (source.slice start edit.range.start).length = edit.range.start - start :=
          Text.slice_length (by omega)
        have leadingLength : (source.slice start edit.range.stop).length = edit.range.stop - start :=
          Text.slice_length (by omega)
        have leading : source.slice start edit.range.start ++
            source.slice edit.range.start edit.range.stop = source.slice start edit.range.stop :=
          Text.slice_append_slice follows isProper
        have whole : source.slice start edit.range.stop ++ source.slice edit.range.stop stop =
            source.slice start stop := Text.slice_append_slice (by omega) isBelow
        have next : start + (source.slice start edit.range.stop).length = edit.range.stop := by omega
        have kept : ∀ other ∈ keptFrom edit.range.stop edits, other ∈ edits ∧
            edit.range.stop ≤ other.range.start :=
          fun other => mem_keptFrom fun edit member => (within edit member).1
        have others := replaceAll_append (source.slice edit.range.stop stop)
          (fun other member => next.symm ▸ (kept other member).2)
          (fun other member => (within other (kept other member).1).1)
        rw [next, whole] at others
        have replaced := Text.replace_parts (source.slice start edit.range.start)
          (source.slice edit.range.start edit.range.stop)
          (replaceAll edit.range.stop (keptFrom edit.range.stop edits)
            (source.slice edit.range.stop stop)) edit.text
        rw [leading, frontLength, leadingLength, ← others] at replaced
        exact replaced.symm
      · rw [if_pos (Nat.lt_of_not_le follows), if_neg follows, inductionHypothesis within]

/-- The first of some edits is applied to what the others leave. -/
theorem replaceAllIn?_cons_eq_some_iff {part result : Text} :
    replaceAllIn? start (edit :: edits) part = some result ↔
      ∃ front between behind, replaceAllIn? start edits part = some (front ++ between ++ behind) ∧
        front.utf8Length = edit.range.start - start ∧
        (front ++ between).utf8Length = edit.range.stop - start ∧
        result = front ++ edit.text ++ behind := by
  rw [replaceAllIn?, List.foldrM_cons, Option.bind_eq_bind, Option.bind_eq_some_iff]
  constructor
  · rintro ⟨whole, others, replaced⟩
    obtain ⟨front, between, behind, rfl, found⟩ := Text.replaceAt?_eq_some_iff.mp replaced
    exact ⟨front, between, behind, others, found⟩
  · rintro ⟨front, between, behind, others, found⟩
    exact ⟨_, others, Text.replaceAt?_eq_some_iff.mpr ⟨front, between, behind, rfl, found⟩⟩

/-- Edits in bytes behind a leading part leave it. -/
theorem replaceAllIn?_eq_some_append_iff {part front behind : Text}
    (follow : ∀ edit ∈ edits, start + front.utf8Length ≤ edit.range.start)
    (proper : ∀ edit ∈ edits, edit.range.start ≤ edit.range.stop) :
    replaceAllIn? start edits part = some (front ++ behind) ↔
      ∃ rest, part = front ++ rest ∧
        replaceAllIn? (start + front.utf8Length) edits rest = some behind := by
  induction edits generalizing behind with
  | nil =>
      constructor
      · rintro ⟨⟩
        exact ⟨behind, rfl, rfl⟩
      · rintro ⟨rest, rfl, ⟨⟩⟩
        rfl
  | cons edit edits inductionHypothesis =>
      obtain ⟨follows, follow⟩ := List.forall_mem_cons.mp follow
      obtain ⟨isProper, proper⟩ := List.forall_mem_cons.mp proper
      rw [replaceAllIn?_cons_eq_some_iff]
      constructor
      · rintro ⟨before, between, after, replaced, beforeLength, betweenLength, same⟩
        rw [List.append_assoc before] at same
        obtain ⟨inner, rfl, rfl⟩ := Text.exists_between same (by omega)
        rw [Text.utf8Length_append] at beforeLength
        rw [List.append_assoc front, Text.utf8Length_append] at betweenLength
        rw [List.append_assoc front, List.append_assoc front] at replaced
        obtain ⟨rest, rfl, others⟩ := (inductionHypothesis follow proper).mp replaced
        refine ⟨rest, rfl, replaceAllIn?_cons_eq_some_iff.mpr
          ⟨inner, between, after, others, by omega, by omega, (List.append_assoc _ _ _).symm⟩⟩
      · rintro ⟨rest, rfl, found⟩
        obtain ⟨before, between, after, replaced, beforeLength, betweenLength, rfl⟩ :=
          replaceAllIn?_cons_eq_some_iff.mp found
        have whole := (inductionHypothesis follow proper).mpr ⟨rest, rfl, replaced⟩
        rw [← List.append_assoc front, ← List.append_assoc front] at whole
        refine ⟨front ++ before, between, after, whole, ?_, ?_, by simp only [List.append_assoc]⟩
        · rw [Text.utf8Length_append]
          omega
        · rw [List.append_assoc, Text.utf8Length_append]
          omega

/-- In bytes too, a single pass over edits in order does what they do one at a time, and fails where one of
them fails. -/
theorem applySortedIn?_eq_some_iff {result : Text}
    (within : ∀ edit ∈ edits, edit.range.start ≤ edit.range.stop ∧ edit.range.stop ≤ stop) :
    applySortedIn? source stop start edits = some result ↔
      ∃ part, source.sliceAt? start stop = some part ∧
        replaceAllIn? start (keptFrom start edits) part = some result := by
  induction edits generalizing start result with
  | nil =>
      constructor
      · intro found
        exact ⟨result, found, rfl⟩
      · rintro ⟨part, found, ⟨⟩⟩
        exact found
  | cons edit edits inductionHypothesis =>
      obtain ⟨⟨isProper, isBelow⟩, within⟩ := List.forall_mem_cons.mp within
      rw [applySortedIn?, keptFrom]
      by_cases follows : start ≤ edit.range.start
      · rw [if_neg (Nat.not_lt.mpr follows), if_pos follows]
        have kept : ∀ other ∈ keptFrom edit.range.stop edits, other ∈ edits ∧
            edit.range.stop ≤ other.range.start :=
          fun other => mem_keptFrom fun edit member => (within edit member).1
        have proper : ∀ other ∈ keptFrom edit.range.stop edits, other.range.start ≤ other.range.stop :=
          fun other member => (within other (kept other member).1).1
        simp only [Option.bind_eq_bind, Option.bind_eq_some_iff, Option.some.injEq,
          inductionHypothesis within, replaceAllIn?_cons_eq_some_iff]
        constructor
        · rintro ⟨front, isFront, behind, ⟨tail, isTail, others⟩, rfl⟩
          obtain ⟨between, isPart, frontLength, length⟩ :=
            (Text.sliceAt?_around isProper).mp ⟨isFront, isTail⟩
          have replaced := (replaceAllIn?_eq_some_append_iff
            (fun other member => length.symm ▸ (kept other member).2) proper).mpr
            ⟨tail, rfl, by rw [length]; exact others⟩
          exact ⟨front ++ between ++ tail, isPart, front, between, behind, replaced, by omega, by omega, rfl⟩
        · rintro ⟨part, isPart, front, between, behind, replaced, frontLength, betweenLength, rfl⟩
          have length : start + Text.utf8Length (front ++ between) = edit.range.stop := by omega
          obtain ⟨tail, rfl, others⟩ := (replaceAllIn?_eq_some_append_iff
            (fun other member => length.symm ▸ (kept other member).2) proper).mp replaced
          obtain ⟨isFront, isTail⟩ :=
            (Text.sliceAt?_around isProper).mpr ⟨between, isPart, by omega, length⟩
          exact ⟨front, isFront, behind, ⟨tail, isTail, length ▸ others⟩, rfl⟩
      · rw [if_pos (Nat.lt_of_not_le follows), if_neg follows, inductionHypothesis within]

/-! ### Splices -/

/-- The edits that a splice goes over lie in the range. -/
theorem within_of_mem_sorted (proper : ∀ edit ∈ edits, edit.range.start ≤ edit.range.stop)
    (member : edit ∈ sorted (edits.filter fun edit => range.contains edit.range)) :
    range.start ≤ edit.range.start ∧ edit.range.start ≤ edit.range.stop ∧
      edit.range.stop ≤ range.stop := by
  obtain ⟨isEdit, contained⟩ := List.mem_filter.mp (mem_sorted.mp member)
  obtain ⟨behind, below⟩ := Range.contains_iff.mp contained
  exact ⟨behind, proper edit isEdit, below⟩

theorem kept_eq_keptFrom_sorted (proper : ∀ edit ∈ edits, edit.range.start ≤ edit.range.stop) :
    kept range edits =
      keptFrom range.start (sorted (edits.filter fun edit => range.contains edit.range)) := by
  rw [keptFrom_eq_keptFrom_zero fun edit member => (within_of_mem_sorted proper member).1,
    sorted_eq_mergeSort, kept]

theorem sorted_filter_eq_of_perm {other : List Edit} (unique : (edits.map Edit.range).Nodup)
    (same : other.Perm edits) :
    sorted (other.filter fun edit => range.contains edit.range) =
      sorted (edits.filter fun edit => range.contains edit.range) := by
  have fewer : (edits.filter fun edit => range.contains edit.range).Sublist edits :=
    List.filter_sublist
  exact sorted_eq_of_perm (unique.sublist (fewer.map Edit.range)) (same.filter _)

/-- A splice applies the edits in the range that count one at a time, from the last to the first. In bytes
it also fails where one of these does or where there is no such range, and where no two edits have the same
range it does not depend on the order in which they are given. -/
theorem splice_one_by_one (source : Text) (range : Range) (edits : List Edit)
    (proper : ∀ edit ∈ edits, edit.range.start ≤ edit.range.stop) :
    (range.stop ≤ source.length →
      splice source range edits =
        replaceAll range.start (kept range edits) (source.slice range.start range.stop)) ∧
    spliceIn? source range edits =
      (source.sliceAt? range.start range.stop).bind (replaceAllIn? range.start (kept range edits)) ∧
    ((edits.map Edit.range).Nodup → ∀ other : List Edit, other.Perm edits →
      splice source range other = splice source range edits ∧
        spliceIn? source range other = spliceIn? source range edits) := by
  have within : ∀ edit ∈ sorted (edits.filter fun edit => range.contains edit.range),
      edit.range.start ≤ edit.range.stop ∧ edit.range.stop ≤ range.stop :=
    fun edit member => (within_of_mem_sorted proper member).2
  refine ⟨fun inside => ?_, ?_, fun unique other same => ?_⟩
  · rw [splice, applySorted_eq_replaceAll inside within, kept_eq_keptFrom_sorted proper]
  · refine Option.ext fun result => ?_
    rw [spliceIn?, kept_eq_keptFrom_sorted proper, Option.bind_eq_some_iff]
    exact applySortedIn?_eq_some_iff within
  · rw [splice, splice, spliceIn?, spliceIn?, sorted_filter_eq_of_perm unique same]
    exact ⟨rfl, rfl⟩

/-- Edits that touch, overlap and insert, and one outside the range from 1 to 7. -/
def touching : List Edit :=
  [⟨⟨2, 4⟩, "C".toList⟩, ⟨⟨3, 5⟩, "D".toList⟩, insert 2 ">".toList, ⟨⟨4, 6⟩, "E".toList⟩,
    ⟨⟨0, 2⟩, "A".toList⟩]

/-- The overlapping edit and the one outside are left out, and the insertion goes in front of the
replacement at its position, whatever the order of the edits. -/
theorem splice_one_by_one_touching :
    replaceAll 1 (kept ⟨1, 7⟩ touching) (Text.slice "xabcdef".toList 1 7) = "a>CEf".toList ∧
      splice "xabcdef".toList ⟨1, 7⟩ touching.reverse = "a>CEf".toList := by
  obtain ⟨oneByOne, -, inAnyOrder⟩ :=
    splice_one_by_one "xabcdef".toList ⟨1, 7⟩ touching (by decide +kernel)
  have spliced : splice "xabcdef".toList ⟨1, 7⟩ touching = "a>CEf".toList := by decide +kernel
  have unique : (touching.map Edit.range).Nodup := by decide +kernel
  have reversed := inAnyOrder unique touching.reverse (List.reverse_perm touching)
  exact ⟨(oneByOne (by decide +kernel)).symm.trans spliced, reversed.1.trans spliced⟩

end Edit

end ImportMeter
