/-
This file shows what edits do that stand in order and do not overlap: they may be applied part by part.
-/
import ImportMeter.Edit
import ImportMeter.Proofs.Text

namespace ImportMeter

namespace Script.Range

theorem contains_iff {outer inner : Range} :
    outer.contains inner = true ↔ outer.start ≤ inner.start ∧ inner.stop ≤ outer.stop := by
  simp only [contains, Bool.and_eq_true, decide_eq_true_eq]

theorem contains_eq_false_iff {outer inner : Range} :
    outer.contains inner = false ↔ ¬(outer.start ≤ inner.start ∧ inner.stop ≤ outer.stop) := by
  rw [Bool.eq_false_iff, Ne, contains_iff]

theorem contains_self (range : Range) : range.contains range = true :=
  contains_iff.mpr ⟨Nat.le_refl _, Nat.le_refl _⟩

end Script.Range

namespace Edit

theorem applyAll_nil (source : Text) : applyAll source [] = source :=
  Text.slice_all source

/-- Edits that lie between two positions, each behind the one before it. -/
def InOrder : Nat → Nat → List Edit → Prop
  | low, high, [] => low ≤ high
  | low, high, edit :: edits =>
    low ≤ edit.range.start ∧ edit.range.start ≤ edit.range.stop ∧
      InOrder edit.range.stop high edits

namespace InOrder

theorem le {low high : Nat} {edits : List Edit} (inOrder : InOrder low high edits) : low ≤ high := by
  induction edits generalizing low with
  | nil => exact inOrder
  | cons edit edits inductionHypothesis =>
      have rest := inductionHypothesis inOrder.2.2
      have first := inOrder.1
      have inside := inOrder.2.1
      omega

theorem widen {low high lower higher : Nat} {edits : List Edit}
    (inOrder : InOrder low high edits) (below : lower ≤ low) (above : high ≤ higher) :
    InOrder lower higher edits := by
  induction edits generalizing low lower with
  | nil => exact Nat.le_trans below (Nat.le_trans inOrder above)
  | cons edit edits inductionHypothesis =>
      exact ⟨Nat.le_trans below inOrder.1, inOrder.2.1,
        inductionHypothesis inOrder.2.2 (Nat.le_refl _)⟩

theorem append {low middle high : Nat} {first second : List Edit}
    (firstInOrder : InOrder low middle first) (secondInOrder : InOrder middle high second) :
    InOrder low high (first ++ second) := by
  induction first generalizing low with
  | nil => exact secondInOrder.widen firstInOrder (Nat.le_refl _)
  | cons edit edits inductionHypothesis =>
      exact ⟨firstInOrder.1, firstInOrder.2.1, inductionHypothesis firstInOrder.2.2⟩

/-- All of the edits lie between the two positions. -/
theorem bounds {low high : Nat} {edits : List Edit} (inOrder : InOrder low high edits) :
    ∀ edit ∈ edits, low ≤ edit.range.start ∧ edit.range.start ≤ edit.range.stop ∧
      edit.range.stop ≤ high := by
  induction edits generalizing low with
  | nil => simp
  | cons edit edits inductionHypothesis =>
      obtain ⟨first, inside, rest⟩ := inOrder
      refine List.forall_mem_cons.mpr ⟨⟨first, inside, rest.le⟩, ?_⟩
      intro other member
      have bounded := inductionHypothesis rest other member
      exact ⟨by omega, bounded.2⟩

theorem lower {low middle high : Nat} {edits : List Edit} (inOrder : InOrder low high edits)
    (below : ∀ edit ∈ edits, edit.range.stop ≤ middle) (order : low ≤ middle) :
    InOrder low middle edits := by
  induction edits generalizing low with
  | nil => exact order
  | cons edit edits inductionHypothesis =>
      exact ⟨inOrder.1, inOrder.2.1, inductionHypothesis inOrder.2.2
        (fun other member => below other (List.mem_cons_of_mem edit member))
        (below edit List.mem_cons_self)⟩

theorem raise {low middle high : Nat} {edits : List Edit} (inOrder : InOrder low high edits)
    (above : ∀ edit ∈ edits, middle ≤ edit.range.start) (order : middle ≤ high) :
    InOrder middle high edits := by
  cases edits with
  | nil => exact order
  | cons edit edits => exact ⟨above edit List.mem_cons_self, inOrder.2.1, inOrder.2.2⟩

theorem filter {low high : Nat} {edits : List Edit} (inOrder : InOrder low high edits)
    (test : Edit → Bool) : InOrder low high (edits.filter test) := by
  induction edits generalizing low with
  | nil => exact inOrder
  | cons edit edits inductionHypothesis =>
      obtain ⟨first, inside, rest⟩ := inOrder
      have kept := inductionHypothesis rest
      rw [List.filter_cons]
      split
      · exact ⟨first, inside, kept⟩
      · exact kept.widen (by omega) (Nat.le_refl _)

/-- The first of edits in order is put in front. -/
theorem insertSorted_eq {low high : Nat} {edit : Edit} {edits : List Edit}
    (inOrder : InOrder low high (edit :: edits)) : insertSorted edit edits = edit :: edits := by
  obtain ⟨_, inside, rest⟩ := inOrder
  cases edits with
  | nil => rfl
  | cons next edits =>
      obtain ⟨follows, nextInside, _⟩ := rest
      have first : edit.before next = true := by
        simp only [before, Bool.or_eq_true, Bool.and_eq_true, decide_eq_true_eq]
        omega
      rw [insertSorted, if_pos first]

/-- Edits in order need not be sorted. -/
theorem sorted_eq {low high : Nat} {edits : List Edit} (inOrder : InOrder low high edits) :
    sorted edits = edits := by
  induction edits generalizing low with
  | nil => rfl
  | cons edit edits inductionHypothesis =>
      have rest : sorted edits = edits := inductionHypothesis inOrder.2.2
      rw [show sorted (edit :: edits) = insertSorted edit (sorted edits) from rfl, rest]
      exact inOrder.insertSorted_eq

/-- Edits in order that lie in the source are applied as they stand. -/
theorem applyAll_eq {source : Text} {edits : List Edit} (inOrder : InOrder 0 source.length edits) :
    applyAll source edits = applySorted source source.length 0 edits := by
  have inside : edits.filter
      (fun edit => (⟨0, source.length⟩ : Script.Range).contains edit.range) = edits := by
    refine List.filter_eq_self.mpr fun edit member => ?_
    have bounds := inOrder.bounds edit member
    simp only [Script.Range.contains_iff]
    omega
  rw [applyAll, splice, inside, inOrder.sorted_eq]

/-- Up to the first edit the source is copied. -/
theorem applySorted_front {low middle high : Nat} {source : Text} {edits : List Edit}
    (below : low ≤ middle) (inOrder : InOrder middle high edits) :
    applySorted source high low edits =
      source.slice low middle ++ applySorted source high middle edits := by
  cases edits with
  | nil => exact (Text.slice_append_slice below inOrder).symm
  | cons edit edits =>
      have first : middle ≤ edit.range.start := inOrder.1
      rw [applySorted, applySorted, if_neg (by omega), if_neg (by omega), ← List.append_assoc,
        ← List.append_assoc, Text.slice_append_slice below first]

/-- Two groups of edits, one behind the other, are applied one after the other. -/
theorem applySorted_append {low middle high : Nat} {source : Text} {first second : List Edit}
    (firstInOrder : InOrder low middle first) (secondInOrder : InOrder middle high second) :
    applySorted source high low (first ++ second) =
      applySorted source middle low first ++ applySorted source high middle second := by
  induction first generalizing low with
  | nil => exact secondInOrder.applySorted_front firstInOrder
  | cons edit edits inductionHypothesis =>
      obtain ⟨start, inside, rest⟩ := firstInOrder
      rw [List.cons_append, applySorted, applySorted, if_neg (by omega), if_neg (by omega),
        inductionHypothesis rest]
      simp only [List.append_assoc]

end InOrder

/-- A position, moved into a range if it lies outside. -/
def clamp (range : Script.Range) (position : Nat) : Nat := min (max position range.start) range.stop

theorem InOrder.clamp {low high : Nat} {edits : List Edit} (inOrder : InOrder low high edits)
    {range : Script.Range} (proper : range.start ≤ range.stop) :
    InOrder (clamp range low) (clamp range high)
      (edits.filter fun edit => range.contains edit.range) := by
  induction edits generalizing low with
  | nil =>
      have order : low ≤ high := inOrder
      rw [List.filter_nil, InOrder, Edit.clamp, Edit.clamp]
      omega
  | cons edit edits inductionHypothesis =>
      obtain ⟨begins, inside, rest⟩ := inOrder
      have kept := inductionHypothesis rest
      have order := rest.le
      rw [List.filter_cons]
      split
      next contained =>
        simp only [Script.Range.contains_iff] at contained
        refine ⟨?_, inside, kept.widen ?_ (Nat.le_refl _)⟩
        · rw [Edit.clamp]
          omega
        · rw [Edit.clamp]
          omega
      next =>
        refine kept.widen ?_ (Nat.le_refl _)
        rw [Edit.clamp, Edit.clamp]
        omega

/-- Where no edit stands across a position, the edits in a range are those in front of the position and
those behind it. -/
theorem InOrder.filter_split {low high first middle last : Nat} {edits : List Edit}
    (inOrder : InOrder low high edits)
    (solid : ∀ edit ∈ edits, edit.range.start < edit.range.stop)
    (clean : ∀ edit ∈ edits, edit.range.stop ≤ middle ∨ middle ≤ edit.range.start)
    (below : first ≤ middle) (above : middle ≤ last) :
    edits.filter (fun edit => (⟨first, last⟩ : Script.Range).contains edit.range) =
      edits.filter (fun edit => (⟨first, middle⟩ : Script.Range).contains edit.range) ++
        edits.filter fun edit => (⟨middle, last⟩ : Script.Range).contains edit.range := by
  induction edits generalizing low with
  | nil => rfl
  | cons edit edits inductionHypothesis =>
      have split := inductionHypothesis inOrder.2.2
        (fun other member => solid other (List.mem_cons_of_mem edit member))
        fun other member => clean other (List.mem_cons_of_mem edit member)
      have nonempty := solid edit List.mem_cons_self
      rcases clean edit List.mem_cons_self with before | behind
      · have notBehind : (⟨middle, last⟩ : Script.Range).contains edit.range = false := by
          simp only [Script.Range.contains_eq_false_iff]
          omega
        have same : (⟨first, last⟩ : Script.Range).contains edit.range =
            (⟨first, middle⟩ : Script.Range).contains edit.range := by
          rw [Bool.eq_iff_iff]
          simp only [Script.Range.contains_iff]
          omega
        simp only [List.filter_cons, same, notBehind, split, Bool.false_eq_true, if_false]
        split
        · rw [List.cons_append]
        · rfl
      · have early : edits.filter
            (fun edit => (⟨first, middle⟩ : Script.Range).contains edit.range) = [] := by
          rw [List.filter_eq_nil_iff]
          intro other member
          have bounds := inOrder.2.2.bounds other member
          have otherNonempty := solid other (List.mem_cons_of_mem edit member)
          simp only [Script.Range.contains_iff]
          omega
        have notBefore : (⟨first, middle⟩ : Script.Range).contains edit.range = false := by
          simp only [Script.Range.contains_eq_false_iff]
          omega
        have same : (⟨first, last⟩ : Script.Range).contains edit.range =
            (⟨middle, last⟩ : Script.Range).contains edit.range := by
          rw [Bool.eq_iff_iff]
          simp only [Script.Range.contains_iff]
          omega
        simp only [List.filter_cons, same, notBefore, split, early, Bool.false_eq_true, if_false,
          List.nil_append]

/-- Edits that start in front of the cursor are left out. -/
theorem applySorted_skip {source : Text} {high cursor : Nat} {skipped edits : List Edit}
    (early : ∀ edit ∈ skipped, edit.range.start < cursor) :
    applySorted source high cursor (skipped ++ edits) = applySorted source high cursor edits := by
  induction skipped with
  | nil => rfl
  | cons edit skipped inductionHypothesis =>
      rw [List.cons_append, applySorted, if_pos (early edit List.mem_cons_self)]
      exact inductionHypothesis fun other member => early other (List.mem_cons_of_mem edit member)

/-- An edit that comes last is sorted in front of the edits that start behind it. -/
theorem foldr_insertSorted_behind {last : Edit} {low high : Nat} {edits : List Edit}
    (later : last.range.start < low) (inOrder : InOrder low high edits) :
    edits.foldr insertSorted [last] = last :: edits := by
  induction edits generalizing low with
  | nil => rfl
  | cons edit edits inductionHypothesis =>
      have whole := inOrder
      obtain ⟨begins, inside, rest⟩ := inOrder
      have notBefore : edit.before last = false := by
        simp only [before, Bool.or_eq_false_iff, Bool.and_eq_false_iff, decide_eq_false_iff_not]
        omega
      rw [List.foldr_cons, inductionHypothesis (by omega) rest, insertSorted, notBefore,
        if_neg Bool.false_ne_true, whole.insertSorted_eq]

/-- Edits in order stay in front of sorted edits that start behind them. -/
theorem foldr_insertSorted_front {next : Edit} {low : Nat} {edits sortedEdits : List Edit}
    (inside : next.range.start ≤ next.range.stop)
    (inOrder : InOrder low next.range.start edits) :
    edits.foldr insertSorted (next :: sortedEdits) = edits ++ next :: sortedEdits := by
  induction edits generalizing low with
  | nil => rfl
  | cons edit edits inductionHypothesis =>
      obtain ⟨_, _, rest⟩ := inOrder
      have first : ∀ other : Edit, edit.range.stop ≤ other.range.start →
          other.range.start ≤ other.range.stop → edit.before other = true := by
        intro other follows otherInside
        simp only [before, Bool.or_eq_true, Bool.and_eq_true, decide_eq_true_eq]
        omega
      rw [List.foldr_cons, inductionHypothesis rest]
      cases edits with
      | nil => rw [List.nil_append, insertSorted, if_pos (first next rest inside)]; rfl
      | cons other edits =>
          rw [List.cons_append, insertSorted, if_pos (first other rest.1 rest.2.1)]
          rfl

/-- A deletion between two groups of edits is applied between them. -/
theorem applySorted_cut {source : Text} {low start stop high : Nat} {first edits : List Edit}
    (inOrder : InOrder low start first) :
    applySorted source high low (first ++ ⟨⟨start, stop⟩, []⟩ :: edits) =
      applySorted source start low first ++ applySorted source high stop edits := by
  induction first generalizing low with
  | nil =>
      have below : low ≤ start := inOrder
      rw [List.nil_append, applySorted]
      simp only [if_neg (Nat.not_lt.mpr below), applySorted, List.append_nil]
  | cons edit first inductionHypothesis =>
      obtain ⟨begins, _, rest⟩ := inOrder
      rw [List.cons_append, applySorted, applySorted, if_neg (by omega), if_neg (by omega),
        inductionHypothesis rest]
      simp only [List.append_assoc]

/-- A deletion that comes last among the edits takes the edits along that start inside it. -/
theorem applySorted_deletion {source : Text} {low start stop high : Nat}
    {first middle last : List Edit} (firstInOrder : InOrder low start first)
    (middleInOrder : InOrder (start + 1) stop middle)
    (solid : ∀ edit ∈ middle, edit.range.start < edit.range.stop)
    (lastInOrder : InOrder stop high last) :
    applySorted source high low (sorted (first ++ (middle ++ last) ++ [⟨⟨start, stop⟩, []⟩])) =
      applySorted source start low first ++ applySorted source high stop last := by
  have extent : start < stop := middleInOrder.le
  have behind : (middle ++ last).foldr insertSorted [⟨⟨start, stop⟩, []⟩] =
      ⟨⟨start, stop⟩, []⟩ :: (middle ++ last) :=
    foldr_insertSorted_behind (Nat.lt_succ_self start) (middleInOrder.append lastInOrder)
  have front : first.foldr insertSorted (⟨⟨start, stop⟩, []⟩ :: (middle ++ last)) =
      first ++ ⟨⟨start, stop⟩, []⟩ :: (middle ++ last) :=
    foldr_insertSorted_front (Nat.le_of_lt extent) firstInOrder
  have order : sorted (first ++ (middle ++ last) ++ [⟨⟨start, stop⟩, []⟩]) =
      first ++ ⟨⟨start, stop⟩, []⟩ :: (middle ++ last) := by
    rw [← front, ← behind, sorted, List.foldr_append, List.foldr_append]
    rfl
  have early : ∀ edit ∈ middle, edit.range.start < stop := by
    intro edit member
    have bounded := middleInOrder.bounds edit member
    have nonempty := solid edit member
    omega
  rw [order, applySorted_cut firstInOrder, applySorted_skip early]

end Edit

end ImportMeter
