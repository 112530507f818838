/-
This file proves which of the edits that adding and removing instrumentation hand on are applied. The edits
of an injection stand one behind the other. So do those that unwrap calls, but a call in the line of a
deleted declaration is deleted with the line, and it is counted all the same.
-/
import ImportMeter.Proofs.Instrument.Injection

namespace ImportMeter

namespace Edit

/-- The source from a cursor up to `stop` with every one of some edits applied. -/
def weave (source : Text) (stop cursor : Nat) : List Edit → Text
  | [] => source.slice cursor stop
  | edit :: edits =>
    source.slice cursor edit.range.start ++ edit.text ++ weave source stop edit.range.stop edits

/-- One of the edits ends before the other starts. -/
def Apart (first second : Edit) : Prop :=
  first.range.stop ≤ second.range.start ∨ second.range.stop ≤ first.range.start

/-- A text comes of a source by edits in the source, each of them behind the ones before it, and by nothing
else. -/
structure Weaves (source : Text) (edits : List Edit) (text : Text) : Prop where
  inside : ∀ edit ∈ edits, edit.range.start ≤ edit.range.stop ∧ edit.range.stop ≤ source.length
  behind : edits.Pairwise fun first second => first.range.stop ≤ second.range.start
  text : text = weave source source.length 0 edits

/-- No edit in order is left out. -/
theorem InOrder.applySorted_eq_weave {source : Text} {low high : Nat} {edits : List Edit}
    (inOrder : InOrder low high edits) :
    applySorted source high low edits = weave source high low edits := by
  induction edits generalizing low with
  | nil => rfl
  | cons edit edits inductionHypothesis =>
      obtain ⟨first, _, rest⟩ := inOrder
      rw [applySorted, if_neg (Nat.not_lt.mpr first), inductionHypothesis rest, weave]

theorem InOrder.behind {low high : Nat} {edits : List Edit} (inOrder : InOrder low high edits) :
    edits.Pairwise fun first second => first.range.stop ≤ second.range.start := by
  induction edits generalizing low with
  | nil => exact .nil
  | cons edit edits inductionHypothesis =>
      obtain ⟨_, _, rest⟩ := inOrder
      exact .cons (fun other member => (rest.bounds other member).1) (inductionHypothesis rest)

theorem InOrder.weaves {source : Text} {edits : List Edit} (inOrder : InOrder 0 source.length edits) :
    Weaves source edits (applySorted source source.length 0 edits) where
  inside edit member := (inOrder.bounds edit member).2
  behind := inOrder.behind
  text := inOrder.applySorted_eq_weave

end Edit

namespace Script.Range

/-- The ranges that lie in no larger one of them. -/
def outermost (ranges : List Range) : List Range :=
  ranges.filter fun range => !ranges.any fun other => other.contains range && other ≠ range

/-- Ranges that hold something, between two positions. -/
def Between (low high : Nat) (ranges : List Range) : Prop :=
  ∀ range ∈ ranges, low ≤ range.start ∧ range.start < range.stop ∧ range.stop ≤ high

theorem Between.append {low middle high : Nat} {first second : List Range}
    (firstBetween : Between low middle first) (secondBetween : Between middle high second)
    (below : low ≤ middle) (above : middle ≤ high) : Between low high (first ++ second) := by
  intro range member
  cases List.mem_append.mp member with
  | inl inFirst =>
      have bounds := firstBetween range inFirst
      omega
  | inr inSecond =>
      have bounds := secondBetween range inSecond
      omega

/-- Ranges in front of a position and ranges behind it do not lie in each other. -/
theorem outermost_append {low middle high : Nat} {first second : List Range}
    (firstBetween : Between low middle first) (secondBetween : Between middle high second) :
    outermost (first ++ second) = outermost first ++ outermost second := by
  have apart : ∀ range ∈ first, ∀ other ∈ second,
      other.contains range = false ∧ range.contains other = false := by
    intro range inFirst other inSecond
    have bounds := firstBetween range inFirst
    have otherBounds := secondBetween other inSecond
    simp only [contains_eq_false_iff]
    omega
  rw [outermost, List.filter_append]
  apply congrArg₂
  · apply List.filter_congr
    intro range member
    have none : (second.any fun other => other.contains range && Decidable.decide (other ≠ range)) =
        false := by
      apply List.any_eq_false.mpr
      intro other inSecond
      simp [(apart range member other inSecond).1]
    rw [List.any_append, none, Bool.or_false]
  · apply List.filter_congr
    intro range member
    have none : (first.any fun other => other.contains range && Decidable.decide (other ≠ range)) =
        false := by
      apply List.any_eq_false.mpr
      intro other inFirst
      simp [(apart other inFirst range member).2]
    rw [List.any_append, none, Bool.false_or]

/-- A range around smaller ones is the only one that counts. -/
theorem outermost_concat {low high : Nat} {inner : List Range} {outer : Range}
    (between : Between low high inner) (begins : outer.start < low) (ends : high ≤ outer.stop) :
    outermost (inner ++ [outer]) = [outer] := by
  have inside : ∀ range ∈ inner, outer.contains range = true ∧ range.contains outer = false ∧
      outer ≠ range := by
    intro range member
    have bounds := between range member
    have begins : outer.start < range.start := by omega
    simp only [contains_iff, contains_eq_false_iff]
    refine ⟨by omega, by omega, ?_⟩
    intro same
    rw [same] at begins
    exact Nat.lt_irrefl _ begins
  rw [outermost, List.filter_append]
  have swallowed : inner.filter (fun range => !(inner ++ [outer]).any fun other =>
      other.contains range && Decidable.decide (other ≠ range)) = [] := by
    apply List.filter_eq_nil_iff.mpr
    intro range member
    simp [(inside range member).1, (inside range member).2.2]
  have alone : ((inner ++ [outer]).any fun other =>
      other.contains outer && Decidable.decide (other ≠ outer)) = false := by
    apply List.any_eq_false.mpr
    intro other member
    cases List.mem_append.mp member with
    | inl inInner => simp [(inside other inInner).2.1]
    | inr isOuter => simp [List.mem_singleton.mp isOuter]
  rw [swallowed, List.nil_append, List.filter_cons_of_pos (by rw [alone]; rfl), List.filter_nil]

end Script.Range

namespace Instrument

open Script

variable {source : Text} {callees : List Text} {marker : Text}

/-- A marked call begins with a name. -/
theorem exists_callee_of_marked {role : Option Role} {kind : Kind} {children : List Tree} {start : Nat}
    {marked : MarkedCall}
    (found : MarkedCall.ofPlace? callees marker ⟨.node role kind children, [], start⟩ = some marked)
    (wellFormed : (Script.Tree.node role kind children).WellFormed) :
    ∃ name rest, children = .leaf (some .callee) .identifier name :: rest ∧ 0 < name.length := by
  obtain ⟨_, isCall, isList, _⟩ := MarkedCall.ofPlace?_eq_some found
  have isSome := MarkedCall.isSome_ofPlace? callees marker ⟨.node role kind children, [], start⟩
  rw [found, Option.isSome_some, eq_comm, Tree.isMarked, Bool.and_eq_true, Bool.and_eq_true] at isSome
  have list := map_focus_argumentList? ⟨.node role kind children, [], start⟩
  rw [isList, Option.map_some, eq_comm] at list
  obtain ⟨_, callee, middle, inner, same, isCallee, _, _⟩ := Tree.call_shape wellFormed isCall list
  obtain ⟨rfl, rfl, rfl⟩ := Script.Tree.node.inj same
  obtain ⟨name, called, _⟩ := (Option.any_eq_true _ _).mp isSome.1.2
  have calleeWellFormed := wellFormed.children callee (by simp)
  obtain rfl := Tree.callee_shape calleeWellFormed isCallee called
  obtain ⟨first, rest, rfl, _⟩ := calleeWellFormed.leafShape.name rfl
  exact ⟨first :: rest, _, rfl, Nat.succ_pos _⟩

/-- The ranges of the marked calls among some places. -/
def markedRanges (callees : List Text) (marker : Text) (places : List Place) : List Range :=
  (places.filterMap (MarkedCall.ofPlace? callees marker)).map (·.call.range)

theorem markedRanges_append (first second : List Place) :
    markedRanges callees marker (first ++ second) =
      markedRanges callees marker first ++ markedRanges callees marker second := by
  rw [markedRanges, List.filterMap_append, List.map_append]
  rfl

theorem markedRanges_leaf (role : Option Role) (kind : Kind) (letters : Text) (above : List Frame)
    (start : Nat) : markedRanges callees marker
      (Place.childrenFirst (.leaf role kind letters) above start) = [] := by
  rw [markedRanges, Place.childrenFirst,
    List.filterMap_cons_none (MarkedCall.ofPlace?_leaf callees marker role kind letters above start)]
  rfl

/-- The pending edits of a tree are for its marked calls that stand in no other. -/
theorem ranges_of_pending {tree : Tree} (wellFormed : tree.WellFormed) (above : List Frame)
    (start : Nat) :
    Range.Between start (start + tree.width)
        (markedRanges callees marker (Place.childrenFirst tree above start)) ∧
      (pending source callees marker tree start).map (·.range) =
        Range.outermost (markedRanges callees marker (Place.childrenFirst tree above start)) := by
  induction tree using Tree.childInduction generalizing above start with
  | leaf role kind letters =>
      rw [markedRanges_leaf]
      exact ⟨nofun, rfl⟩
  | node role kind children childHypothesis =>
      have among : ∀ (trees left : List Tree) (start : Nat), (∀ tree ∈ trees, tree ∈ children) →
          Range.Between start (start + Tree.widthOfAll trees) (markedRanges callees marker
              (Place.childrenFirst.amongChildren role kind above left start trees)) ∧
            (pending.among source callees marker trees start).map (·.range) =
              Range.outermost (markedRanges callees marker
                (Place.childrenFirst.amongChildren role kind above left start trees)) := by
        intro trees
        induction trees with
        | nil => intro _ _ _; exact ⟨nofun, rfl⟩
        | cons tree rest restHypothesis =>
            intro left start inside
            have member := inside tree List.mem_cons_self
            obtain ⟨between, outermost⟩ := childHypothesis tree member
              (wellFormed.children tree member) (⟨role, kind, left, rest⟩ :: above) start
            obtain ⟨restBetween, restOutermost⟩ := restHypothesis (tree :: left) (start + tree.width)
              fun other member => inside other (List.mem_cons_of_mem tree member)
            rw [Place.childrenFirst.amongChildren, markedRanges_append, Tree.widthOfAll_cons,
              ← Nat.add_assoc, pending.among, List.map_append, outermost, restOutermost,
              Range.outermost_append between restBetween]
            exact ⟨between.append restBetween (Nat.le_add_right _ _) (Nat.le_add_right _ _), rfl⟩
      have own := MarkedCall.ofPlace?_lift callees marker (.node role kind children) above start
      rw [Place.childrenFirst, markedRanges_append]
      cases found : MarkedCall.ofPlace? callees marker ⟨.node role kind children, [], start⟩ with
      | none =>
          rw [found] at own
          have nothing : markedRanges callees marker [⟨.node role kind children, above, start⟩] = [] := by
            rw [markedRanges, List.filterMap_cons_none own]
            rfl
          rw [pending_unmarked found, nothing, List.append_nil]
          exact among children [] start fun _ member => member
      | some marked =>
          rw [found] at own
          have range_eq := range_of_marked found
          have notEmpty := width_of_marked found wellFormed
          have whole : markedRanges callees marker [⟨.node role kind children, above, start⟩] =
              [marked.call.range] := by
            rw [markedRanges, List.filterMap_cons_some own]
            rfl
          obtain ⟨name, rest, rfl, named⟩ := exists_callee_of_marked found wellFormed
          -- What is called is a name, so the calls inside stand behind the start of the call.
          obtain ⟨between, _⟩ := among rest [.leaf (some .callee) .identifier name]
            (start + name.length) fun child member => List.mem_cons_of_mem _ member
          rw [whole, Place.childrenFirst.amongChildren, markedRanges_append, markedRanges_leaf,
            List.nil_append, Tree.width_leaf, pending_marked found]
          have begins : marked.call.range.start = start := by rw [range_eq]
          have ends : marked.call.range.stop = start + name.length + Tree.widthOfAll rest := by
            rw [range_eq, Nat.add_assoc]
            rfl
          have width : (Script.Tree.node role kind (.leaf (some .callee) .identifier name :: rest)).width =
              name.length + Tree.widthOfAll rest := rfl
          have inFront : marked.call.range.start < start + name.length := by omega
          have asFar : start + name.length + Tree.widthOfAll rest ≤ marked.call.range.stop := by omega
          refine ⟨?_, (Range.outermost_concat between inFront asFar).symm⟩
          intro range member
          cases List.mem_append.mp member with
          | inl inside =>
              have bounds := between range inside
              omega
          | inr isWhole =>
              rw [List.mem_singleton.mp isWhole]
              omega

/-- The declaration that an injection adds. -/
def declarationEdits (source : Text) (tree : Tree) (directory : Path)
    (instrumentation : Instrumentation) (outcome : Outcome) : List Edit :=
  if outcome.importAdded then
    [insertDeclaration source tree (importDeclaration instrumentation directory)]
  else []

/-- The marked calls that an injection puts in the place of imports. -/
def callEdits (source : Text) (tree : Tree) (names : Text × List Text) (marker : Text) : List Edit :=
  ((dynamicImports tree).map (decide source names.1 marker names.2)).filterMap Decision.edit?

/-- The deletion of the import of the entry point. -/
def deletionEdits (source : Text) (binding : Option ImportBinding) (outcome : Outcome) : List Edit :=
  if outcome.importRemoved then
    binding.toList.map fun found => ⟨lineRange source found.statement.range, []⟩
  else []

/-- The edits that lie in no deletion, and the deletions, in the order in which they stand. -/
def remainingEdits (edits deletions : List Edit) : List Edit :=
  Edit.sorted (edits.filter (fun edit => !deletions.any (·.range.contains edit.range)) ++ deletions)

/-- All edits of an injection are applied. -/
theorem injectTree_edits {statements : List Tree} (directory : Path)
    (instrumentation : Instrumentation)
    (wellFormed : (Script.Tree.node none .program statements).WellFormed)
    (same : (Script.Tree.node none .program statements).text = source)
    {binding : Option ImportBinding}
    (bound : findBinding? (.node none .program statements) directory instrumentation.modulePath =
      binding) {outcome : Outcome}
    (injected : injectTree source (.node none .program statements) directory instrumentation =
      outcome) :
    let declaration :=
      declarationEdits source (.node none .program statements) directory instrumentation outcome
    let replacements := callEdits source (.node none .program statements)
      (instrumentation.localNames binding) instrumentation.marker
    outcome.textOr source = Edit.applyAll source (declaration ++ replacements) ∧
      Edit.Weaves source (declaration ++ replacements) (outcome.textOr source) ∧
      (∀ edit ∈ declaration, edit.range.start = edit.range.stop) ∧
      declaration.length = (if outcome.importAdded then 1 else 0) ∧
      replacements.length = outcome.rewritten := by
  intro declaration replacements
  have inOrder := insert_rewrites_inOrder (instrumentation.localNames binding).2
    (instrumentation.localNames binding).1 instrumentation.marker wellFormed same
  rw [← edits_eq _ _ instrumentation.marker wellFormed same] at inOrder
  have added := insertDeclaration_eq (importDeclaration instrumentation directory) same
  have isAdded : outcome.importAdded = binding.isNone := by
    subst injected
    simp only [injectTree, bound]
    cases binding <;> rfl
  have rewritten : replacements.length = outcome.rewritten := by
    subst injected
    simp only [injectTree, bound]
    rfl
  have ordered : Edit.InOrder 0 source.length (declaration ++ replacements) := by
    show Edit.InOrder 0 source.length (declarationEdits _ _ _ _ _ ++ _)
    rw [declarationEdits, isAdded, added]
    cases binding with
    | some found => exact inOrder none
    | none => exact inOrder (some _)
  have applied : outcome.textOr source = Edit.applyAll source (declaration ++ replacements) := by
    show _ = Edit.applyAll source (declarationEdits _ _ _ _ _ ++ callEdits _ _ _ _)
    rw [declarationEdits, isAdded, callEdits]
    subst injected
    simp only [injectTree, bound, Outcome.textOr]
    generalize List.filterMap Decision.edit? _ = edits
    cases binding with
    | some found =>
        cases edits with
        | nil => exact (Edit.applyAll_nil source).symm
        | cons => rfl
    | none => simp
  refine ⟨applied, ?_, ?_, ?_, rewritten⟩
  · rw [applied, ordered.applyAll_eq]
    exact ordered.weaves
  · show ∀ edit ∈ declarationEdits _ _ _ _ _, _
    rw [declarationEdits, added]
    split
    · intro edit member
      rw [List.mem_singleton.mp member]
      rfl
    · intro edit member
      exact absurd member List.not_mem_nil
  · show (declarationEdits _ _ _ _ _).length = _
    rw [declarationEdits]
    split <;> rfl

namespace Around

variable (around : Around)

/-- What is left beside the deletion of the line is in front of it or behind it. -/
theorem remainingEdits_eq :
    remainingEdits (pending around.text callees marker around.tree 0) [⟨around.line, []⟩] =
      pending.among around.text callees marker around.before 0 ++ ⟨around.line, []⟩ ::
        pending.among around.text callees marker around.after around.statement.stop := by
  have extent := around.line_solid
  have solid : ∀ edit ∈ pending around.text callees marker around.tree 0,
      edit.range.start < edit.range.stop := pending_solid around.wellFormed
  rw [around.pending_eq] at solid
  have kept : (pending around.text callees marker around.tree 0).filter (fun edit =>
        !([⟨around.line, []⟩] : List Edit).any (·.range.contains edit.range)) =
      pending.among around.text callees marker around.before 0 ++
        pending.among around.text callees marker around.after around.statement.stop := by
    simp only [List.any_cons, List.any_nil, Bool.or_false]
    rw [around.pending_eq, List.filter_append, List.filter_append]
    apply congrArg₂
    · apply List.filter_eq_self.mpr
      intro edit member
      have bounds := around.before_inOrder.bounds edit member
      have notEmpty := solid edit (List.mem_append_left _ member)
      rw [Bool.not_eq_true', Range.contains_eq_false_iff]
      omega
    · rw [List.filter_eq_nil_iff.mpr, List.nil_append]
      · apply List.filter_eq_self.mpr
        intro edit member
        have bounds := around.after_inOrder.bounds edit member
        have notEmpty := solid edit (List.mem_append_right _ (List.mem_append_right _ member))
        rw [Bool.not_eq_true', Range.contains_eq_false_iff]
        omega
      · intro edit member
        have bounds := around.declaration_inOrder.bounds edit member
        rw [Bool.not_eq_true', Bool.not_eq_false, Range.contains_iff]
        omega
  have behind : (pending.among around.text callees marker around.after around.statement.stop).foldr
      Edit.insertSorted [⟨around.line, []⟩] =
        ⟨around.line, []⟩ ::
          pending.among around.text callees marker around.after around.statement.stop :=
    Edit.foldr_insertSorted_behind extent around.after_inOrder
  have front : (pending.among around.text callees marker around.before 0).foldr Edit.insertSorted
      (⟨around.line, []⟩ ::
        pending.among around.text callees marker around.after around.statement.stop) =
        pending.among around.text callees marker around.before 0 ++ ⟨around.line, []⟩ ::
          pending.among around.text callees marker around.after around.statement.stop :=
    Edit.foldr_insertSorted_front (Nat.le_of_lt extent) around.before_inOrder
  rw [remainingEdits, kept, List.append_assoc, Edit.sorted, List.foldr_append, List.foldr_append]
  show (pending.among around.text callees marker around.before 0).foldr Edit.insertSorted
    ((pending.among around.text callees marker around.after around.statement.stop).foldr
      Edit.insertSorted [⟨around.line, []⟩]) = _
  rw [behind, front]

/-- Beside the deletion of the line all that is left is applied. -/
theorem weaves_remainingEdits :
    Edit.Weaves around.text
      (remainingEdits (pending around.text callees marker around.tree 0) [⟨around.line, []⟩])
      (Edit.applyAll around.text
        (pending around.text callees marker around.tree 0 ++ [⟨around.line, []⟩])) := by
  have extent := around.line_solid
  have ordered : Edit.InOrder 0 around.text.length
      (pending.among around.text callees marker around.before 0 ++ ⟨around.line, []⟩ ::
        pending.among around.text callees marker around.after around.statement.stop) := by
    apply around.before_inOrder.append
    exact ⟨Nat.le_refl _, Nat.le_of_lt extent, around.after_inOrder⟩
  rw [around.remainingEdits_eq, around.applyAll_eq, ← Edit.applySorted_cut around.before_inOrder]
  exact ordered.weaves

/-- An edit is apart from the deletion of the line unless it lies in the line. -/
theorem apart_line_iff {edit : Edit}
    (member : edit ∈ pending around.text callees marker around.tree 0) :
    Edit.Apart edit ⟨around.line, []⟩ ↔ around.line.contains edit.range = false := by
  have extent := around.line_solid
  have notEmpty := pending_solid around.wellFormed edit member
  have ends := around.clean edit member
  rw [Edit.Apart, Range.contains_eq_false_iff]
  show edit.range.stop ≤ around.line.start ∨ around.line.stop ≤ edit.range.start ↔ _
  omega

end Around

/-- A removal applies the edits of its calls, and the deletion of a line if it deletes the import. -/
theorem removeTree_deletion {tree : Tree} (directory : Path) (instrumentation : Instrumentation)
    {binding : Option ImportBinding}
    (bound : findBinding? tree directory instrumentation.modulePath = binding)
    (named : (instrumentation.localNames binding).2 = callees) {outcome : Outcome}
    (removed : removeTree source tree directory instrumentation = outcome) :
    let replacements := (unwrapAll source (markedCalls callees instrumentation.marker tree)).edits
    (outcome.importRemoved = false ∧ deletionEdits source binding outcome = [] ∧
        outcome.textOr source = Edit.applyAll source replacements) ∨
      ∃ found, binding = some found ∧ outcome.importRemoved = true ∧
        deletionEdits source binding outcome = [⟨lineRange source found.statement.range, []⟩] ∧
        outcome.textOr source =
          Edit.applyAll source (replacements ++ deletionEdits source binding outcome) := by
  intro replacements
  have possible := removeTree_cases source tree directory instrumentation bound named
  rw [removed] at possible
  obtain ⟨nothing, rfl⟩ | ⟨deleted, text, isRemoved, rfl | ⟨found, isFound, rfl⟩⟩ := possible
  · refine .inl ⟨rfl, rfl, ?_⟩
    show source = Edit.applyAll source (unwrapAll source (markedCalls _ _ _)).edits
    rw [nothing]
    exact (Edit.applyAll_nil source).symm
  · rw [List.append_nil] at text
    refine .inl ⟨isRemoved, ?_, ?_⟩
    · rw [deletionEdits, isRemoved]
      rfl
    · rw [Outcome.textOr, text]
      rfl
  · refine .inr ⟨found, isFound, isRemoved, ?_⟩
    rw [deletionEdits, isRemoved, isFound, Outcome.textOr, text]
    exact ⟨rfl, rfl⟩

/-- Of the edits of a removal those are applied that do not lie in the deletion. -/
theorem removeTree_edits {statements : List Tree} (directory : Path)
    (instrumentation : Instrumentation)
    (wellFormed : (Script.Tree.node none .program statements).WellFormed)
    (same : (Script.Tree.node none .program statements).text = source)
    {binding : Option ImportBinding}
    (bound : findBinding? (.node none .program statements) directory instrumentation.modulePath =
      binding) (named : (instrumentation.localNames binding).2 = callees) {outcome : Outcome}
    (removed : removeTree source (.node none .program statements) directory instrumentation =
      outcome) :
    let calls := markedCalls callees instrumentation.marker (.node none .program statements)
    let ranges := Range.outermost (calls.map (·.call.range))
    let replacements := (unwrapAll source calls).edits
    let deletion := deletionEdits source binding outcome
    outcome.textOr source = Edit.applyAll source (replacements ++ deletion) ∧
      Edit.Weaves source (remainingEdits replacements deletion) (outcome.textOr source) ∧
      replacements.map (·.range) = ranges ∧
      deletion.length = (if outcome.importRemoved then 1 else 0) ∧
      calls.length = outcome.rewritten ∧
      ((replacements ++ deletion).Pairwise Edit.Apart ↔
        ∀ range ∈ ranges, ∀ cut ∈ deletion, cut.range.contains range = false) := by
  intro calls ranges replacements deletion
  have edits : replacements = pending source callees instrumentation.marker
      (.node none .program statements) 0 := unwrapAll_edits wellFormed same
  have places : replacements.map (·.range) = ranges := by
    show _ = Range.outermost (List.map _ (markedCalls _ _ _))
    rw [edits, markedCalls, Place.postorder_eq]
    exact (ranges_of_pending wellFormed [] 0).2
  have ordered : Edit.InOrder 0 source.length replacements := by
    have inOrder := pending_inOrder source callees instrumentation.marker
      (.node none .program statements) 0
    rwa [Tree.width_eq, same, Nat.zero_add, ← edits] at inOrder
  have disjoint : replacements.Pairwise Edit.Apart := ordered.behind.imp .inl
  have counted : calls.length = outcome.rewritten := by
    rw [← removed, removeTree_rewritten, bound, named]
    exact length_markedCalls _
  have alone : remainingEdits replacements [] = replacements := by
    simp only [remainingEdits, List.any_nil, Bool.not_false, List.filter_true, List.append_nil]
    exact ordered.sorted_eq
  have cases : (outcome.importRemoved = false ∧ deletion = [] ∧
        outcome.textOr source = Edit.applyAll source replacements) ∨
      ∃ found, binding = some found ∧ outcome.importRemoved = true ∧
        deletion = [⟨lineRange source found.statement.range, []⟩] ∧
        outcome.textOr source = Edit.applyAll source (replacements ++ deletion) :=
    removeTree_deletion directory instrumentation bound named removed
  obtain ⟨stays, nothing, text⟩ | ⟨found, isFound, goes, isDeletion, text⟩ := cases
  · rw [nothing, stays, List.append_nil, alone]
    refine ⟨text, ?_, places, rfl, counted, ?_⟩
    · rw [text, ordered.applyAll_eq]
      exact ordered.weaves
    · refine ⟨?_, fun _ => disjoint⟩
      intro _ range isRange cut isCut
      exact absurd isCut List.not_mem_nil
  · obtain ⟨around, isTree, isStatement⟩ := exists_around wellFormed (bound.trans isFound)
    have isText : around.text = source := by
      rw [← around.text_tree, isTree, same]
    have isLine : around.line = lineRange source found.statement.range := by
      rw [Around.line, isText, isStatement]
    rw [← isText, ← isTree] at edits
    rw [← isLine] at isDeletion
    rw [goes, isDeletion]
    rw [isDeletion] at text
    refine ⟨text, ?_, places, rfl, counted, ?_⟩
    · rw [text, edits, ← isText]
      exact around.weaves_remainingEdits
    · rw [← places, List.forall_mem_map, List.pairwise_append]
      refine ⟨?_, ?_⟩
      · rintro ⟨-, -, apart⟩ edit member cut isCut
        have between := apart edit member cut isCut
        rw [List.mem_singleton.mp isCut] at between ⊢
        rw [edits] at member
        exact (around.apart_line_iff member).mp between
      · intro outside
        refine ⟨disjoint, List.pairwise_singleton _ _, ?_⟩
        intro edit member cut isCut
        have notIn := outside edit member cut isCut
        rw [List.mem_singleton.mp isCut] at notIn ⊢
        rw [edits] at member
        exact (around.apart_line_iff member).mpr notIn

/-- All edits of an injection are applied, one behind the other: the marked calls that it counts, and the
declaration if it adds one. A removal has one edit for each marked call that stands in no other, and the
deletion of a line if it deletes one. The edits that do not lie in the line are applied, so all of them
are unless a marked call stands in the deleted line. -/
theorem edits_applied (workingDirectory file : Path) (instrumentation : Instrumentation)
    {tree : Tree} (parsed : parse? source = some tree) :
    let directory := directoryOf workingDirectory file
    let binding := findBinding? tree directory instrumentation.modulePath
    let names := instrumentation.localNames binding
    let calls := markedCalls names.2 instrumentation.marker tree
    ∃ injected removed,
      inject? workingDirectory source file instrumentation = some injected ∧
      remove? workingDirectory source file instrumentation = some removed ∧
      (let declaration := declarationEdits source tree directory instrumentation injected
        let replacements := callEdits source tree names instrumentation.marker
        injected.textOr source = Edit.applyAll source (declaration ++ replacements) ∧
          Edit.Weaves source (declaration ++ replacements) (injected.textOr source) ∧
          (∀ edit ∈ declaration, edit.range.start = edit.range.stop) ∧
          declaration.length = (if injected.importAdded then 1 else 0) ∧
          replacements.length = injected.rewritten) ∧
      (let ranges := Range.outermost (calls.map (·.call.range))
        let replacements := (unwrapAll source calls).edits
        let deletion := deletionEdits source binding removed
        removed.textOr source = Edit.applyAll source (replacements ++ deletion) ∧
          Edit.Weaves source (remainingEdits replacements deletion) (removed.textOr source) ∧
          replacements.map (·.range) = ranges ∧
          deletion.length = (if removed.importRemoved then 1 else 0) ∧
          calls.length = removed.rewritten ∧
          ((replacements ++ deletion).Pairwise Edit.Apart ↔
            ∀ range ∈ ranges, ∀ cut ∈ deletion, cut.range.contains range = false)) := by
  intro directory binding names calls
  obtain ⟨same, wellFormed, statements, rfl⟩ := parse?_sound parsed
  refine ⟨_, _, ?_, ?_, injectTree_edits directory instrumentation wellFormed same rfl rfl,
    removeTree_edits directory instrumentation wellFormed same rfl rfl rfl⟩
  · rw [inject?, injectBy?, parsed, Option.map_some]
  · rw [remove?, removeBy?, parsed, Option.map_some]

/-- A marked call with another one in its path, beside an import of the entry point. -/
def callBesideImport : Text := "import p from './p';p(p('a',u,null,'m'),u,null,'m')".toList

theorem edits_applied_callBesideImport :
    ∃ tree removed, parse? callBesideImport = some tree ∧
      remove? ⟨['/']⟩ callBesideImport ⟨"/f".toList⟩ smallEntry = some removed ∧
      removed.rewritten = 2 ∧ removed.importRemoved = true ∧
      removed.textOr callBesideImport = "import(import('a'))".toList ∧
      (unwrapAll callBesideImport (markedCalls ["p".toList] "m".toList tree)).edits.map (·.range) =
        [⟨20, 51⟩] := by
  have checked : (parse? callBesideImport).any (fun tree =>
      Decidable.decide ((smallEntry.localNames (findBinding? tree (directoryOf ⟨['/']⟩ ⟨"/f".toList⟩)
        smallEntry.modulePath)).2 = ["p".toList]) &&
      Decidable.decide (Range.outermost ((markedCalls ["p".toList] "m".toList tree).map
        (·.call.range)) = [⟨20, 51⟩])) = true := by
    decide +kernel
  have computed : remove? ⟨['/']⟩ callBesideImport ⟨"/f".toList⟩ smallEntry =
      some ⟨some "import(import('a'))".toList, 2, false, true, [], none⟩ := by
    decide +kernel
  obtain ⟨tree, parsed, checked⟩ := (Option.any_eq_true _ _).mp checked
  rw [Bool.and_eq_true, decide_eq_true_eq, decide_eq_true_eq] at checked
  obtain ⟨_, removed, _, isRemoved, _, removal⟩ :=
    edits_applied ⟨['/']⟩ ⟨"/f".toList⟩ smallEntry parsed
  have places := removal.2.2.1
  rw [checked.1] at places
  have outermost := checked.2
  rw [computed] at isRemoved
  cases isRemoved
  exact ⟨tree, _, parsed, computed, rfl, rfl, rfl, places.trans outermost⟩

/-- An import of the entry point with a marked call among its attributes. -/
def callInImport : Text := "import p from './p' with\x7ba:p('x',u,null,'m')\x7d".toList

/-- The call in the deleted line counts as rewritten, and nothing of it is left. -/
theorem edits_applied_callInImport :
    remove? ⟨['/']⟩ callInImport ⟨"/f".toList⟩ smallEntry =
      some ⟨some [], 1, false, true, [], none⟩ := by
  decide +kernel

end Instrument

end ImportMeter
