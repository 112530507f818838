/-
This file proves that removal unwraps marked calls from the outside to the inside. The code goes
through the calls from the inside to the outside and keeps a list of edits; the list always holds
the outermost calls of what has been walked.
-/
import ImportMeter.Proofs.Script.Walk
import ImportMeter.Proofs.Script.Child
import ImportMeter.Proofs.Edit
import ImportMeter.Instrument.Remove

namespace ImportMeter.Instrument

open Script

section

variable (source : Text) (callees : List Text) (marker : Text)

/-- The text of a tree in a range of the source, where every outermost marked call that lies in the range
is an import again. -/
def unwrapIn : Tree → Range → Nat → Text
  | .leaf _ _ letters, range, start => letters.slice (range.start - start) (range.stop - start)
  | .node role kind children, range, start =>
    match MarkedCall.ofPlace? callees marker ⟨.node role kind children, [], start⟩ with
    | some marked =>
      if range.contains marked.call.range then
        "import(".toList ++ among children (keptRange marked) start ++
          trailOf source marked ++ [')']
      else among children range start
    | none => among children range start
where
  among : List Tree → Range → Nat → Text
    | [], _, _ => []
    | tree :: rest, range, start =>
      unwrapIn tree range start ++ among rest range (start + tree.width)

/-- The edits that unwrap the outermost marked calls of a tree. -/
def pending : Tree → Nat → List Edit
  | .leaf _ _ _, _ => []
  | .node role kind children, start =>
    match MarkedCall.ofPlace? callees marker ⟨.node role kind children, [], start⟩ with
    | some marked =>
      [⟨marked.call.range,
        unwrapIn source callees marker (.node role kind children) marked.call.range start⟩]
    | none => among children start
where
  among : List Tree → Nat → List Edit
    | [], _ => []
    | tree :: rest, start => pending tree start ++ among rest (start + tree.width)

end

variable {source : Text} {callees : List Text} {marker : Text}

theorem unwrapIn_marked {role : Option Role} {kind : Kind} {children : List Tree} {range : Range}
    {start : Nat} {marked : MarkedCall}
    (found : MarkedCall.ofPlace? callees marker ⟨.node role kind children, [], start⟩ = some marked)
    (contained : range.contains marked.call.range = true) :
    unwrapIn source callees marker (.node role kind children) range start =
      "import(".toList ++ unwrapIn.among source callees marker children (keptRange marked) start ++
        trailOf source marked ++ [')'] := by
  rw [unwrapIn]
  simp only [found, contained, if_true]

theorem unwrapIn_unmarked {role : Option Role} {kind : Kind} {children : List Tree} {range : Range}
    {start : Nat}
    (unmarked : MarkedCall.ofPlace? callees marker ⟨.node role kind children, [], start⟩ = none) :
    unwrapIn source callees marker (.node role kind children) range start =
      unwrapIn.among source callees marker children range start := by
  rw [unwrapIn]
  simp only [unmarked]

theorem pending_marked {role : Option Role} {kind : Kind} {children : List Tree} {start : Nat}
    {marked : MarkedCall}
    (found : MarkedCall.ofPlace? callees marker ⟨.node role kind children, [], start⟩ = some marked) :
    pending source callees marker (.node role kind children) start =
      [⟨marked.call.range,
        unwrapIn source callees marker (.node role kind children) marked.call.range start⟩] := by
  rw [pending]
  simp only [found]

theorem pending_unmarked {role : Option Role} {kind : Kind} {children : List Tree} {start : Nat}
    (unmarked : MarkedCall.ofPlace? callees marker ⟨.node role kind children, [], start⟩ = none) :
    pending source callees marker (.node role kind children) start =
      pending.among source callees marker children start := by
  rw [pending]
  simp only [unmarked]

/-- A marked call stands where its tree stands. -/
theorem range_of_marked {tree : Tree} {start : Nat} {marked : MarkedCall}
    (found : MarkedCall.ofPlace? callees marker ⟨tree, [], start⟩ = some marked) :
    marked.call.range = ⟨start, start + tree.width⟩ := by
  rw [(MarkedCall.ofPlace?_eq_some found).1]
  rfl

/-- A marked call is not empty. -/
theorem width_of_marked {tree : Tree} {start : Nat} {marked : MarkedCall}
    (found : MarkedCall.ofPlace? callees marker ⟨tree, [], start⟩ = some marked)
    (wellFormed : tree.WellFormed) : 0 < tree.width := by
  obtain ⟨role, before, own, front, after, behind, same, _⟩ := MarkedCall.split found wellFormed
  have same : tree = _ := same
  rw [same]
  simp only [Tree.width_node, Tree.widthOfAll_append, Tree.widthOfAll_cons, Tree.width_leaf,
    List.cons_append, List.length_singleton]
  omega

/-- The edits for neighbouring trees stand in order if those for each of them do. -/
theorem pendingAmong_inOrder_of (trees : List Tree) (start : Nat)
    (each : ∀ tree ∈ trees, ∀ start,
      Edit.InOrder start (start + tree.width) (pending source callees marker tree start)) :
    Edit.InOrder start (start + Tree.widthOfAll trees)
      (pending.among source callees marker trees start) := by
  induction trees generalizing start with
  | nil => exact Nat.le_refl _
  | cons tree rest inductionHypothesis =>
      have first := each tree List.mem_cons_self start
      have others := inductionHypothesis (start + tree.width) fun other member =>
        each other (List.mem_cons_of_mem tree member)
      rw [Tree.widthOfAll_cons, ← Nat.add_assoc]
      exact first.append others

theorem pending_inOrder (source : Text) (callees : List Text) (marker : Text) (tree : Tree)
    (start : Nat) :
    Edit.InOrder start (start + tree.width) (pending source callees marker tree start) := by
  induction tree using Tree.childInduction generalizing start with
  | leaf role kind letters => exact Nat.le_add_right _ _
  | node role kind children childHypothesis =>
      rw [pending]
      split
      next marked found =>
        rw [range_of_marked found]
        exact ⟨Nat.le_refl _, Nat.le_add_right _ _, Nat.le_refl _⟩
      next => exact pendingAmong_inOrder_of children start childHypothesis

theorem pendingAmong_inOrder (source : Text) (callees : List Text) (marker : Text)
    (trees : List Tree) (start : Nat) :
    Edit.InOrder start (start + Tree.widthOfAll trees)
      (pending.among source callees marker trees start) :=
  pendingAmong_inOrder_of trees start fun tree _ => pending_inOrder source callees marker tree

/-- Outside of a tree there is nothing of it. -/
theorem unwrapIn_apart {tree : Tree} {range : Range} {start : Nat} (wellFormed : tree.WellFormed)
    (apart : start + tree.width ≤ range.start ∨ range.stop ≤ start) :
    unwrapIn source callees marker tree range start = [] := by
  induction tree using Tree.childInduction generalizing start with
  | leaf role kind letters =>
      rw [Tree.width_leaf] at apart
      rw [unwrapIn, Text.slice, List.take_eq_nil_iff, List.drop_eq_nil_iff]
      omega
  | node role kind children childHypothesis =>
      have among : ∀ (trees : List Tree) (start : Nat), (∀ tree ∈ trees, tree ∈ children) →
          (start + Tree.widthOfAll trees ≤ range.start ∨ range.stop ≤ start) →
          unwrapIn.among source callees marker trees range start = [] := by
        intro trees
        induction trees with
        | nil => intro _ _ _; rfl
        | cons tree rest restHypothesis =>
            intro start inside apart
            rw [Tree.widthOfAll_cons] at apart
            have member := inside tree List.mem_cons_self
            have first := childHypothesis tree member (wellFormed.children tree member)
              (show start + tree.width ≤ range.start ∨ range.stop ≤ start by omega)
            have others := restHypothesis (start + tree.width)
              (fun other member => inside other (List.mem_cons_of_mem tree member)) (by omega)
            rw [unwrapIn.among, first, others]
            rfl
      have none := among children start (fun _ member => member) apart
      rw [unwrapIn]
      split
      next marked found =>
        have notEmpty := width_of_marked found wellFormed
        rw [range_of_marked found]
        have outside : range.contains ⟨start, start + (Script.Tree.node role kind children).width⟩ = false := by
          simp only [Range.contains_eq_false_iff]
          omega
        rw [outside, if_neg Bool.false_ne_true, none]
      next => exact none

/-- The parts of neighbouring trees are put together from the parts of each of them. -/
theorem applySortedAmong_of {trees : List Tree} {range : Range} {start : Nat}
    (each : ∀ tree ∈ trees, ∀ start, Text.StandsAt source start tree.text →
      (∀ edit ∈ pending source callees marker tree start,
        range.contains edit.range = true ∨ edit.range.stop ≤ range.start ∨
          range.stop ≤ edit.range.start) →
      Edit.applySorted source (Edit.clamp range (start + tree.width)) (Edit.clamp range start)
          ((pending source callees marker tree start).filter fun edit => range.contains edit.range) =
        unwrapIn source callees marker tree range start)
    (proper : range.start ≤ range.stop)
    (stands : Text.StandsAt source start (Tree.textOfAll trees))
    (clean : ∀ edit ∈ pending.among source callees marker trees start,
      range.contains edit.range = true ∨ edit.range.stop ≤ range.start ∨
        range.stop ≤ edit.range.start) :
    Edit.applySorted source (Edit.clamp range (start + Tree.widthOfAll trees))
        (Edit.clamp range start)
        ((pending.among source callees marker trees start).filter
          fun edit => range.contains edit.range) =
      unwrapIn.among source callees marker trees range start := by
  induction trees generalizing start with
  | nil => exact Text.slice_same source _
  | cons tree rest inductionHypothesis =>
      rw [Tree.textOfAll_cons] at stands
      have restStands := stands.right
      rw [← Tree.width_eq] at restStands
      have first := each tree List.mem_cons_self start stands.left
        fun edit edits => clean edit (List.mem_append_left _ edits)
      have others := inductionHypothesis
        (fun other member => each other (List.mem_cons_of_mem tree member)) restStands
        fun edit edits => clean edit (List.mem_append_right _ edits)
      have firstInOrder := (pending_inOrder source callees marker tree start).clamp proper
      have othersInOrder := (pendingAmong_inOrder source callees marker rest
        (start + tree.width)).clamp proper
      rw [Tree.widthOfAll_cons, ← Nat.add_assoc, pending.among, List.filter_append,
        firstInOrder.applySorted_append othersInOrder, first, others, unwrapIn.among]

/-- What the edits for the outermost marked calls make of the part of a tree in a range, if the range
cuts none of these calls. -/
theorem applySorted_pending {tree : Tree} {range : Range} {start : Nat}
    (wellFormed : tree.WellFormed) (proper : range.start ≤ range.stop)
    (stands : Text.StandsAt source start tree.text)
    (clean : ∀ edit ∈ pending source callees marker tree start,
      range.contains edit.range = true ∨ edit.range.stop ≤ range.start ∨
        range.stop ≤ edit.range.start) :
    Edit.applySorted source (Edit.clamp range (start + tree.width)) (Edit.clamp range start)
        ((pending source callees marker tree start).filter fun edit => range.contains edit.range) =
      unwrapIn source callees marker tree range start := by
  induction tree using Tree.childInduction generalizing start with
  | leaf role kind letters =>
      rw [Tree.text_leaf] at stands
      rw [pending, unwrapIn, List.filter_nil, Edit.applySorted, Tree.width_leaf]
      simp only [Edit.clamp]
      by_cases apart : start + letters.length ≤ range.start ∨ range.stop ≤ start
      · have empty : min (max (start + letters.length) range.start) range.stop ≤
            min (max start range.start) range.stop := by omega
        rw [Text.slice, Text.slice, Nat.sub_eq_zero_of_le empty, List.take_zero, eq_comm,
          List.take_eq_nil_iff, List.drop_eq_nil_iff]
        omega
      · have low : min (max start range.start) range.stop = start + (range.start - start) := by omega
        have high : min (max (start + letters.length) range.start) range.stop =
            start + min letters.length (range.stop - start) := by omega
        rw [low, high, stands.slice_inside (Nat.min_le_left _ _), Text.slice_min]
  | node role kind children childHypothesis =>
      cases found : MarkedCall.ofPlace? callees marker ⟨.node role kind children, [], start⟩ with
      | none =>
          rw [pending_unmarked found] at clean ⊢
          rw [unwrapIn_unmarked found]
          exact applySortedAmong_of
            (fun child member _ => childHypothesis child member (wellFormed.children child member))
            proper stands clean
      | some marked =>
          have notEmpty := width_of_marked found wellFormed
          have range_eq := range_of_marked found
          rw [pending_marked found] at clean ⊢
          rcases clean _ (List.mem_singleton_self _) with contained | apart
          · have contained : range.contains marked.call.range = true := contained
            have bounds := contained
            rw [range_eq] at bounds
            simp only [Range.contains_iff] at bounds
            have low : Edit.clamp range start = start := by
              rw [Edit.clamp]
              omega
            have high : Edit.clamp range (start + (Script.Tree.node role kind children).width) =
                start + (Script.Tree.node role kind children).width := by
              rw [Edit.clamp]
              omega
            have own : marked.call.range.contains marked.call.range = true :=
              Range.contains_self _
            simp only [List.filter_cons, contained, if_true, List.filter_nil]
            rw [low, high, unwrapIn_marked found contained, unwrapIn_marked found own, range_eq]
            simp only [Edit.applySorted, Nat.lt_irrefl, if_false, Text.slice_same, List.nil_append,
              List.append_nil]
          · have apart : start + (Script.Tree.node role kind children).width ≤ range.start ∨
                range.stop ≤ start := by
              rw [range_eq] at apart
              exact apart
            have outside : range.contains marked.call.range = false := by
              rw [range_eq]
              simp only [Range.contains_eq_false_iff]
              omega
            have meet : Edit.clamp range (start + (Script.Tree.node role kind children).width) =
                Edit.clamp range start := by
              simp only [Edit.clamp]
              omega
            simp only [List.filter_cons, outside, List.filter_nil, Bool.false_eq_true, if_false]
            rw [meet, unwrapIn_apart wellFormed apart]
            exact Text.slice_same source _

theorem applySortedAmong_pending {trees : List Tree} {range : Range} {start : Nat}
    (wellFormed : ∀ tree ∈ trees, tree.WellFormed) (proper : range.start ≤ range.stop)
    (stands : Text.StandsAt source start (Tree.textOfAll trees))
    (clean : ∀ edit ∈ pending.among source callees marker trees start,
      range.contains edit.range = true ∨ edit.range.stop ≤ range.start ∨
        range.stop ≤ edit.range.start) :
    Edit.applySorted source (Edit.clamp range (start + Tree.widthOfAll trees))
        (Edit.clamp range start)
        ((pending.among source callees marker trees start).filter
          fun edit => range.contains edit.range) =
      unwrapIn.among source callees marker trees range start :=
  applySortedAmong_of
    (fun tree member _ => applySorted_pending (wellFormed tree member) proper) proper stands clean

/-- Every pending edit replaces something. -/
theorem pending_solid {tree : Tree} {start : Nat} (wellFormed : tree.WellFormed) :
    ∀ edit ∈ pending source callees marker tree start, edit.range.start < edit.range.stop := by
  induction tree using Tree.childInduction generalizing start with
  | leaf => intro edit member; cases member
  | node role kind children childHypothesis =>
      have among : ∀ (trees : List Tree) (start : Nat), (∀ tree ∈ trees, tree ∈ children) →
          ∀ edit ∈ pending.among source callees marker trees start,
            edit.range.start < edit.range.stop := by
        intro trees
        induction trees with
        | nil => intro _ _ edit member; cases member
        | cons tree rest restHypothesis =>
            intro start inside
            have member := inside tree List.mem_cons_self
            exact List.forall_mem_append.mpr
              ⟨childHypothesis tree member (wellFormed.children tree member),
                restHypothesis (start + tree.width) fun other member =>
                  inside other (List.mem_cons_of_mem tree member)⟩
      cases found : MarkedCall.ofPlace? callees marker ⟨.node role kind children, [], start⟩ with
      | none =>
          rw [pending_unmarked found]
          exact among children start fun _ member => member
      | some marked =>
          have notEmpty := width_of_marked found wellFormed
          rw [pending_marked found, range_of_marked found]
          intro edit member
          rw [List.mem_singleton.mp member]
          exact Nat.lt_add_of_pos_right notEmpty

theorem pendingAmong_append (first second : List Tree) (start : Nat) :
    pending.among source callees marker (first ++ second) start =
      pending.among source callees marker first start ++
        pending.among source callees marker second (start + Tree.widthOfAll first) := by
  induction first generalizing start with
  | nil => rfl
  | cons tree first inductionHypothesis =>
      rw [List.cons_append, pending.among, pending.among, inductionHypothesis,
        Tree.widthOfAll_cons, List.append_assoc, Nat.add_assoc]

/-- The range that is kept of a marked call cuts no marked call in it. -/
theorem keptRange_clean (source : Text) {role : Option Role} {kind : Kind} {children : List Tree} {start : Nat}
    {marked : MarkedCall} (wellFormed : (Script.Tree.node role kind children).WellFormed)
    (found : MarkedCall.ofPlace? callees marker ⟨.node role kind children, [], start⟩ = some marked) :
    start ≤ (keptRange marked).start ∧ (keptRange marked).start ≤ (keptRange marked).stop ∧
      (keptRange marked).stop ≤ start + Tree.widthOfAll children ∧
      ∀ edit ∈ pending.among source callees marker children start,
        (keptRange marked).contains edit.range = true ∨
          edit.range.stop ≤ (keptRange marked).start ∨
          (keptRange marked).stop ≤ edit.range.start := by
  obtain ⟨_, before, own, front, after, behind, same, listStart, pathStart, _⟩ :=
    MarkedCall.split found wellFormed
  obtain ⟨rfl, rfl, rfl⟩ := Script.Tree.node.inj same
  have listStart : marked.arguments.start = start + Tree.widthOfAll before := listStart
  have keptStart : (keptRange marked).start = start + Tree.widthOfAll before + 1 := by
    rw [keptRange, listStart]
  have keptStop : (keptRange marked).stop = start + Tree.widthOfAll before + 1 +
      Tree.widthOfAll front + marked.modulePath.focus.width := by
    rw [keptRange, Place.stop, pathStart, listStart]
  have unmarked : MarkedCall.ofPlace? callees marker
      ⟨.node own .arguments (.leaf none .mark ['('] :: front ++ marked.modulePath.focus :: after), [],
        start + Tree.widthOfAll before⟩ = none :=
    MarkedCall.ofPlace?_eq_none (by simp [Tree.kind])
  refine ⟨by omega, by omega, ?_, ?_⟩
  · simp only [keptStop, Tree.widthOfAll_append, Tree.widthOfAll_cons, Tree.width_node,
      Tree.width_leaf, List.cons_append, List.length_singleton]
    omega
  · rw [pendingAmong_append, pending.among, pending_unmarked unmarked, List.cons_append,
      pending.among, pending, List.nil_append, pendingAmong_append, pending.among]
    rw [Tree.width_leaf, List.length_singleton]
    intro edit member
    simp only [List.mem_append] at member
    rcases member with inBefore | ((inFront | inPath | inAfter) | inBehind)
    · have bounds := (pendingAmong_inOrder source callees marker _ _).bounds edit inBefore
      omega
    · have bounds := (pendingAmong_inOrder source callees marker _ _).bounds edit inFront
      refine .inl ?_
      simp only [Range.contains_iff]
      omega
    · have bounds := (pending_inOrder source callees marker _ _).bounds edit inPath
      refine .inl ?_
      simp only [Range.contains_iff]
      omega
    · have bounds := (pendingAmong_inOrder source callees marker _ _).bounds edit inAfter
      omega
    · have bounds := (pendingAmong_inOrder source callees marker _ _).bounds edit inBehind
      simp only [Tree.width_node, Tree.widthOfAll_append, Tree.widthOfAll_cons, Tree.width_leaf,
        List.length_singleton] at bounds
      omega

/-- The edits in the range that is kept of a call are those that stand between the parentheses. -/
theorem splice_kept {role : Option Role} {kind : Kind} {children : List Tree} {start : Nat}
    {marked : MarkedCall} {before : List Edit}
    (wellFormed : (Script.Tree.node role kind children).WellFormed)
    (stands : Text.StandsAt source start (Tree.textOfAll children))
    (found : MarkedCall.ofPlace? callees marker ⟨.node role kind children, [], start⟩ = some marked)
    (early : ∀ edit ∈ before, edit.range.start < edit.range.stop ∧ edit.range.stop ≤ start) :
    Edit.splice source (keptRange marked)
        (before ++ pending.among source callees marker children start) =
      unwrapIn.among source callees marker children (keptRange marked) start := by
  obtain ⟨low, proper, high, clean⟩ := keptRange_clean source wellFormed found
  have outside : before.filter (fun edit => (keptRange marked).contains edit.range) = [] := by
    rw [List.filter_eq_nil_iff]
    intro edit member
    have bounds := early edit member
    simp only [Range.contains_iff]
    omega
  have inOrder := (pendingAmong_inOrder source callees marker children start).filter
    fun edit => (keptRange marked).contains edit.range
  have applied := applySortedAmong_pending (fun child member => wellFormed.children child member)
    proper stands clean
  have lowEq : Edit.clamp (keptRange marked) start = (keptRange marked).start := by
    rw [Edit.clamp]
    omega
  have highEq : Edit.clamp (keptRange marked) (start + Tree.widthOfAll children) =
      (keptRange marked).stop := by
    rw [Edit.clamp]
    omega
  rw [lowEq, highEq] at applied
  rw [Edit.splice, List.filter_append, outside, List.nil_append, inOrder.sorted_eq, applied]

/-- Going through the calls of a tree from the inside to the outside leaves the edits for its outermost
calls, behind the edits from before. -/
theorem foldl_unwrap_edits {tree : Tree} (above : List Frame) {start : Nat} {before : Unwrapping}
    (wellFormed : tree.WellFormed) (stands : Text.StandsAt source start tree.text)
    (early : ∀ edit ∈ before.edits, edit.range.start < edit.range.stop ∧ edit.range.stop ≤ start) :
    (((Place.childrenFirst tree above start).filterMap
        (MarkedCall.ofPlace? callees marker)).foldl (unwrap source) before).edits =
      before.edits ++ pending source callees marker tree start := by
  induction tree using Tree.childInduction generalizing above start before with
  | leaf role kind letters =>
      have unmarked := MarkedCall.ofPlace?_leaf callees marker role kind letters above start
      rw [Place.childrenFirst, List.filterMap_cons_none unmarked, List.filterMap_nil, List.foldl_nil,
        pending, List.append_nil]
  | node role kind children childHypothesis =>
      have among : ∀ (trees left : List Tree) (start : Nat) (before : Unwrapping),
          (∀ tree ∈ trees, tree ∈ children) →
          Text.StandsAt source start (Tree.textOfAll trees) →
          (∀ edit ∈ before.edits, edit.range.start < edit.range.stop ∧ edit.range.stop ≤ start) →
          (((Place.childrenFirst.amongChildren role kind above left start trees).filterMap
              (MarkedCall.ofPlace? callees marker)).foldl (unwrap source) before).edits =
            before.edits ++ pending.among source callees marker trees start := by
        intro trees
        induction trees with
        | nil => intro left start before _ _ _; exact (List.append_nil _).symm
        | cons tree rest restHypothesis =>
            intro left start before inside stands early
            have member := inside tree List.mem_cons_self
            rw [Tree.textOfAll_cons] at stands
            have restStands := stands.right
            rw [← Tree.width_eq] at restStands
            have treeWellFormed := wellFormed.children tree member
            rw [Place.childrenFirst.amongChildren, List.filterMap_append, List.foldl_append]
            have first := childHypothesis tree member (⟨role, kind, left, rest⟩ :: above)
              treeWellFormed stands.left early
            rw [restHypothesis _ _ _ (fun other member => inside other (List.mem_cons_of_mem tree member))
              restStands, first, pending.among, List.append_assoc]
            rw [first]
            intro edit isEdit
            rcases List.mem_append.mp isEdit with inBefore | inTree
            · have bounds := early edit inBefore
              omega
            · exact ⟨pending_solid treeWellFormed edit inTree,
                ((pending_inOrder source callees marker tree start).bounds edit inTree).2.2⟩
      rw [Place.childrenFirst, List.filterMap_append, List.foldl_append]
      have inner := among children [] start before (fun _ member => member) stands early
      cases found : MarkedCall.ofPlace? callees marker ⟨.node role kind children, [], start⟩ with
      | none =>
          have unmarked := MarkedCall.ofPlace?_lift callees marker (.node role kind children) above start
          rw [found] at unmarked
          rw [List.filterMap_cons_none unmarked, List.filterMap_nil, List.foldl_nil, inner,
            pending_unmarked found]
      | some marked =>
          have isMarked := MarkedCall.ofPlace?_lift callees marker (.node role kind children) above start
          rw [found] at isMarked
          rw [List.filterMap_cons_some isMarked, List.filterMap_nil, List.foldl_cons,
            List.foldl_nil, pending_marked found]
          have notEmpty := width_of_marked found wellFormed
          have range_eq := range_of_marked found
          have own : marked.call.range.contains marked.call.range = true :=
            Range.contains_self _
          have outer : before.edits.filter (fun edit => !marked.call.range.contains edit.range) =
              before.edits := by
            rw [List.filter_eq_self]
            intro edit member
            have bounds := early edit member
            rw [range_eq]
            simp only [Bool.not_eq_true', Range.contains_eq_false_iff]
            omega
          have swallowed : (pending.among source callees marker children start).filter
              (fun edit => !marked.call.range.contains edit.range) = [] := by
            rw [List.filter_eq_nil_iff]
            intro edit member
            have bounds := (pendingAmong_inOrder source callees marker children start).bounds
              edit member
            rw [range_eq, Tree.width_node]
            simp only [Bool.not_eq_true', Range.contains_eq_false_iff]
            omega
          have kept := splice_kept wellFormed stands found early
          rw [unwrapIn_marked found own, ← kept, ← inner]
          have edits : ∀ unwrapping : Unwrapping,
              (unwrap source unwrapping (marked.lift above)).edits =
                unwrapping.edits.filter (fun edit => !marked.call.range.contains edit.range) ++
                  [⟨marked.call.range, "import(".toList ++
                    Edit.splice source (keptRange marked) unwrapping.edits ++
                      trailOf source marked ++ [')']⟩] := fun _ => rfl
          rw [edits, inner, List.filter_append, outer, swallowed, List.append_nil]

/-- Every call that is unwrapped is recorded. -/
theorem foldl_unwrap_unwrapped (calls : List MarkedCall) (before : Unwrapping) :
    (calls.foldl (unwrap source) before).unwrapped =
      before.unwrapped ++ calls.map fun marked => ⟨marked.call.range, keptRange marked⟩ := by
  induction calls generalizing before with
  | nil => exact (List.append_nil _).symm
  | cons marked calls inductionHypothesis =>
      rw [List.foldl_cons, inductionHypothesis, List.map_cons]
      simp only [unwrap, List.append_assoc, List.singleton_append]

/-- The edits of a removal are those for the outermost marked calls of the tree. -/
theorem unwrapAll_edits {tree : Tree} (wellFormed : tree.WellFormed) (same : tree.text = source) :
    (unwrapAll source (markedCalls callees marker tree)).edits =
      pending source callees marker tree 0 := by
  have stands : Text.StandsAt source 0 tree.text := by
    rw [same]
    exact .whole source
  rw [unwrapAll, markedCalls, Place.postorder_eq]
  exact foldl_unwrap_edits [] wellFormed stands (by simp)

end ImportMeter.Instrument
