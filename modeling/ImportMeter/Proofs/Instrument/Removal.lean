/-
This file proves what removal does to a script: the text it leaves is the text with all marked calls
unwrapped, but for the line of the import of the entry point where that goes too.
-/
import ImportMeter.Proofs.Instrument.Line
import ImportMeter.Proofs.Script.Reading

namespace ImportMeter.Instrument

open Script

variable {source : Text} {callees : List Text} {marker : Text}

/-- The walk finds every marked call of a tree. -/
theorem length_childrenFirst (tree : Tree) (above : List Frame) (start : Nat) :
    ((Place.childrenFirst tree above start).filterMap
      (MarkedCall.ofPlace? callees marker)).length = tree.markedCount callees marker := by
  have found : ∀ place : Place,
      ([place].filterMap (MarkedCall.ofPlace? callees marker)).length =
        if place.focus.isMarked callees marker then 1 else 0 := by
    intro place
    rw [← MarkedCall.isSome_ofPlace?]
    cases same : MarkedCall.ofPlace? callees marker place with
    | none => rw [List.filterMap_cons_none same]; rfl
    | some marked => rw [List.filterMap_cons_some same]; rfl
  induction tree using Tree.childInduction generalizing above start with
  | leaf role kind letters =>
      rw [Place.childrenFirst, found, Tree.markedCount]
      simp [Tree.isMarked, Tree.calleeName?, Tree.child?, Tree.children]
  | node role kind children childHypothesis =>
      have among : ∀ (trees left : List Tree) (start : Nat), (∀ tree ∈ trees, tree ∈ children) →
          ((Place.childrenFirst.amongChildren role kind above left start trees).filterMap
            (MarkedCall.ofPlace? callees marker)).length =
              Tree.markedCount.among callees marker trees := by
        intro trees
        induction trees with
        | nil => intro _ _ _; rfl
        | cons tree rest restHypothesis =>
            intro left start inside
            rw [Place.childrenFirst.amongChildren, List.filterMap_append, List.length_append,
              childHypothesis tree (inside tree List.mem_cons_self),
              restHypothesis _ _ fun other member => inside other (List.mem_cons_of_mem tree member),
              Tree.markedCount.among]
      rw [Place.childrenFirst, List.filterMap_append, List.length_append, found,
        among children [] start fun _ member => member, Tree.markedCount, Nat.add_comm]

theorem length_markedCalls (tree : Tree) :
    (markedCalls callees marker tree).length = tree.markedCount callees marker := by
  rw [markedCalls, Place.postorder_eq, length_childrenFirst]

/-- Every pending edit stands where a marked call stands. -/
theorem pending_range {tree : Tree} (above : List Frame) {start : Nat} :
    ∀ edit ∈ pending source callees marker tree start,
      ∃ marked ∈ (Place.childrenFirst tree above start).filterMap
        (MarkedCall.ofPlace? callees marker), marked.call.range = edit.range := by
  induction tree using Tree.childInduction generalizing above start with
  | leaf => intro edit member; cases member
  | node role kind children childHypothesis =>
      have among : ∀ (trees left : List Tree) (start : Nat), (∀ tree ∈ trees, tree ∈ children) →
          ∀ edit ∈ pending.among source callees marker trees start,
            ∃ marked ∈ (Place.childrenFirst.amongChildren role kind above left start trees).filterMap
              (MarkedCall.ofPlace? callees marker), marked.call.range = edit.range := by
        intro trees
        induction trees with
        | nil => intro _ _ _ edit member; cases member
        | cons tree rest restHypothesis =>
            intro left start inside edit member
            rw [Place.childrenFirst.amongChildren, List.filterMap_append]
            rcases List.mem_append.mp member with inTree | inRest
            · obtain ⟨marked, found, same⟩ :=
                childHypothesis tree (inside tree List.mem_cons_self) _ edit inTree
              exact ⟨marked, List.mem_append_left _ found, same⟩
            · obtain ⟨marked, found, same⟩ := restHypothesis (tree :: left) (start + tree.width)
                (fun other member => inside other (List.mem_cons_of_mem tree member)) edit inRest
              exact ⟨marked, List.mem_append_right _ found, same⟩
      rw [Place.childrenFirst, List.filterMap_append]
      cases found : MarkedCall.ofPlace? callees marker ⟨.node role kind children, [], start⟩ with
      | none =>
          rw [pending_unmarked found]
          intro edit member
          obtain ⟨marked, inChildren, same⟩ :=
            among children [] start (fun _ member => member) edit member
          exact ⟨marked, List.mem_append_left _ inChildren, same⟩
      | some marked =>
          rw [pending_marked found]
          intro edit member
          rw [List.mem_singleton.mp member]
          have own := MarkedCall.ofPlace?_lift callees marker (.node role kind children) above start
          rw [found] at own
          refine ⟨marked.lift above, List.mem_append_right _ ?_, rfl⟩
          rw [List.filterMap_cons_some own]
          exact List.mem_cons_self

/-- The edits in a range of a whole script make of the range what unwrapping makes of it. -/
theorem applySorted_whole {tree : Tree} {low high : Nat} (wellFormed : tree.WellFormed)
    (same : tree.text = source) (proper : low ≤ high) (inside : high ≤ source.length)
    (clean : ∀ edit ∈ pending source callees marker tree 0,
      (⟨low, high⟩ : Range).contains edit.range = true ∨ edit.range.stop ≤ low ∨
        high ≤ edit.range.start) :
    Edit.applySorted source high low ((pending source callees marker tree 0).filter
        fun edit => (⟨low, high⟩ : Range).contains edit.range) =
      unwrapIn source callees marker tree ⟨low, high⟩ 0 := by
  have stands : Text.StandsAt source 0 tree.text := by
    rw [same]
    exact .whole source
  have applied := applySorted_pending wellFormed proper stands clean
  have lowEq : Edit.clamp ⟨low, high⟩ 0 = low := by
    simp only [Edit.clamp]
    omega
  have highEq : Edit.clamp ⟨low, high⟩ (0 + tree.width) = high := by
    rw [Tree.width_eq, same]
    simp only [Edit.clamp]
    omega
  rwa [lowEq, highEq] at applied

/-- All edits lie in the script. -/
theorem pending_inside {tree : Tree} (same : tree.text = source) :
    ∀ edit ∈ pending source callees marker tree 0,
      (⟨0, source.length⟩ : Range).contains edit.range = true := by
  intro edit member
  have bounds := (pending_inOrder source callees marker tree 0).bounds edit member
  rw [Tree.width_eq, same] at bounds
  simp only [Range.contains_iff]
  omega

/-- The edits for its outermost marked calls unwrap a whole script. -/
theorem applyAll_pending {tree : Tree} (wellFormed : tree.WellFormed) (same : tree.text = source) :
    Edit.applyAll source (pending source callees marker tree 0) =
      unwrapIn source callees marker tree ⟨0, source.length⟩ 0 := by
  have inOrder := (pending_inOrder source callees marker tree 0).filter
    fun edit => (⟨0, source.length⟩ : Range).contains edit.range
  rw [← applySorted_whole wellFormed same (Nat.zero_le _) (Nat.le_refl _)
    fun edit member => .inl (pending_inside same edit member), Edit.applyAll, Edit.splice, inOrder.sorted_eq]

/-- A range may be unwrapped part by part if no marked call stands across the cut. -/
theorem unwrapIn_cut {tree : Tree} {low middle high : Nat} (wellFormed : tree.WellFormed)
    (same : tree.text = source) (below : low ≤ middle) (above : middle ≤ high)
    (inside : high ≤ source.length)
    (clean : ∀ position ∈ [low, middle, high], ∀ edit ∈ pending source callees marker tree 0,
      edit.range.stop ≤ position ∨ position ≤ edit.range.start) :
    unwrapIn source callees marker tree ⟨low, high⟩ 0 =
      unwrapIn source callees marker tree ⟨low, middle⟩ 0 ++
        unwrapIn source callees marker tree ⟨middle, high⟩ 0 := by
  have inOrder := pending_inOrder source callees marker tree 0
  have apart : ∀ first ∈ [low, middle, high], ∀ last ∈ [low, middle, high],
      ∀ edit ∈ pending source callees marker tree 0,
        (⟨first, last⟩ : Range).contains edit.range = true ∨ edit.range.stop ≤ first ∨
          last ≤ edit.range.start := by
    intro first isFirst last isLast edit member
    have cleanFirst := clean first isFirst edit member
    have cleanLast := clean last isLast edit member
    simp only [Range.contains_iff]
    omega
  have part : ∀ first ∈ [low, middle, high], ∀ last ∈ [low, middle, high], first ≤ last →
      last ≤ source.length →
      Edit.applySorted source last first ((pending source callees marker tree 0).filter
          fun edit => (⟨first, last⟩ : Range).contains edit.range) =
        unwrapIn source callees marker tree ⟨first, last⟩ 0 :=
    fun first isFirst last isLast proper within =>
      applySorted_whole wellFormed same proper within (apart first isFirst last isLast)
  have bounded : ∀ first last, first ≤ last → last ≤ source.length →
      Edit.InOrder first last ((pending source callees marker tree 0).filter
        fun edit => (⟨first, last⟩ : Range).contains edit.range) := by
    intro first last proper within
    have proper : (⟨first, last⟩ : Range).start ≤ (⟨first, last⟩ : Range).stop := proper
    have clamped := inOrder.clamp proper
    rw [Tree.width_eq, same] at clamped
    refine clamped.widen ?_ ?_
    · simp only [Edit.clamp]
      omega
    · simp only [Edit.clamp]
      omega
  rw [← part low (by simp) high (by simp) (Nat.le_trans below above) inside,
    ← part low (by simp) middle (by simp) below (Nat.le_trans above inside),
    ← part middle (by simp) high (by simp) above inside,
    inOrder.filter_split (pending_solid wellFormed) (clean middle (by simp)) below above,
    (bounded low middle below (Nat.le_trans above inside)).applySorted_append
      (bounded middle high above inside)]

/-- A range that meets no marked call is kept. -/
theorem unwrapIn_untouched {tree : Tree} {low high : Nat} (wellFormed : tree.WellFormed)
    (same : tree.text = source) (proper : low ≤ high) (inside : high ≤ source.length)
    (untouched : ∀ edit ∈ pending source callees marker tree 0,
      edit.range.stop ≤ low ∨ high ≤ edit.range.start) :
    unwrapIn source callees marker tree ⟨low, high⟩ 0 = source.slice low high := by
  have outside : (pending source callees marker tree 0).filter
      (fun edit => (⟨low, high⟩ : Range).contains edit.range) = [] := by
    rw [List.filter_eq_nil_iff]
    intro edit member
    have apart := untouched edit member
    have solid := pending_solid wellFormed edit member
    simp only [Range.contains_iff]
    omega
  rw [← applySorted_whole wellFormed same proper inside
    fun edit member => .inr (untouched edit member), outside, Edit.applySorted]

/-- It does not matter how far a range goes beyond a tree. -/
theorem unwrapIn_covered {tree : Tree} {first second : Range} {start : Nat}
    (firstCovers : first.contains ⟨start, start + tree.width⟩ = true)
    (secondCovers : second.contains ⟨start, start + tree.width⟩ = true) :
    unwrapIn source callees marker tree first start =
      unwrapIn source callees marker tree second start := by
  induction tree using Tree.childInduction generalizing start with
  | leaf role kind letters =>
      simp only [Range.contains_iff, Tree.width_leaf] at firstCovers secondCovers
      have whole : ∀ range : Range, range.start ≤ start ∧ start + letters.length ≤ range.stop →
          letters.slice (range.start - start) (range.stop - start) = letters := by
        intro range covers
        rw [Nat.sub_eq_zero_of_le covers.1, Text.slice, List.drop_zero, List.take_of_length_le]
        omega
      rw [unwrapIn, unwrapIn, whole first firstCovers, whole second secondCovers]
  | node role kind children childHypothesis =>
      have among : ∀ (trees : List Tree) (start : Nat), (∀ tree ∈ trees, tree ∈ children) →
          first.contains ⟨start, start + Tree.widthOfAll trees⟩ = true →
          second.contains ⟨start, start + Tree.widthOfAll trees⟩ = true →
          unwrapIn.among source callees marker trees first start =
            unwrapIn.among source callees marker trees second start := by
        intro trees
        induction trees with
        | nil => intro _ _ _ _; rfl
        | cons tree rest restHypothesis =>
            intro start inside firstCovers secondCovers
            simp only [Range.contains_iff, Tree.widthOfAll_cons] at firstCovers secondCovers
            have head : ∀ range : Range, range.start ≤ start ∧
                start + (tree.width + Tree.widthOfAll rest) ≤ range.stop →
                range.contains ⟨start, start + tree.width⟩ = true := by
              intro range covers
              simp only [Range.contains_iff]
              omega
            have tail : ∀ range : Range, range.start ≤ start ∧
                start + (tree.width + Tree.widthOfAll rest) ≤ range.stop →
                range.contains
                  ⟨start + tree.width, start + tree.width + Tree.widthOfAll rest⟩ = true := by
              intro range covers
              simp only [Range.contains_iff]
              omega
            rw [unwrapIn.among, unwrapIn.among,
              childHypothesis tree (inside tree List.mem_cons_self) (head first firstCovers)
                (head second secondCovers),
              restHypothesis (start + tree.width)
                (fun other member => inside other (List.mem_cons_of_mem tree member))
                (tail first firstCovers) (tail second secondCovers)]
      cases found : MarkedCall.ofPlace? callees marker ⟨.node role kind children, [], start⟩ with
      | none =>
          rw [unwrapIn_unmarked found, unwrapIn_unmarked found]
          exact among children start (fun _ member => member) firstCovers secondCovers
      | some marked =>
          rw [← range_of_marked found] at firstCovers secondCovers
          rw [unwrapIn_marked found firstCovers, unwrapIn_marked found secondCovers]

/-- What no marked call drops is left, and what is marked in it is unwrapped. -/
theorem unwrapIn_survives {tree : Tree} {above : List Frame} {range : Range} {start : Nat}
    {place : Place} (member : place ∈ Place.parentsFirst tree above start)
    (inside : range.contains place.range = true)
    (stays : ∀ marked ∈ (Place.parentsFirst tree above start).filterMap
      (MarkedCall.ofPlace? callees marker),
        (⟨marked.call.range, keptRange marked⟩ : Unwrapped).drops place.range = false) :
    unwrapIn source callees marker place.focus place.range place.start <:+:
      unwrapIn source callees marker tree range start := by
  induction tree using Tree.childInduction generalizing above range start with
  | leaf role kind letters =>
      rw [Place.parentsFirst, List.mem_singleton] at member
      subst member
      have own : (Place.range ⟨.leaf role kind letters, above, start⟩).contains
          (Place.range ⟨.leaf role kind letters, above, start⟩) = true :=
        Range.contains_self _
      exact ⟨[], [], by rw [unwrapIn_covered own inside, List.nil_append, List.append_nil]⟩
  | node role kind children childHypothesis =>
      have among : ∀ (trees left : List Tree) (start : Nat) (range : Range),
          (∀ tree ∈ trees, tree ∈ children) → range.contains place.range = true →
          place ∈ Place.parentsFirst.amongChildren role kind above left start trees →
          (∀ marked ∈ (Place.parentsFirst.amongChildren role kind above left start trees).filterMap
            (MarkedCall.ofPlace? callees marker),
              (⟨marked.call.range, keptRange marked⟩ : Unwrapped).drops place.range = false) →
          unwrapIn source callees marker place.focus place.range place.start <:+:
            unwrapIn.among source callees marker trees range start := by
        intro trees
        induction trees with
        | nil => intro _ _ _ _ _ member; cases member
        | cons tree rest restHypothesis =>
            intro left start range children inside member stays
            rw [Place.parentsFirst.amongChildren, List.filterMap_append,
              List.forall_mem_append] at stays
            rw [unwrapIn.among]
            rcases List.mem_append.mp member with inTree | inRest
            · exact (childHypothesis tree (children tree List.mem_cons_self) inTree inside
                stays.1).trans (List.prefix_append _ _).isInfix
            · exact (restHypothesis (tree :: left) (start + tree.width) range
                (fun other member => children other (List.mem_cons_of_mem tree member)) inside inRest
                stays.2).trans (List.suffix_append _ _).isInfix
      rcases List.mem_cons.mp member with rfl | inChildren
      · have own : (Place.range ⟨.node role kind children, above, start⟩).contains
            (Place.range ⟨.node role kind children, above, start⟩) = true :=
          Range.contains_self _
        exact ⟨[], [], by rw [unwrapIn_covered own inside, List.nil_append, List.append_nil]⟩
      · rw [Place.parentsFirst, List.filterMap_cons] at stays
        have within := Place.range_of_parentsFirst member
        cases found : MarkedCall.ofPlace? callees marker ⟨.node role kind children, [], start⟩ with
        | none =>
            have own := MarkedCall.ofPlace?_lift callees marker (.node role kind children) above start
            rw [found, Option.map_none] at own
            rw [own] at stays
            rw [unwrapIn_unmarked found]
            exact among children [] start range (fun _ member => member) inside inChildren stays
        | some marked =>
            have own := MarkedCall.ofPlace?_lift callees marker (.node role kind children) above start
            rw [found, Option.map_some] at own
            rw [own] at stays
            have dropped := stays _ List.mem_cons_self
            have kept : (keptRange marked).contains place.range = true := by
              have held : marked.call.range.contains place.range = true := by
                rw [range_of_marked found]
                simp only [Range.contains_iff]
                exact within
              have dropped : (marked.call.range.contains place.range &&
                  !(keptRange marked).contains place.range) = false := dropped
              rwa [held, Bool.true_and, Bool.not_eq_false'] at dropped
            have others := fun marked member =>
              stays marked (List.mem_cons_of_mem _ member)
            by_cases contained : range.contains marked.call.range = true
            · rw [unwrapIn_marked found contained]
              have left := among children [] start (keptRange marked) (fun _ member => member) kept
                inChildren others
              obtain ⟨front, back, same⟩ := left
              refine ⟨"import(".toList ++ front, back ++ trailOf source marked ++ [')'], ?_⟩
              rw [← same]
              simp only [List.append_assoc]
            · rw [unwrapIn]
              simp only [found, contained, if_false, Bool.false_eq_true]
              exact among children [] start range (fun _ member => member) inside inChildren others

/-- A tree without a marked call is kept. -/
theorem unwrapIn_plain {tree : Tree} {range : Range} {start : Nat}
    (plain : tree.markedCount callees marker = 0)
    (covers : range.contains ⟨start, start + tree.width⟩ = true) :
    unwrapIn source callees marker tree range start = tree.text := by
  induction tree using Tree.childInduction generalizing start with
  | leaf role kind letters =>
      simp only [Range.contains_iff, Tree.width_leaf] at covers
      rw [unwrapIn, Nat.sub_eq_zero_of_le covers.1, Text.slice, List.drop_zero,
        List.take_of_length_le (by omega), Tree.text_leaf]
  | node role kind children childHypothesis =>
      have among : ∀ (trees : List Tree) (start : Nat), (∀ tree ∈ trees, tree ∈ children) →
          Tree.markedCount.among callees marker trees = 0 →
          range.contains ⟨start, start + Tree.widthOfAll trees⟩ = true →
          unwrapIn.among source callees marker trees range start = Tree.textOfAll trees := by
        intro trees
        induction trees with
        | nil => intro _ _ _ _; rfl
        | cons tree rest restHypothesis =>
            intro start inside plain covers
            simp only [Range.contains_iff, Tree.widthOfAll_cons] at covers
            rw [Tree.markedCount.among, Nat.add_eq_zero_iff] at plain
            have first : range.contains ⟨start, start + tree.width⟩ = true := by
              simp only [Range.contains_iff]
              omega
            have others : range.contains
                ⟨start + tree.width, start + tree.width + Tree.widthOfAll rest⟩ = true := by
              simp only [Range.contains_iff]
              omega
            rw [unwrapIn.among, childHypothesis tree (inside tree List.mem_cons_self) plain.1 first,
              restHypothesis (start + tree.width)
                (fun other member => inside other (List.mem_cons_of_mem tree member)) plain.2 others,
              Tree.textOfAll_cons]
      rw [Tree.markedCount, Nat.add_eq_zero_iff] at plain
      have unmarked : MarkedCall.ofPlace? callees marker ⟨.node role kind children, [], start⟩ =
          none := by
        rw [← Option.not_isSome_iff_eq_none, MarkedCall.isSome_ofPlace?]
        intro isMarked
        rw [if_pos isMarked] at plain
        cases plain.1
      rw [unwrapIn_unmarked unmarked]
      exact among children start (fun _ member => member) plain.2 covers

/-- The deletion of a line leaves what is unwrapped in front of it and behind it. -/
theorem Around.applyAll_deletion (around : Around) :
    Edit.applyAll around.text (pending around.text callees marker around.tree 0 ++
        [⟨around.line, []⟩]) =
      unwrapIn around.text callees marker around.tree ⟨0, around.line.start⟩ 0 ++
        unwrapIn around.text callees marker around.tree ⟨around.line.stop, around.text.length⟩ 0 := by
  have within := around.line_spec.2.2.1
  have extent := around.line_solid
  have wellFormed : around.tree.WellFormed := around.wellFormed
  rw [around.applyAll_eq, ← around.filter_front, ← around.filter_behind,
    applySorted_whole wellFormed around.text_tree (Nat.zero_le _) (by omega),
    applySorted_whole wellFormed around.text_tree within (Nat.le_refl _)]
  · intro edit member
    have inside := pending_inside around.text_tree edit member
    have apart := (around.clean edit member).2
    simp only [Range.contains_iff] at inside ⊢
    omega
  · intro edit member
    have apart := (around.clean edit member).1
    simp only [Range.contains_iff]
    omega

/-- The line of a declaration may be cut out of an unwrapped script. -/
theorem Around.unwrapIn_line (around : Around) :
    unwrapIn around.text callees marker around.tree ⟨0, around.text.length⟩ 0 =
      unwrapIn around.text callees marker around.tree ⟨0, around.line.start⟩ 0 ++
        unwrapIn around.text callees marker around.tree around.line 0 ++
        unwrapIn around.text callees marker around.tree ⟨around.line.stop, around.text.length⟩ 0 := by
  have within := around.line_spec.2.2.1
  have extent := around.line_solid
  have wellFormed : around.tree.WellFormed := around.wellFormed
  have bounded : ∀ edit ∈ pending around.text callees marker around.tree 0,
      edit.range.stop ≤ around.text.length := fun edit member =>
    (Range.contains_iff.mp (pending_inside around.text_tree edit member)).2
  have clean : ∀ position ∈ [0, around.line.start, around.line.stop, around.text.length],
      ∀ edit ∈ pending around.text callees marker around.tree 0,
        edit.range.stop ≤ position ∨ position ≤ edit.range.start := by
    intro position among edit member
    have ends := around.clean edit member
    have bound := bounded edit member
    simp only [List.mem_cons, List.not_mem_nil, or_false] at among
    omega
  rw [unwrapIn_cut wellFormed around.text_tree (Nat.zero_le around.line.stop) within
      (Nat.le_refl _) fun position among => clean position (by simp at among ⊢; omega),
    unwrapIn_cut wellFormed around.text_tree (Nat.zero_le around.line.start)
      (Nat.le_of_lt extent) within fun position among => clean position (by simp at among ⊢; omega)]

/-- Removal rewrites every marked call. -/
theorem removeTree_rewritten (source : Text) (tree : Tree) (directory : Path)
    (instrumentation : Instrumentation) :
    (removeTree source tree directory instrumentation).rewritten =
      tree.markedCount (instrumentation.localNames
        (findBinding? tree directory instrumentation.modulePath)).2 instrumentation.marker := by
  simp only [removeTree]
  split
  next nothing =>
    rw [List.isEmpty_iff] at nothing
    rw [← length_markedCalls, nothing]
    rfl
  next => exact length_markedCalls tree

/-- Removal without a marked call changes nothing. Otherwise it unwraps the calls, and it may delete the
line of the import of the entry point. -/
theorem removeTree_cases (source : Text) (tree : Tree) (directory : Path)
    (instrumentation : Instrumentation) {binding : Option ImportBinding} {callees : List Text}
    (bound : findBinding? tree directory instrumentation.modulePath = binding)
    (named : (instrumentation.localNames binding).2 = callees) :
    (markedCalls callees instrumentation.marker tree = [] ∧
      removeTree source tree directory instrumentation = .unchanged) ∨
    ∃ deletion : List Edit,
      (removeTree source tree directory instrumentation).text = some (Edit.applyAll source
        ((unwrapAll source (markedCalls callees instrumentation.marker tree)).edits ++ deletion)) ∧
      (removeTree source tree directory instrumentation).importRemoved = !deletion.isEmpty ∧
      (deletion = [] ∨ ∃ found, binding = some found ∧
        deletion = [⟨lineRange source found.statement.range, []⟩]) := by
  by_cases nothing : markedCalls callees instrumentation.marker tree = []
  · refine .inl ⟨nothing, ?_⟩
    simp only [removeTree, bound, named]
    rw [if_pos (List.isEmpty_iff.mpr nothing)]
  · have some : ¬ (markedCalls callees instrumentation.marker tree).isEmpty = true := by
      rwa [List.isEmpty_iff]
    refine .inr ?_
    simp only [removeTree, bound, named, if_neg some]
    refine ⟨_, rfl, rfl, ?_⟩
    split
    · exact .inl rfl
    · cases sole : binding.filter ImportBinding.isSoleDefault with
      | none => exact .inl rfl
      | some found =>
          refine .inr ⟨found, ?_, rfl⟩
          exact (Option.filter_eq_some_iff.mp sole).1

/-- What removal leaves of a script: the unwrapped script, or the same without the line of the import of
the entry point. -/
theorem removeTree_text {statements : List Tree} (directory : Path)
    (instrumentation : Instrumentation) {binding : Option ImportBinding} {callees : List Text}
    (wellFormed : (Script.Tree.node none .program statements).WellFormed)
    (same : (Script.Tree.node none .program statements).text = source)
    (bound : findBinding? (.node none .program statements) directory instrumentation.modulePath =
      binding)
    (named : (instrumentation.localNames binding).2 = callees) {unwrapped : Range → Text}
    (is : ∀ range, unwrapped range =
      unwrapIn source callees instrumentation.marker (.node none .program statements) range 0)
    {outcome : Outcome}
    (removed : removeTree source (.node none .program statements) directory instrumentation =
      outcome) :
    (outcome.importRemoved = false → outcome.textOr source = unwrapped ⟨0, source.length⟩) ∧
      (outcome.importRemoved = true → ∃ found, binding = some found ∧
        let line := lineRange source found.statement.range
        outcome.textOr source =
            unwrapped ⟨0, line.start⟩ ++ unwrapped ⟨line.stop, source.length⟩ ∧
          unwrapped ⟨0, source.length⟩ =
            unwrapped ⟨0, line.start⟩ ++ unwrapped line ++ unwrapped ⟨line.stop, source.length⟩) := by
  have edits : (unwrapAll source (markedCalls callees instrumentation.marker _)).edits =
      pending source callees instrumentation.marker _ 0 := unwrapAll_edits wellFormed same
  have whole : Edit.applyAll source (pending source callees instrumentation.marker _ 0) =
      unwrapIn source callees instrumentation.marker _ ⟨0, source.length⟩ 0 :=
    applyAll_pending wellFormed same
  rw [← is] at whole
  rcases removeTree_cases source (.node none .program statements) directory instrumentation bound named
    with ⟨nothing, unchanged⟩ | ⟨deletion, text, isRemoved, rfl | ⟨found, bind, rfl⟩⟩
  · rw [removed] at unchanged
    rw [unchanged]
    refine ⟨fun _ => ?_, nofun⟩
    rw [← whole, ← edits, nothing]
    exact (Text.slice_all source).symm
  · rw [removed] at text isRemoved
    rw [Outcome.textOr, text, isRemoved, List.append_nil, edits, whole]
    exact ⟨fun _ => rfl, nofun⟩
  · rw [removed] at text isRemoved
    rw [Outcome.textOr, text, isRemoved, edits]
    refine ⟨nofun, fun _ => ⟨found, bind, ?_⟩⟩
    obtain ⟨around, isTree, isStatement⟩ := exists_around wellFormed (bound.trans bind)
    rw [← isTree] at same is ⊢
    obtain rfl : around.text = source := around.text_tree.symm.trans same
    rw [← isStatement]
    simp only [is]
    exact ⟨around.applyAll_deletion, around.unwrapIn_line⟩

/-- Removal unwraps a script from the outside to the inside, apart from the line of the import. Every
marked call counts. What meets no marked call is kept, and so is every piece of the script that no
marked call drops, as it was where there is no marked call in it. -/
theorem remove_unwraps (workingDirectory file : Path) (instrumentation : Instrumentation)
    {tree : Tree} (parsed : parse? source = some tree) :
    let binding := findBinding? tree (directoryOf workingDirectory file) instrumentation.modulePath
    let callees := (instrumentation.localNames binding).2
    let calls := markedCalls callees instrumentation.marker tree
    let unwrapped := fun range => unwrapIn source callees instrumentation.marker tree range 0
    ∃ outcome, remove? workingDirectory source file instrumentation = some outcome ∧
      outcome.rewritten = tree.markedCount callees instrumentation.marker ∧
      (outcome.importRemoved = false → outcome.textOr source = unwrapped ⟨0, source.length⟩) ∧
      (outcome.importRemoved = true → ∃ found, binding = some found ∧
        let line := lineRange source found.statement.range
        outcome.textOr source =
            unwrapped ⟨0, line.start⟩ ++ unwrapped ⟨line.stop, source.length⟩ ∧
          unwrapped ⟨0, source.length⟩ =
            unwrapped ⟨0, line.start⟩ ++ unwrapped line ++ unwrapped ⟨line.stop, source.length⟩) ∧
      (∀ low high, low ≤ high → high ≤ source.length →
        (∀ marked ∈ calls, marked.call.stop ≤ low ∨ high ≤ marked.call.start) →
        unwrapped ⟨0, source.length⟩ =
          unwrapped ⟨0, low⟩ ++ source.slice low high ++ unwrapped ⟨high, source.length⟩) ∧
      (∀ place ∈ Place.preorder tree,
        (∀ marked ∈ calls,
          (⟨marked.call.range, keptRange marked⟩ : Unwrapped).drops place.range = false) →
        unwrapIn source callees instrumentation.marker place.focus place.range place.start <:+:
            unwrapped ⟨0, source.length⟩ ∧
          (place.focus.markedCount callees instrumentation.marker = 0 →
            unwrapIn source callees instrumentation.marker place.focus place.range place.start =
              place.text)) := by
  intro binding callees calls unwrapped
  obtain ⟨same, wellFormed, statements, rfl⟩ := parse?_sound parsed
  have listed : calls = (Place.childrenFirst (.node none .program statements) [] 0).filterMap
      (MarkedCall.ofPlace? callees instrumentation.marker) := by
    simp only [calls, markedCalls, Place.postorder_eq]
  have text := removeTree_text (directoryOf workingDirectory file) instrumentation wellFormed same rfl rfl (fun _ => rfl) rfl
  refine ⟨_, ?_, removeTree_rewritten source _ _ instrumentation, text.1, text.2, ?_, ?_⟩
  · rw [remove?, removeBy?, parsed, Option.map_some]
  · intro low high proper inside apart
    have untouched : ∀ edit ∈ pending source callees instrumentation.marker
        (.node none .program statements) 0, edit.range.stop ≤ low ∨ high ≤ edit.range.start := by
      intro edit member
      obtain ⟨marked, found, sameRange⟩ := pending_range [] edit member
      rw [← sameRange]
      refine apart marked ?_
      rw [listed]
      exact found
    have ends : ∀ position ∈ [0, low, high, source.length], ∀ edit ∈ pending source callees
        instrumentation.marker (.node none .program statements) 0,
        edit.range.stop ≤ position ∨ position ≤ edit.range.start := by
      intro position among edit member
      have meets := untouched edit member
      have bound : edit.range.stop ≤ source.length :=
        (Range.contains_iff.mp (pending_inside same edit member)).2
      simp only [List.mem_cons, List.not_mem_nil, or_false] at among
      omega
    rw [← unwrapIn_untouched wellFormed same proper inside untouched, ← unwrapIn_cut wellFormed same
        (Nat.zero_le low) proper inside fun position among => ends position (by simp at among ⊢; omega),
      ← unwrapIn_cut wellFormed same (Nat.zero_le high) inside (Nat.le_refl _)
        fun position among => ends position (by simp at among ⊢; omega)]
  · intro place member stays
    have whole : (⟨0, source.length⟩ : Range).contains place.range = true := by
      rw [Place.preorder_eq] at member
      have bounds := Place.range_of_parentsFirst member
      rw [Tree.width_eq, same, Nat.zero_add] at bounds
      exact Range.contains_iff.mpr bounds
    rw [Place.preorder_eq] at member
    refine ⟨unwrapIn_survives member whole fun marked found => stays marked ?_,
      fun plain => unwrapIn_plain plain (Range.contains_self _)⟩
    obtain ⟨inner, inTree, isMarked⟩ := List.mem_filterMap.mp found
    rw [listed]
    exact List.mem_filterMap.mpr ⟨inner, Place.mem_parentsFirst_iff.mp inTree, isMarked⟩

/-- A marked call in the path of another. -/
def nestedCalls : Text :=
  ("profileImport(profileImport('./a.js', import.meta.url, null, '__AUTO_PROFILE__',), " ++
    "import.meta.url, null, '__AUTO_PROFILE__');").toList

def profileEntry : Instrumentation :=
  ⟨⟨"/profile.js".toList⟩, Instrumentation.defaultEntryName, Instrumentation.defaultMarker⟩

/-- An entry point with short names. -/
def smallEntry : Instrumentation := ⟨⟨"/p".toList⟩, "p".toList, "m".toList⟩

theorem remove_unwraps_nestedCalls :
    ∃ tree, parse? nestedCalls = some tree ∧
      tree.markedCount [profileEntry.entryName] profileEntry.marker = 2 ∧
      unwrapIn nestedCalls [profileEntry.entryName] profileEntry.marker tree
        ⟨0, nestedCalls.length⟩ 0 = "import(import('./a.js',));".toList := by
  have isScript : (parse? nestedCalls).isSome = true := by decide +kernel
  have named : (parse? nestedCalls).map (fun tree => (profileEntry.localNames
      (findBinding? tree (directoryOf ⟨['/']⟩ ⟨"/main.js".toList⟩) profileEntry.modulePath)).2) =
      some [profileEntry.entryName] := by decide +kernel
  have computed : remove? ⟨['/']⟩ nestedCalls ⟨"/main.js".toList⟩ profileEntry =
      some ⟨some "import(import('./a.js',));".toList, 2, false, false, [], none⟩ := by
    decide +kernel
  obtain ⟨tree, parsed⟩ := Option.isSome_iff_exists.mp isScript
  obtain ⟨outcome, removed, rewritten, kept, _⟩ :=
    remove_unwraps ⟨['/']⟩ ⟨"/main.js".toList⟩ profileEntry parsed
  rw [parsed, Option.map_some, Option.some_inj] at named
  rw [computed] at removed
  cases removed
  rw [named] at rewritten kept
  exact ⟨tree, parsed, rewritten.symm, (kept rfl).symm⟩

end ImportMeter.Instrument
