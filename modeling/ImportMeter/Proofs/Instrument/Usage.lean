/-
This file reads off the unwrapped statements whether the import of the entry point stays: it does exactly
if one of them still uses its name.
-/
import ImportMeter.Proofs.Instrument.Reference
import ImportMeter.Proofs.Instrument.Deletion

namespace ImportMeter.Instrument

open Script

/-- The names that are used in a tree. A shorthand property uses the name that it stands for. -/
def usedNames : Tree → List Text
  | .leaf _ kind letters => if isReferenceKind kind then [letters] else []
  | .node _ _ children => among children
where
  among : List Tree → List Text
    | [] => []
    | tree :: rest => usedNames tree ++ among rest

theorem usedNamesAmong_append (first second : List Tree) :
    usedNames.among (first ++ second) = usedNames.among first ++ usedNames.among second := by
  induction first with
  | nil => rfl
  | cons tree first inductionHypothesis =>
      rw [List.cons_append, usedNames.among, usedNames.among, inductionHypothesis, List.append_assoc]

theorem usedNamesAmong_eq_nil {trees : List Tree} (nothing : ∀ tree ∈ trees, usedNames tree = []) :
    usedNames.among trees = [] := by
  induction trees with
  | nil => rfl
  | cons tree rest inductionHypothesis =>
      rw [usedNames.among, nothing tree List.mem_cons_self,
        inductionHypothesis fun other member => nothing other (List.mem_cons_of_mem tree member)]
      rfl

/-- What stands around the arguments of a call uses no name. -/
theorem usedNames_between {tree : Tree} (wellFormed : tree.WellFormed)
    (plain : tree.isArgument = false) : usedNames tree = [] := by
  have isLeaf := wellFormed.eq_leaf (Tree.isToken_of_isArgument plain)
  have notReference : isReferenceKind (Place.top tree).kind = false :=
    isReferenceKind_between wellFormed plain (by rw [isLeaf]; exact List.mem_singleton_self _)
  rw [isLeaf, usedNames]
  exact if_neg (Bool.eq_false_iff.mp notReference)

/-- An import uses the names that its path uses. -/
theorem usedNames_importOf {call path : Tree} {front behind : List Tree}
    (between : betweenParentheses call = front ++ path :: behind)
    (wellFormed : ∀ tree ∈ betweenParentheses call, tree.WellFormed)
    (plain : ∀ tree ∈ front, tree.isArgument = false) (isArgument : path.isArgument = true) :
    usedNames (importOf call) = usedNames path := by
  have inFront : usedNames.among front = [] := usedNamesAmong_eq_nil fun tree member =>
    usedNames_between (wellFormed tree (by rw [between]; simp [member])) (plain tree member)
  have inTrail : usedNames.among
      (if call.givenArguments.length = 4 then trailTrees (betweenParentheses call) else []) = [] := by
    refine usedNamesAmong_eq_nil fun tree member => ?_
    split at member
    next =>
      refine usedNames_between (wellFormed tree (mem_of_mem_trailTrees member)) ?_
      rw [trailTrees, List.mem_reverse] at member
      have passes := List.all_eq_true.mp List.all_takeWhile tree member
      rwa [Bool.not_eq_true'] at passes
    next => cases member
  have word : isReferenceKind .importWord = false := rfl
  have mark : isReferenceKind .mark = false := rfl
  rw [importOf, between, keptTrees_eq plain isArgument, ← between]
  simp only [usedNames, usedNames.among, usedNamesAmong_append, inFront, inTrail, word, mark,
    Bool.false_eq_true, if_false, List.nil_append, List.append_nil]

variable {callees : List Text} {marker name : Text}

/-- True if a name is used at one of some places where no marked call among them drops it. -/
def Survives (callees : List Text) (marker : Text) (places : List Place) (name : Text) : Prop :=
  ∃ place ∈ places, isReferenceKind place.kind = true ∧ place.text = name ∧
    Stays callees marker places place

theorem solid_of_named {place : Place} (solid : name ≠ []) (named : place.text = name) :
    place.start < place.stop := by
  rw [Place.stop, Tree.width_eq]
  have length : 0 < place.focus.text.length := by
    rw [List.length_pos_iff, show place.focus.text = name from named]
    exact solid
  omega

/-- The calls at other places drop nothing. -/
theorem stays_elsewhere {places : List Place} {place : Place} (extent : place.start < place.stop)
    (apart : ∀ other ∈ places, other.stop ≤ place.start ∨ place.stop ≤ other.start) :
    Stays callees marker places place :=
  stays_apart (Nat.le_refl _) extent fun other member =>
    (apart other member).imp_right fun behind => Nat.lt_of_lt_of_le extent behind

theorem stays_walked {trees : List Tree} {start : Nat} {places : List Place} {place : Place}
    (walked : Place.Walked trees start places) (extent : place.start < place.stop)
    (apart : start + Tree.widthOfAll trees ≤ place.start ∨ place.stop ≤ start) :
    Stays callees marker places place := by
  refine stays_elsewhere extent fun other isOther => ?_
  have bounds := walked.range isOther
  omega

/-- What survives among places survives among those in front of a position or among those behind it. -/
theorem survives_append {first second : List Place} {middle : Nat} (solid : name ≠ [])
    (front : ∀ place ∈ first, place.stop ≤ middle) (behind : ∀ place ∈ second, middle ≤ place.start) :
    Survives callees marker (first ++ second) name ↔
      Survives callees marker first name ∨ Survives callees marker second name := by
  constructor
  · rintro ⟨place, member, reference, named, stays⟩
    rw [stays_append] at stays
    rcases List.mem_append.mp member with inFirst | inSecond
    · exact .inl ⟨place, inFirst, reference, named, stays.1⟩
    · exact .inr ⟨place, inSecond, reference, named, stays.2⟩
  · rintro (⟨place, member, reference, named, stays⟩ | ⟨place, member, reference, named, stays⟩)
    · refine ⟨place, List.mem_append_left _ member, reference, named, stays_append.mpr ⟨stays, ?_⟩⟩
      exact stays_elsewhere (solid_of_named solid named) fun other isOther =>
        .inr (Nat.le_trans (front place member) (behind other isOther))
    · refine ⟨place, List.mem_append_right _ member, reference, named, stays_append.mpr ⟨?_, stays⟩⟩
      exact stays_elsewhere (solid_of_named solid named) fun other isOther =>
        .inl (Nat.le_trans (front other isOther) (behind place member))

/-- So what survives among the places of neighbouring trees survives in one of the trees. -/
theorem survives_walked {trees : List Tree} {start : Nat} {places : List Place} (solid : name ≠ [])
    (walked : Place.Walked trees start places)
    (each : ∀ tree ∈ trees, ∀ above start,
      Survives callees marker (Place.parentsFirst tree above start) name ↔
        name ∈ usedNames (unwrapTree callees marker tree)) :
    Survives callees marker places name ↔
      name ∈ usedNames.among (trees.map (unwrapTree callees marker)) := by
  induction walked with
  | nil => exact iff_of_false (by rintro ⟨_, member, _⟩; cases member) List.not_mem_nil
  | @cons tree rest start places above others othersHypothesis =>
      rw [survives_append solid (fun _ member => (Place.range_of_parentsFirst member).2)
          (fun _ member => (others.range member).1),
        each tree List.mem_cons_self,
        othersHypothesis fun other member => each other (List.mem_cons_of_mem tree member),
        List.map_cons, usedNames.among, List.mem_append]

/-- A node is no use of a name. -/
theorem survives_unmarked {role : Option Role} {kind : Kind} {children : List Tree}
    {above : List Frame} {start : Nat} (wellFormed : (Script.Tree.node role kind children).WellFormed)
    (unmarked : MarkedCall.ofPlace? callees marker ⟨.node role kind children, [], start⟩ = none) :
    Survives callees marker (Place.parentsFirst (.node role kind children) above start) name ↔
      Survives callees marker (Place.parentsFirst.amongChildren role kind above [] start children)
        name := by
  constructor
  · rintro ⟨place, member, reference, named, stays⟩
    exact ⟨place, reference_in_children wellFormed reference member, reference, named,
      (stays_unmarked unmarked).mp stays⟩
  · rintro ⟨place, member, reference, named, stays⟩
    exact ⟨place, List.mem_cons_of_mem _ member, reference, named, (stays_unmarked unmarked).mpr stays⟩

/-- In a marked call what survives is what survives in its path. -/
theorem survives_marked {role : Option Role} {kind : Kind} {children : List Tree}
    (above : List Frame) {start : Nat} {marked : MarkedCall} (solid : name ≠ [])
    (wellFormed : (Script.Tree.node role kind children).WellFormed)
    (found : MarkedCall.ofPlace? callees marker ⟨.node role kind children, [], start⟩ = some marked) :
    ∃ inner, Survives callees marker (Place.parentsFirst (.node role kind children) above start) name ↔
      Survives callees marker
        (Place.parentsFirst marked.modulePath.focus inner marked.modulePath.start) name := by
  obtain ⟨_, before, own, front, after, behind, same, listStart, pathStart, plain⟩ :=
    MarkedCall.split found wellFormed
  obtain ⟨rfl, rfl, sameChildren⟩ := Script.Tree.node.inj same
  generalize listEq : Script.Tree.node own .arguments
    (.leaf none .mark ['('] :: front ++ marked.modulePath.focus :: after) = list at sameChildren
  have listStart : marked.arguments.start = start + Tree.widthOfAll before := listStart
  have keptStart : (keptRange marked).start = marked.arguments.start + 1 := rfl
  have keptStop : (keptRange marked).stop =
      marked.modulePath.start + marked.modulePath.focus.width := rfl
  have pathStart : marked.modulePath.start =
      start + Tree.widthOfAll before + Tree.widthOfAll (.leaf none .mark ['('] :: front) := by
    rw [Tree.widthOfAll_cons, Tree.width_leaf, List.length_singleton]
    omega
  have listStop : marked.modulePath.start + marked.modulePath.focus.width ≤
      start + Tree.widthOfAll before + list.width := by
    rw [← listEq, pathStart, Tree.width_node, Tree.widthOfAll_append,
      Tree.widthOfAll_cons marked.modulePath.focus]
    omega
  have listWellFormed : list.WellFormed := wellFormed.children list (by simp [sameChildren])
  -- The places in the call are those in front of the path, those in it and those behind it.
  obtain ⟨outFront, listAbove, outBehind, inCall, isOutFront, isOutBehind⟩ :=
    Place.amongChildren_around role .callExpression above [] start before list behind
  obtain ⟨inFront, inner, inBehind, inList, isInFront, isInBehind⟩ :=
    Place.amongChildren_around own .arguments listAbove [] (start + Tree.widthOfAll before)
      (.leaf none .mark ['('] :: front) marked.modulePath.focus after
  rw [← sameChildren] at inCall
  rw [← pathStart] at inList isInBehind
  have stays_iff : ∀ place : Place, start ≤ place.start ∧
      place.stop ≤ start + (Script.Tree.node role .callExpression children).width →
      (Stays callees marker
          (Place.parentsFirst (.node role .callExpression children) above start) place ↔
        (keptRange marked).contains place.range = true ∧ Stays callees marker outFront place ∧
          (Stays callees marker inFront place ∧ Stays callees marker
            (Place.parentsFirst marked.modulePath.focus inner marked.modulePath.start) place ∧
              Stays callees marker inBehind place) ∧ Stays callees marker outBehind place) := by
    intro place inside
    rw [stays_marked found inside.1 inside.2, inCall, stays_append, stays_append, ← listEq,
      stays_unmarked (MarkedCall.ofPlace?_eq_none (by simp [Tree.kind])), inList, stays_append,
      stays_append]
  refine ⟨inner, ?_, ?_⟩
  · rintro ⟨place, member, reference, named, stays⟩
    have extent := solid_of_named solid named
    obtain ⟨kept, _, ⟨_, stays, _⟩, _⟩ := (stays_iff place (Place.range_of_parentsFirst member)).mp stays
    obtain ⟨low, high⟩ : (keptRange marked).start ≤ place.start ∧
      place.stop ≤ (keptRange marked).stop := Range.contains_iff.mp kept
    have inChildren := reference_in_children wellFormed reference member
    rw [inCall, List.mem_append, List.mem_append] at inChildren
    rcases inChildren with isOut | isIn | isOut
    · have bounds := isOutFront.range isOut
      omega
    · rw [← listEq] at isIn listWellFormed
      have inArguments := reference_in_children listWellFormed reference isIn
      rw [inList, List.mem_append, List.mem_append] at inArguments
      rcases inArguments with isFront | isPath | isBehind
      · obtain ⟨tree, isTree, treeAbove, position, inTree⟩ := isInFront.mem isFront
        have notReference : isReferenceKind place.kind = false := by
          refine isReferenceKind_between (listWellFormed.children tree
            (List.mem_append_left _ isTree)) ?_ inTree
          rcases List.mem_cons.mp isTree with rfl | inFront
          · rfl
          · exact plain tree inFront
        rw [notReference] at reference
        cases reference
      · exact ⟨place, isPath, reference, named, stays⟩
      · have bounds := isInBehind.range isBehind
        omega
    · have bounds := isOutBehind.range isOut
      omega
  · rintro ⟨place, member, reference, named, stays⟩
    have extent := solid_of_named solid named
    have bounds := Place.range_of_parentsFirst member
    have inChildren : place ∈ Place.parentsFirst (.node role .callExpression children) above start := by
      refine List.mem_cons_of_mem _ ?_
      rw [inCall, ← listEq]
      refine List.mem_append_right _ (List.mem_append_left _ (List.mem_cons_of_mem _ ?_))
      rw [inList]
      exact List.mem_append_right _ (List.mem_append_left _ member)
    refine ⟨place, inChildren, reference, named,
      (stays_iff place (Place.range_of_parentsFirst inChildren)).mpr ⟨?_, ?_, ⟨?_, stays, ?_⟩, ?_⟩⟩
    · rw [Range.contains_iff]
      exact ⟨by change _ ≤ place.start; omega, by change place.stop ≤ _; omega⟩
    · exact stays_walked isOutFront extent (.inl (by omega))
    · exact stays_walked isInFront extent (.inl (by omega))
    · exact stays_walked isInBehind extent (.inr (by omega))
    · exact stays_walked isOutBehind extent (.inr (by omega))

/-- An unwrapped call uses the names that its path uses. -/
theorem usedNames_marked {role : Option Role} {kind : Kind} {children : List Tree} {start : Nat}
    {marked : MarkedCall} (wellFormed : (Script.Tree.node role kind children).WellFormed)
    (found : MarkedCall.ofPlace? callees marker ⟨.node role kind children, [], start⟩ = some marked) :
    (∃ list ∈ children, marked.modulePath.focus ∈ list.children) ∧
      usedNames (unwrapTree callees marker (.node role kind children)) =
        usedNames (unwrapTree callees marker marked.modulePath.focus) := by
  obtain ⟨_, before, own, front, after, behind, same, bracketed, list, _, _, isArgument, plain⟩ :=
    MarkedCall.split_path found wellFormed
  rw [bracketed] at list
  have isMarked := MarkedCall.isSome_ofPlace? callees marker ⟨.node role kind children, [], start⟩
  rw [found, Option.isSome_some, eq_comm] at isMarked
  obtain ⟨_, _, sameChildren⟩ := Script.Tree.node.inj same
  have isChild : marked.arguments.focus ∈ children := by simp [sameChildren]
  have between : betweenParentheses (.node role kind (children.map (unwrapTree callees marker))) =
      (front.map (unwrapTree callees marker)) ++ unwrapTree callees marker marked.modulePath.focus ::
        after.map (unwrapTree callees marker) := by
    rw [betweenParentheses_map_unwrapTree list, List.map_append, List.map_cons]
  refine ⟨⟨_, isChild, by rw [bracketed, Tree.children]; simp⟩, ?_⟩
  rw [unwrapTree_marked isMarked]
  refine usedNames_importOf between (fun tree member => ?_) (fun tree member => ?_)
    (by rwa [(keeps_unwrapTree callees marker).isArgument])
  · have listWellFormed := wellFormed.children _ isChild
    rw [bracketed] at listWellFormed
    rw [betweenParentheses_map_unwrapTree list] at member
    obtain ⟨original, isOriginal, rfl⟩ := List.mem_map.mp member
    exact wellFormed_unwrapTree (listWellFormed.children original
      (List.mem_append_left _ (List.mem_cons_of_mem _ isOriginal)))
  · obtain ⟨original, isOriginal, rfl⟩ := List.mem_map.mp member
    rw [(keeps_unwrapTree callees marker).isArgument]
    exact plain original isOriginal

/-- A name survives in a tree exactly if the unwrapped tree uses it. -/
theorem survives_iff {tree : Tree} (solid : name ≠ []) (wellFormed : tree.WellFormed)
    (above : List Frame) (start : Nat) :
    Survives callees marker (Place.parentsFirst tree above start) name ↔
      name ∈ usedNames (unwrapTree callees marker tree) := by
  -- The path of a marked call is a child of a child of the call.
  suffices both : ∀ part, part = tree ∨ part ∈ tree.children → part.WellFormed → ∀ above start,
      Survives callees marker (Place.parentsFirst part above start) name ↔
        name ∈ usedNames (unwrapTree callees marker part) from both tree (.inl rfl) wellFormed above start
  clear wellFormed above start
  induction tree using Tree.childInduction with
  | leaf role kind letters =>
      rintro part (rfl | isChild) wellFormed above start
      · have unmarked := MarkedCall.ofPlace?_leaf callees marker role kind letters above start
        have stays : ∀ place, Stays callees marker [⟨.leaf role kind letters, above, start⟩] place := by
          intro place marked member
          rw [List.filterMap_cons_none unmarked] at member
          cases member
        rw [Place.parentsFirst, unwrapTree, usedNames]
        simp only [Survives, List.mem_singleton, exists_eq_left, stays, and_true]
        rw [show Place.kind ⟨.leaf role kind letters, above, start⟩ = kind from rfl,
          show Place.text ⟨.leaf role kind letters, above, start⟩ = letters from rfl]
        split
        next reference => simp [reference, eq_comm]
        next notReference => simp [notReference]
      · cases isChild
  | node role kind children childHypothesis =>
      rintro part (rfl | isChild) wellFormed above start
      · cases found : MarkedCall.ofPlace? callees marker ⟨.node role kind children, [], start⟩ with
        | none =>
            have isMarked :=
              MarkedCall.isSome_ofPlace? callees marker ⟨.node role kind children, [], start⟩
            rw [found, Option.isSome_none, eq_comm] at isMarked
            rw [survives_unmarked wellFormed found, unwrapTree_unmarked isMarked, usedNames]
            exact survives_walked solid (Place.walked_amongChildren role kind above [] start children)
              fun child member => childHypothesis child member child (.inl rfl)
                (wellFormed.children child member)
        | some marked =>
            obtain ⟨⟨list, isList, inList⟩, same⟩ := usedNames_marked wellFormed found
            obtain ⟨inner, survives⟩ := survives_marked above solid wellFormed found
            have listWellFormed := wellFormed.children list isList
            rw [survives, same]
            refine childHypothesis list isList _ (.inr inList) ?_ inner _
            cases listWellFormed with
            | leaf => cases inList
            | node _ inside => exact inside _ inList
      · exact childHypothesis part isChild part (.inl rfl) wellFormed above start

/-- The name of a default import begins with a character of its own. -/
theorem defaultLocal_begins {tree : Tree} {declared : Declared} (wellFormed : tree.WellFormed)
    (declares : declared? tree = some declared) (named : declared.defaultLocal = some name) :
    ∃ first rest, name = first :: rest ∧ isBlank first = false := by
  by_cases isImport : tree.kind = .importStatement
  · have isNode := wellFormed.eq_node (by rw [isImport]; rfl)
    rw [isImport] at isNode
    rw [isNode] at wellFormed declares
    rw [declared?_node] at declares
    obtain ⟨_, _, rfl⟩ := Option.map_eq_some_iff.mp declares
    obtain ⟨identifier, isLast, rfl⟩ := Option.map_eq_some_iff.mp named
    obtain ⟨isPart, isName⟩ := List.mem_filter.mp (List.mem_of_getLast? isLast)
    have isName : identifier.kind = .identifier := of_decide_eq_true isName
    have identifierWellFormed := wellFormed_clauseOf wellFormed.children identifier isPart
    have isLeaf := identifierWellFormed.eq_leaf (by rw [isName]; rfl)
    rw [isLeaf, isName] at identifierWellFormed
    exact identifierWellFormed.leafShape.name rfl
  · rw [declared?, if_neg isImport] at declares
    cases declares

theorem defaultLocal_ne_nil {tree : Tree} {declared : Declared} (wellFormed : tree.WellFormed)
    (declares : declared? tree = some declared) (named : declared.defaultLocal = some name) :
    name ≠ [] := by
  obtain ⟨first, rest, rfl, _⟩ := defaultLocal_begins wellFormed declares named
  exact List.cons_ne_nil first rest

/-- A use outside of a declaration is left exactly if the other statements, unwrapped, use the name. -/
theorem exists_use_iff {before after : List Tree} {found : ImportBinding}
    (wellFormed : (Script.Tree.node none .program
      (before ++ found.statement.focus :: after)).WellFormed)
    (start : found.statement.start = Tree.widthOfAll before) (solid : name ≠ [])
    (named : found.defaultLocal = some name) :
    (∃ place, IsUse (.node none .program (before ++ found.statement.focus :: after)) found place ∧
        ¬ Dropped callees marker (.node none .program (before ++ found.statement.focus :: after)) place) ↔
      name ∈ usedNames.among ((before ++ after).map (unwrapTree callees marker)) := by
  obtain ⟨front, inner, behind, split, isFront, isBehind⟩ :=
    Place.amongChildren_around none .program [] [] 0 before found.statement.focus after
  rw [Nat.zero_add, ← start] at split isBehind
  have stop : found.statement.stop = found.statement.start + found.statement.focus.width := rfl
  have stays_iff : ∀ place, ¬ Dropped callees marker
        (.node none .program (before ++ found.statement.focus :: after)) place ↔
      Stays callees marker front place ∧
        Stays callees marker (Place.parentsFirst found.statement.focus inner found.statement.start)
          place ∧ Stays callees marker behind place := by
    intro place
    rw [dropped_iff, Classical.not_not,
      stays_unmarked (MarkedCall.ofPlace?_eq_none (by simp [Tree.kind])), split, stays_append,
      stays_append]
  have spread : ∀ trees : List Tree,
      (∀ tree ∈ trees, tree ∈ before ++ found.statement.focus :: after) → ∀ {position places},
      Place.Walked trees position places → (Survives callees marker places name ↔
        name ∈ usedNames.among (trees.map (unwrapTree callees marker))) := fun trees inside _ _ walked =>
    survives_walked solid walked fun tree member =>
      survives_iff solid (wellFormed.children tree (inside tree member))
  rw [List.map_append, usedNamesAmong_append, List.mem_append,
    ← spread before (fun tree member => by simp [member]) isFront,
    ← spread after (fun tree member => by simp [member]) isBehind]
  constructor
  · rintro ⟨place, use, left⟩
    rw [stays_iff] at left
    have inTree := use.inTree
    rw [Place.preorder_eq] at inTree
    have member := reference_in_children wellFormed use.reference inTree
    rw [split, List.mem_append, List.mem_append] at member
    have isName : place.text = name := Option.some.inj (use.named.symm.trans named)
    rcases member with inFront | inDeclaration | isBehind
    · exact .inl ⟨place, inFront, use.reference, isName, left.1⟩
    · have inside := Place.range_of_parentsFirst inDeclaration
      have outside := use.outside
      rw [Range.contains_eq_false_iff] at outside
      exact absurd inside outside
    · exact .inr ⟨place, isBehind, use.reference, isName, left.2.2⟩
  · have isUse : ∀ place ∈ front ++ behind, isReferenceKind place.kind = true → place.text = name →
        place.stop ≤ found.statement.start ∨ found.statement.stop ≤ place.start →
        IsUse (.node none .program (before ++ found.statement.focus :: after)) found place := by
      intro place member reference isName apart
      have extent := solid_of_named solid isName
      refine ⟨?_, reference, by rw [named, isName], ?_⟩
      · rw [Place.preorder_eq]
        refine List.mem_cons_of_mem _ ?_
        rw [split]
        simp only [List.mem_append] at member ⊢
        exact member.imp_right .inr
      · rw [Range.contains_eq_false_iff]
        rintro ⟨low, high⟩
        have low : found.statement.start ≤ place.start := low
        have high : place.stop ≤ found.statement.stop := high
        omega
    rintro (⟨place, member, reference, isName, stays⟩ | ⟨place, member, reference, isName, stays⟩)
    · have bounds := isFront.range member
      have extent := solid_of_named solid isName
      refine ⟨place, isUse place (List.mem_append_left _ member) reference isName (.inl (by omega)),
        (stays_iff place).mpr ⟨stays, stays_elsewhere extent fun other isOther => ?_,
          stays_walked isBehind extent (.inr (by omega))⟩⟩
      have others := Place.range_of_parentsFirst isOther
      omega
    · have bounds := isBehind.range member
      have extent := solid_of_named solid isName
      refine ⟨place, isUse place (List.mem_append_right _ member) reference isName (.inr bounds.1),
        (stays_iff place).mpr ⟨stays_walked isFront extent (.inl (by omega)),
          stays_elsewhere extent fun other isOther => ?_, stays⟩⟩
      have others := Place.range_of_parentsFirst isOther
      omega

/-- True if the first default import of a module binds nothing else and no other statement, unwrapped,
uses its name. -/
def ImportUnused (directory target : Path) (callees : List Text) (marker : Text)
    (statements : List Tree) : Prop :=
  ∃ source name, (statements.filterMap declared?).find? (·.imports directory target) =
      some ⟨source, some name, 1⟩ ∧
    name ∉ usedNames.among ((beforeImport directory target statements ++
      afterImport directory target statements).map (unwrapTree callees marker))

/-- If removal unwraps anything, it deletes the import exactly if that is unused. -/
theorem removeTree_importRemoved_iff_unused (source : Text) {statements : List Tree} (directory : Path)
    (instrumentation : Instrumentation) {callees : List Text}
    (wellFormed : (Script.Tree.node none .program statements).WellFormed)
    (named : (instrumentation.localNames (findBinding? (.node none .program statements) directory
      instrumentation.modulePath)).2 = callees)
    (marks : 0 < (Script.Tree.node none .program statements).markedCount callees
      instrumentation.marker) :
    (removeTree source (.node none .program statements) directory
        instrumentation).importRemoved = true ↔
      ImportUnused directory instrumentation.modulePath callees instrumentation.marker statements := by
  rw [← length_markedCalls, List.length_pos_iff] at marks
  rw [removeTree_importRemoved_iff source _ directory instrumentation rfl named marks]
  have declares := declaredBy_findBinding? statements directory instrumentation.modulePath
  rw [ImportUnused]
  cases bound : findBinding? (.node none .program statements) directory instrumentation.modulePath with
  | none =>
      rw [bound, Option.map_none] at declares
      rw [← declares]
      simp
  | some found =>
      obtain ⟨before, after, rfl, start, _, isDeclared, imports, others⟩ := findBinding?_split bound
      rw [bound, Option.map_some] at declares
      have imports : (declared? found.statement.focus).any
          (·.imports directory instrumentation.modulePath) = true := by rw [isDeclared]; exact imports
      rw [← declares, beforeImport_split imports others, afterImport_split imports others]
      have declarationWellFormed := wellFormed.children found.statement.focus (by simp)
      constructor
      · rintro ⟨other, same, sole, unused⟩
        obtain rfl := Option.some.inj same
        rw [ImportBinding.isSoleDefault, Bool.and_eq_true, decide_eq_true_eq,
          Option.isSome_iff_exists] at sole
        obtain ⟨once, name, isName⟩ := sole
        refine ⟨found.source, name, by rw [declaredBy, isName, once], fun used => ?_⟩
        obtain ⟨place, use, left⟩ := (exists_use_iff wellFormed start
          (defaultLocal_ne_nil declarationWellFormed isDeclared isName) isName).mpr used
        exact left (unused place use)
      · rintro ⟨source, name, isFirst, unused⟩
        obtain ⟨_, isName, once⟩ := Declared.mk.inj (Option.some.inj isFirst)
        refine ⟨found, rfl, by simp [ImportBinding.isSoleDefault, once, isName], fun place use => ?_⟩
        refine Classical.not_not.mp fun left => unused ?_
        exact (exists_use_iff wellFormed start
          (defaultLocal_ne_nil declarationWellFormed isDeclared isName) isName).mp ⟨place, use, left⟩

end ImportMeter.Instrument
