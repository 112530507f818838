/-
This file builds the syntax tree that unwrapping leaves: every marked call gives way to an import of its
first argument. The tree spells the unwrapped text, is well formed and has no marked call.
-/
import ImportMeter.Proofs.Instrument.Unwrap
import ImportMeter.Proofs.Script.Rewriting

namespace ImportMeter.Instrument

open Script

/-- The trees up to the first argument, and with it. -/
def keptTrees (trees : List Tree) : List Tree :=
  trees.takeWhile (fun tree => !tree.isArgument) ++ (trees.find? Tree.isArgument).toList

/-- The trees behind the last argument. -/
def trailTrees (trees : List Tree) : List Tree :=
  (trees.reverse.takeWhile fun tree => !tree.isArgument).reverse

/-- The trees between the parentheses of a call. -/
def betweenParentheses (call : Tree) : List Tree :=
  (call.argumentList?.map fun list => list.children.tail.dropLast).getD []

/-- The import of the first argument of a call. -/
def importOf (call : Tree) : Tree :=
  .node call.role? .callExpression
    [.leaf (some .callee) .importWord Word.importWord,
      .node (some .arguments) .arguments
        (.leaf none .mark ['('] ::
          (keptTrees (betweenParentheses call) ++
            if call.givenArguments.length = 4 then trailTrees (betweenParentheses call) else []) ++
          [.leaf none .mark [')']])]

section

variable (callees : List Text) (marker : Text)

/-- A tree with all marked calls unwrapped. -/
def unwrapTree : Tree → Tree
  | .leaf role kind letters => .leaf role kind letters
  | .node role kind children =>
    if (Script.Tree.node role kind children).isMarked callees marker then
      importOf (.node role kind (among children))
    else .node role kind (among children)
where
  among : List Tree → List Tree
    | [] => []
    | tree :: rest => unwrapTree tree :: among rest

end

variable {source : Text} {callees : List Text} {marker : Text}

theorem unwrapTreeAmong_eq (trees : List Tree) :
    unwrapTree.among callees marker trees = trees.map (unwrapTree callees marker) := by
  induction trees with
  | nil => rfl
  | cons tree rest inductionHypothesis =>
      rw [unwrapTree.among, List.map_cons, inductionHypothesis]

theorem unwrapTree_marked {role : Option Role} {kind : Kind} {children : List Tree}
    (marked : (Script.Tree.node role kind children).isMarked callees marker = true) :
    unwrapTree callees marker (.node role kind children) =
      importOf (.node role kind (children.map (unwrapTree callees marker))) := by
  rw [unwrapTree, if_pos marked, unwrapTreeAmong_eq]

theorem unwrapTree_unmarked {role : Option Role} {kind : Kind} {children : List Tree}
    (unmarked : (Script.Tree.node role kind children).isMarked callees marker = false) :
    unwrapTree callees marker (.node role kind children) =
      .node role kind (children.map (unwrapTree callees marker)) := by
  rw [unwrapTree, if_neg (Bool.eq_false_iff.mp unmarked), unwrapTreeAmong_eq]

theorem kind_unwrapTree (tree : Tree) : (unwrapTree callees marker tree).kind = tree.kind := by
  cases tree with
  | leaf => rfl
  | node role kind children =>
      cases marked : (Script.Tree.node role kind children).isMarked callees marker with
      | false => rw [unwrapTree_unmarked marked]; rfl
      | true => rw [unwrapTree_marked marked, Tree.kind_of_isMarked marked]; rfl

/-- Unwrapping changes nothing but marked calls. -/
theorem descends_unwrapTree (callees : List Text) (marker : Text) :
    Tree.Descends (unwrapTree callees marker) where
  role? tree := by
    cases tree with
    | leaf => rfl
    | node role kind children =>
        cases marked : (Script.Tree.node role kind children).isMarked callees marker with
        | false => rw [unwrapTree_unmarked marked]; rfl
        | true => rw [unwrapTree_marked marked]; rfl
  kind := kind_unwrapTree
  leaf _ _ _ := rfl
  string := Tree.string_stays (fun _ _ _ => rfl) fun _ _ =>
    unwrapTree_unmarked (Tree.isMarked_eq_false (by simp [Tree.kind]))
  node _ _ _ other := unwrapTree_unmarked (Tree.isMarked_eq_false other)

theorem keeps_unwrapTree (callees : List Text) (marker : Text) :
    Tree.Keeps (unwrapTree callees marker) :=
  (descends_unwrapTree callees marker).toKeeps

/-- Whether a call is marked does not depend on the marked calls in it. -/
theorem isMarked_map_unwrapTree {role : Option Role} {kind : Kind} {children : List Tree}
    (wellFormed : (Script.Tree.node role kind children).WellFormed) :
    (Script.Tree.node role kind (children.map (unwrapTree callees marker))).isMarked callees marker =
      (Script.Tree.node role kind children).isMarked callees marker :=
  (keeps_unwrapTree callees marker).isMarked_map (keeps_unwrapTree callees marker)
    (descends_unwrapTree callees marker).lists callees marker wellFormed

theorem mem_of_mem_keptTrees {trees : List Tree} {tree : Tree} (member : tree ∈ keptTrees trees) :
    tree ∈ trees := by
  rcases List.mem_append.mp member with inFront | isFirst
  · exact (List.takeWhile_sublist _).mem inFront
  · exact List.mem_of_find?_eq_some (Option.mem_toList.mp isFirst)

theorem mem_of_mem_trailTrees {trees : List Tree} {tree : Tree}
    (member : tree ∈ trailTrees trees) : tree ∈ trees := by
  rw [trailTrees, List.mem_reverse] at member
  exact List.mem_reverse.mp ((List.takeWhile_sublist _).mem member)

/-- What an import keeps of a call stands between the parentheses of the call. -/
theorem mem_betweenParentheses {call tree : Tree} (member : tree ∈ betweenParentheses call) :
    ∃ list ∈ call.children, list.kind = .arguments ∧ tree ∈ list.children := by
  rw [betweenParentheses] at member
  cases found : call.argumentList? with
  | none => rw [found] at member; cases member
  | some list =>
      rw [found] at member
      exact ⟨list, Tree.mem_of_argumentList? found, Tree.kind_of_argumentList? found,
        List.mem_of_mem_tail ((List.dropLast_sublist _).mem member)⟩

theorem wellFormed_mark (letters : Text) : (Script.Tree.leaf none .mark letters).WellFormed :=
  .leaf ⟨rfl, nofun, nofun⟩

theorem wellFormed_importOf {call : Tree}
    (inside : ∀ tree ∈ betweenParentheses call, tree.WellFormed) :
    (importOf call).WellFormed := by
  refine .node ⟨rfl, nofun, nofun, nofun, fun _ => ⟨_, [], _, rfl, rfl, rfl, nofun⟩⟩ ?_
  refine List.forall_mem_cons.mpr ⟨.leaf ⟨rfl, nofun, fun _ => rfl⟩, ?_⟩
  refine List.forall_mem_singleton.mpr (.node ⟨rfl, fun _ => ⟨_, rfl⟩, nofun, nofun, nofun⟩ ?_)
  refine List.forall_mem_append.mpr
    ⟨List.forall_mem_cons.mpr ⟨wellFormed_mark _, List.forall_mem_append.mpr
      ⟨fun tree member => inside tree (mem_of_mem_keptTrees member), fun tree member => ?_⟩⟩,
      List.forall_mem_singleton.mpr (wellFormed_mark _)⟩
  split at member
  · exact inside tree (mem_of_mem_trailTrees member)
  · cases member

/-- The unwrapped tree is well formed. -/
theorem wellFormed_unwrapTree {tree : Tree} (wellFormed : tree.WellFormed) :
    (unwrapTree callees marker tree).WellFormed := by
  induction tree using Tree.childInduction with
  | leaf => exact wellFormed
  | node role kind children childHypothesis =>
      have inside : ∀ child ∈ children.map (unwrapTree callees marker), child.WellFormed := by
        intro child member
        obtain ⟨original, isOriginal, rfl⟩ := List.mem_map.mp member
        exact childHypothesis original isOriginal (wellFormed.children original isOriginal)
      cases marked : (Script.Tree.node role kind children).isMarked callees marker with
      | false =>
          rw [unwrapTree_unmarked marked]
          exact .node ((keeps_unwrapTree callees marker).nodeShape_map wellFormed.nodeShape) inside
      | true =>
          rw [unwrapTree_marked marked]
          refine wellFormed_importOf fun tree member => ?_
          obtain ⟨list, isChild, isArguments, inList⟩ := mem_betweenParentheses member
          have listWellFormed := inside list isChild
          have isNode := listWellFormed.eq_node (by rw [isArguments]; rfl)
          rw [isNode] at listWellFormed
          exact listWellFormed.children tree inList

theorem markedCountAmong_eq_zero_iff {trees : List Tree} :
    Tree.markedCount.among callees marker trees = 0 ↔
      ∀ tree ∈ trees, tree.markedCount callees marker = 0 := by
  induction trees with
  | nil => exact iff_of_true rfl nofun
  | cons tree rest inductionHypothesis =>
      rw [Tree.markedCount.among, Nat.add_eq_zero_iff, inductionHypothesis, List.forall_mem_cons]

/-- A tree without marked calls is no marked call and has none below. -/
theorem markedCount_node_eq_zero_iff {role : Option Role} {kind : Kind} {children : List Tree} :
    (Script.Tree.node role kind children).markedCount callees marker = 0 ↔
      (Script.Tree.node role kind children).isMarked callees marker = false ∧
        ∀ child ∈ children, child.markedCount callees marker = 0 := by
  rw [Tree.markedCount, Nat.add_eq_zero_iff, markedCountAmong_eq_zero_iff]
  cases (Script.Tree.node role kind children).isMarked callees marker <;> simp

theorem markedCount_importOf {call : Tree}
    (inside : ∀ tree ∈ betweenParentheses call, tree.markedCount callees marker = 0) :
    (importOf call).markedCount callees marker = 0 := by
  have unmarked : (importOf call).isMarked callees marker = false := by
    have nameless : (importOf call).calleeName? = none := rfl
    rw [Tree.isMarked, nameless, Option.any_none, Bool.and_false, Bool.false_and]
  rw [importOf] at unmarked ⊢
  refine markedCount_node_eq_zero_iff.mpr ⟨unmarked, ?_⟩
  refine List.forall_mem_cons.mpr ⟨rfl, List.forall_mem_singleton.mpr ?_⟩
  refine markedCount_node_eq_zero_iff.mpr ⟨Tree.isMarked_eq_false (by simp [Tree.kind]), ?_⟩
  refine List.forall_mem_append.mpr
    ⟨List.forall_mem_cons.mpr ⟨rfl, List.forall_mem_append.mpr
      ⟨fun tree member => inside tree (mem_of_mem_keptTrees member), fun tree member => ?_⟩⟩,
      List.forall_mem_singleton.mpr rfl⟩
  split at member
  · exact inside tree (mem_of_mem_trailTrees member)
  · cases member

/-- The unwrapped tree has no marked call. -/
theorem markedCount_unwrapTree {tree : Tree} (wellFormed : tree.WellFormed) :
    (unwrapTree callees marker tree).markedCount callees marker = 0 := by
  induction tree using Tree.childInduction with
  | leaf => rfl
  | node role kind children childHypothesis =>
      have inside : ∀ child ∈ children.map (unwrapTree callees marker),
          child.markedCount callees marker = 0 := by
        intro child member
        obtain ⟨original, isOriginal, rfl⟩ := List.mem_map.mp member
        exact childHypothesis original isOriginal (wellFormed.children original isOriginal)
      cases marked : (Script.Tree.node role kind children).isMarked callees marker with
      | false =>
          rw [unwrapTree_unmarked marked]
          exact markedCount_node_eq_zero_iff.mpr
            ⟨(isMarked_map_unwrapTree wellFormed).trans marked, inside⟩
      | true =>
          rw [unwrapTree_marked marked]
          refine markedCount_importOf fun tree member => ?_
          obtain ⟨list, isChild, isArguments, inList⟩ := mem_betweenParentheses member
          have none := inside list isChild
          cases list with
          | leaf => cases inList
          | node => exact (markedCount_node_eq_zero_iff.mp none).2 tree inList

/-- The trees to keep are found as before once the trees are rewritten. -/
theorem keptTrees_map {rewrite : Tree → Tree} (keeps : Tree.Keeps rewrite) (trees : List Tree) :
    keptTrees (trees.map rewrite) = (keptTrees trees).map rewrite := by
  have same : (fun tree : Tree => !tree.isArgument) ∘ rewrite = fun tree => !tree.isArgument :=
    funext fun tree => congrArg not (keeps.isArgument tree)
  rw [keptTrees, keptTrees, List.takeWhile_map, List.find?_map, same, keeps.isArgument_comp,
    List.map_append, Option.toList_map]

theorem trailTrees_map {rewrite : Tree → Tree} (keeps : Tree.Keeps rewrite) (trees : List Tree) :
    trailTrees (trees.map rewrite) = (trailTrees trees).map rewrite := by
  have same : (fun tree : Tree => !tree.isArgument) ∘ rewrite = fun tree => !tree.isArgument :=
    funext fun tree => congrArg not (keeps.isArgument tree)
  rw [trailTrees, trailTrees, ← List.map_reverse, List.takeWhile_map, same, List.map_reverse]

theorem keptTrees_eq {front after : List Tree} {first : Tree}
    (plain : ∀ tree ∈ front, tree.isArgument = false) (isArgument : first.isArgument = true) :
    keptTrees (front ++ first :: after) = front ++ [first] := by
  have skipped : ∀ tree ∈ front, (!tree.isArgument) = true := fun tree member => by
    rw [plain tree member]
    rfl
  have notFound : front.find? Tree.isArgument = none :=
    List.find?_eq_none.mpr fun tree member => Bool.eq_false_iff.mp (plain tree member)
  rw [keptTrees, List.takeWhile_append_of_pos skipped, List.find?_append, notFound,
    List.takeWhile_cons_of_neg (by rw [isArgument]; decide), List.append_nil, Option.none_or,
    List.find?_cons_of_pos isArgument]
  rfl

theorem trailTrees_eq {front after : List Tree} {last : Tree}
    (plain : ∀ tree ∈ after, tree.isArgument = false) (isArgument : last.isArgument = true) :
    trailTrees (front ++ last :: after) = after := by
  have skipped : ∀ tree ∈ after.reverse, (!tree.isArgument) = true := fun tree member => by
    rw [plain tree (List.mem_reverse.mp member)]
    rfl
  rw [trailTrees, List.reverse_append, List.reverse_cons, List.append_assoc,
    List.takeWhile_append_of_pos skipped, List.singleton_append,
    List.takeWhile_cons_of_neg (by rw [isArgument]; decide), List.append_nil, List.reverse_reverse]

theorem unwrapInAmong_append (first second : List Tree) (range : Range) (start : Nat) :
    unwrapIn.among source callees marker (first ++ second) range start =
      unwrapIn.among source callees marker first range start ++
        unwrapIn.among source callees marker second range (start + Tree.widthOfAll first) := by
  induction first generalizing start with
  | nil => rfl
  | cons tree first inductionHypothesis =>
      rw [List.cons_append, unwrapIn.among, unwrapIn.among, inductionHypothesis,
        Tree.widthOfAll_cons, List.append_assoc, Nat.add_assoc]

/-- Outside of neighbouring trees there is nothing of them. -/
theorem unwrapInAmong_apart {trees : List Tree} {range : Range} {start : Nat}
    (wellFormed : ∀ tree ∈ trees, tree.WellFormed)
    (apart : start + Tree.widthOfAll trees ≤ range.start ∨ range.stop ≤ start) :
    unwrapIn.among source callees marker trees range start = [] := by
  induction trees generalizing start with
  | nil => rfl
  | cons tree rest inductionHypothesis =>
      rw [Tree.widthOfAll_cons] at apart
      rw [unwrapIn.among, unwrapIn_apart (wellFormed tree List.mem_cons_self) (by omega),
        inductionHypothesis (fun other member => wellFormed other (List.mem_cons_of_mem tree member))
          (by omega)]
      rfl

/-- True if unwrapping a tree of the source, wherever it stands in it, leaves the text of the unwrapped
tree. -/
def Spelled (source : Text) (callees : List Text) (marker : Text) (tree : Tree) : Prop :=
  tree.WellFormed → ∀ (range : Range) (start : Nat), Text.StandsAt source start tree.text →
    range.contains ⟨start, start + tree.width⟩ = true →
      unwrapIn source callees marker tree range start = (unwrapTree callees marker tree).text

theorem spelledAmong {trees : List Tree} {range : Range} {start : Nat}
    (each : ∀ tree ∈ trees, Spelled source callees marker tree)
    (wellFormed : ∀ tree ∈ trees, tree.WellFormed)
    (stands : Text.StandsAt source start (Tree.textOfAll trees))
    (covers : range.start ≤ start ∧ start + Tree.widthOfAll trees ≤ range.stop) :
    unwrapIn.among source callees marker trees range start =
      Tree.textOfAll (trees.map (unwrapTree callees marker)) := by
  induction trees generalizing start with
  | nil => rfl
  | cons tree rest inductionHypothesis =>
      rw [Tree.textOfAll_cons] at stands
      have restStands := stands.right
      rw [← Tree.width_eq] at restStands
      rw [Tree.widthOfAll_cons] at covers
      have own := each tree List.mem_cons_self (wellFormed tree List.mem_cons_self) range start
        stands.left (Range.contains_iff.mpr (by simp only; omega))
      have others := inductionHypothesis
        (fun other member => each other (List.mem_cons_of_mem tree member))
        (fun other member => wellFormed other (List.mem_cons_of_mem tree member)) restStands
        (by omega)
      rw [unwrapIn.among, own, others, List.map_cons, Tree.textOfAll_cons]

/-- Unwrapping a call unwraps what stands between its parentheses. -/
theorem betweenParentheses_map_unwrapTree {role own : Option Role} {kind : Kind}
    {children inner : List Tree}
    (found : (Script.Tree.node role kind children).argumentList? =
      some (.node own .arguments (.leaf none .mark ['('] :: inner ++ [.leaf none .mark [')']]))) :
    betweenParentheses (.node role kind (children.map (unwrapTree callees marker))) =
      inner.map (unwrapTree callees marker) := by
  rw [betweenParentheses, (keeps_unwrapTree callees marker).argumentList?_map, found,
    Option.map_some, Option.map_some, Option.getD_some,
    (descends_unwrapTree callees marker).children (by simp [Tree.kind]), Tree.children, List.map_append,
    List.map_cons, List.cons_append, List.tail_cons, List.map_singleton, List.dropLast_concat]

/-- What is kept of a marked call are the trees up to its first argument. -/
theorem spelled_kept {role : Option Role} {kind : Kind} {children : List Tree} {start : Nat}
    {marked : MarkedCall} (wellFormed : (Script.Tree.node role kind children).WellFormed)
    (each : ∀ child ∈ children, ∀ tree ∈ child.children, Spelled source callees marker tree)
    (stands : Text.StandsAt source start (Tree.textOfAll children))
    (found : MarkedCall.ofPlace? callees marker ⟨.node role kind children, [], start⟩ = some marked) :
    unwrapIn.among source callees marker children (keptRange marked) start =
      Tree.textOfAll (keptTrees (betweenParentheses
        (.node role kind (children.map (unwrapTree callees marker))))) := by
  obtain ⟨_, before, own, front, after, behind, same, bracketed, list, listStart, pathStart, isArgument,
    plain⟩ := MarkedCall.split_path found wellFormed
  rw [bracketed] at list
  rw [betweenParentheses_map_unwrapTree list, keptTrees_map (keeps_unwrapTree callees marker),
    keptTrees_eq plain isArgument]
  obtain ⟨_, _, rfl⟩ := Script.Tree.node.inj same
  rw [bracketed] at wellFormed each stands ⊢
  have listStart : marked.arguments.start = start + Tree.widthOfAll before := listStart
  have keptStart : (keptRange marked).start = marked.arguments.start + 1 := rfl
  have keptStop : (keptRange marked).stop =
      marked.modulePath.start + marked.modulePath.focus.width := rfl
  have listWellFormed := wellFormed.children _ (List.mem_append_right before List.mem_cons_self)
  have unmarked : MarkedCall.ofPlace? callees marker
      ⟨.node own .arguments (.leaf none .mark ['('] :: (front ++ marked.modulePath.focus :: after) ++
        [.leaf none .mark [')']]), [], start + Tree.widthOfAll before⟩ = none :=
    MarkedCall.ofPlace?_eq_none (by simp [Tree.kind])
  have inBefore : unwrapIn.among source callees marker before (keptRange marked) start = [] :=
    unwrapInAmong_apart (fun tree member => wellFormed.children tree (List.mem_append_left _ member))
      (by omega)
  have inBehind : ∀ position, marked.modulePath.stop ≤ position →
      unwrapIn.among source callees marker behind (keptRange marked) position = [] :=
    fun position above => unwrapInAmong_apart
      (fun tree member => wellFormed.children tree (by simp [member])) (.inr above)
  have inAfter : ∀ position, marked.modulePath.stop ≤ position →
      unwrapIn.among source callees marker (after ++ [.leaf none .mark [')']]) (keptRange marked)
        position = [] :=
    fun position above => unwrapInAmong_apart
      (fun tree member => listWellFormed.children tree (by
        rcases List.mem_append.mp member with inAfter | isClosing
        · simp [inAfter]
        · simp [List.mem_singleton.mp isClosing])) (.inr above)
  have regroup : (.leaf none .mark ['('] :: (front ++ marked.modulePath.focus :: after) ++
      [.leaf none .mark [')']]) = [.leaf none .mark ['(']] ++
        ((front ++ [marked.modulePath.focus]) ++ (after ++ [.leaf none .mark [')']])) := by
    simp only [List.append_assoc, List.cons_append, List.nil_append]
  have listStands : Text.StandsAt source (marked.arguments.start + 1)
      (Tree.textOfAll (front ++ [marked.modulePath.focus])) := by
    rw [Tree.textOfAll_append, Tree.textOfAll_cons] at stands
    have inList := stands.right.left
    rw [← Tree.widthOfAll_eq, ← listStart, Tree.text_node, regroup, Tree.textOfAll_append,
      Tree.textOfAll_append] at inList
    exact inList.right.left
  have kept : unwrapIn.among source callees marker (front ++ [marked.modulePath.focus])
        (keptRange marked) (marked.arguments.start + 1) =
      Tree.textOfAll ((front ++ [marked.modulePath.focus]).map (unwrapTree callees marker)) := by
    refine spelledAmong (fun tree member => ?_) (fun tree member => ?_) listStands ?_
    · refine each _ (List.mem_append_right before List.mem_cons_self) tree ?_
      rw [Tree.children, regroup]
      simp only [List.mem_append] at member ⊢
      exact .inr (.inl member)
    · refine listWellFormed.children tree ?_
      rw [regroup]
      simp only [List.mem_append] at member ⊢
      exact .inr (.inl member)
    · simp only [Tree.widthOfAll_append, Tree.widthOfAll_cons, Tree.widthOfAll_nil]
      omega
  have pathStop : marked.modulePath.stop =
      marked.modulePath.start + marked.modulePath.focus.width := rfl
  have opening : unwrapIn.among source callees marker [.leaf none .mark ['(']] (keptRange marked)
      (start + Tree.widthOfAll before) = [] := by
    refine unwrapInAmong_apart (List.forall_mem_singleton.mpr (wellFormed_mark _)) (.inl ?_)
    simp only [Tree.widthOfAll_cons, Tree.widthOfAll_nil, Tree.width_leaf, List.length_singleton]
    omega
  have inside : start + Tree.widthOfAll before + Tree.widthOfAll [.leaf none .mark ['(']] =
      marked.arguments.start + 1 := by
    simp only [Tree.widthOfAll_cons, Tree.widthOfAll_nil, Tree.width_leaf, List.length_singleton]
    omega
  rw [unwrapInAmong_append, inBefore, unwrapIn.among, unwrapIn_unmarked unmarked, inBehind, regroup,
    unwrapInAmong_append, opening, unwrapInAmong_append, inside, kept, inAfter]
  · simp only [List.nil_append, List.append_nil, List.map_append, List.map_cons, List.map_nil]
  · simp only [Tree.widthOfAll_append, Tree.widthOfAll_cons, Tree.widthOfAll_nil]
    omega
  · simp only [Tree.width_node, Tree.widthOfAll_append, Tree.widthOfAll_cons, Tree.width_leaf,
      List.cons_append, List.length_singleton]
    omega

/-- What is carried over from behind the marker are the trees behind the last of four arguments. -/
theorem spelled_trail {role : Option Role} {kind : Kind} {children : List Tree} {start : Nat}
    {marked : MarkedCall} (wellFormed : (Script.Tree.node role kind children).WellFormed)
    (stands : Text.StandsAt source start (Tree.textOfAll children))
    (found : MarkedCall.ofPlace? callees marker ⟨.node role kind children, [], start⟩ = some marked) :
    let call := Script.Tree.node role kind (children.map (unwrapTree callees marker))
    trailOf source marked = Tree.textOfAll
      (if call.givenArguments.length = 4 then trailTrees (betweenParentheses call) else []) := by
  intro call
  obtain ⟨_, _, isList, second, third, others, arguments, count⟩ :=
    MarkedCall.ofPlace?_eq_some found
  obtain ⟨_, before, own, inner, behind, same, bracketed, listStart⟩ :=
    MarkedCall.split_list found wellFormed
  have given : call.givenArguments.length = marked.argumentCount := by
    have focuses := congrArg List.length (map_focus_argumentsOf ⟨.node role kind children, [], start⟩)
    rw [List.length_map, arguments] at focuses
    have mapped := (keeps_unwrapTree callees marker).givenArguments_map
      (keeps_unwrapTree callees marker) (descends_unwrapTree callees marker).lists role kind children
    simp only [call, mapped, List.length_map, count, ← focuses, List.length_cons]
    omega
  have list := map_focus_argumentList? ⟨.node role kind children, [], start⟩
  rw [isList, Option.map_some, bracketed, eq_comm] at list
  rw [trailOf, given]
  split
  next four =>
    have arguments : argumentsOf ⟨.node role kind children, [], start⟩ =
        [marked.modulePath, second, third] ++ marked.marker :: others := arguments
    obtain ⟨front, after, rfl, isArgument, _, noOthers, markerStart⟩ :=
      argumentsOf_between isList bracketed arguments
    have plain : ∀ tree ∈ after, tree.isArgument = false := by
      have none : others = [] := by
        rw [← List.length_eq_zero_iff]
        omega
      rw [none, List.map_nil, List.filter_eq_nil_iff] at noOthers
      exact fun tree member => Bool.eq_false_iff.mpr (noOthers tree member)
    obtain ⟨_, _, rfl⟩ := Script.Tree.node.inj same
    rw [bracketed] at wellFormed stands
    have listWellFormed := wellFormed.children _ (List.mem_append_right before List.mem_cons_self)
    have unchanged : after.map (unwrapTree callees marker) = after :=
      (keeps_unwrapTree callees marker).map_tokens
        (fun tree member => listWellFormed.children tree (by simp [member]))
        fun tree member => Tree.isToken_of_isArgument (plain tree member)
    rw [betweenParentheses_map_unwrapTree list, trailTrees_map (keeps_unwrapTree callees marker),
      trailTrees_eq plain isArgument, unchanged]
    have regroup : (.leaf none .mark ['('] :: (front ++ marked.marker.focus :: after) ++
        [.leaf none .mark [')']]) = (.leaf none .mark ['('] :: front ++ [marked.marker.focus]) ++
          (after ++ [.leaf none .mark [')']]) := by
      simp only [List.append_assoc, List.cons_append, List.nil_append]
    have listStart : marked.arguments.start = start + Tree.widthOfAll before := listStart
    have markerStop : marked.marker.stop = marked.marker.start + marked.marker.focus.width := rfl
    have listStop : marked.arguments.stop = marked.marker.stop + Tree.widthOfAll after + 1 := by
      rw [Place.stop, bracketed]
      simp only [Tree.width_node, Tree.widthOfAll_append, Tree.widthOfAll_cons,
        Tree.widthOfAll_nil, Tree.width_leaf, List.length_singleton, List.cons_append]
      omega
    have afterStands : Text.StandsAt source marked.marker.stop (Tree.textOfAll after) := by
      rw [Tree.textOfAll_append, Tree.textOfAll_cons] at stands
      have inList := stands.right.left
      rw [← Tree.widthOfAll_eq, ← listStart, Tree.text_node, regroup, Tree.textOfAll_append] at inList
      have inAfter := inList.right
      rw [← Tree.widthOfAll_eq, Tree.textOfAll_append] at inAfter
      have position : marked.arguments.start + Tree.widthOfAll
          (.leaf none .mark ['('] :: front ++ [marked.marker.focus]) = marked.marker.stop := by
        simp only [Tree.widthOfAll_append, Tree.widthOfAll_cons, Tree.widthOfAll_nil,
          Tree.width_leaf, List.length_singleton]
        omega
      rw [position] at inAfter
      exact inAfter.left
    have slice := afterStands.slice_eq
    rw [← Tree.widthOfAll_eq] at slice
    rwa [listStop, Nat.add_sub_cancel]
  next => rfl

theorem text_importOf (call : Tree) :
    (importOf call).text = "import(".toList ++ Tree.textOfAll (keptTrees (betweenParentheses call)) ++
      Tree.textOfAll (if call.givenArguments.length = 4 then
        trailTrees (betweenParentheses call) else []) ++ [')'] := by
  have opening : "import(".toList = Word.importWord ++ ['('] := by decide
  simp only [importOf, opening, Tree.text_node, Tree.text_leaf, Tree.textOfAll_cons,
    Tree.textOfAll_nil, Tree.textOfAll_append, List.append_assoc, List.append_nil,
    List.cons_append, List.nil_append]

/-- The unwrapped tree spells the unwrapped text. -/
theorem spelled (source : Text) (callees : List Text) (marker : Text) (tree : Tree) :
    Spelled source callees marker tree := by
  -- The path of a marked call is a child of a child of the call.
  suffices both : Spelled source callees marker tree ∧
      ∀ child ∈ tree.children, Spelled source callees marker child from both.1
  induction tree using Tree.childInduction with
  | leaf role kind letters =>
      refine ⟨fun _ range start _ covers => ?_, nofun⟩
      rw [Range.contains_iff, Tree.width_leaf] at covers
      simp only at covers
      rw [unwrapIn, unwrapTree, Tree.text_leaf, Nat.sub_eq_zero_of_le covers.1, Text.slice,
        List.drop_zero, List.take_of_length_le (by omega)]
  | node role kind children childHypothesis =>
      refine ⟨fun wellFormed range start stands covers => ?_,
        fun child member => (childHypothesis child member).1⟩
      have isMarked := MarkedCall.isSome_ofPlace? callees marker ⟨.node role kind children, [], start⟩
      cases found : MarkedCall.ofPlace? callees marker ⟨.node role kind children, [], start⟩ with
      | none =>
          rw [found] at isMarked
          rw [unwrapIn_unmarked found, unwrapTree_unmarked isMarked.symm, Tree.text_node]
          exact spelledAmong (fun child member => (childHypothesis child member).1)
            wellFormed.children stands (Range.contains_iff.mp covers)
      | some marked =>
          rw [found] at isMarked
          rw [← range_of_marked found] at covers
          rw [unwrapIn_marked found covers, unwrapTree_marked isMarked.symm, text_importOf,
            spelled_kept wellFormed (fun child member => (childHypothesis child member).2) stands found,
            spelled_trail wellFormed stands found]

end ImportMeter.Instrument
