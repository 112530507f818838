/-
This file finds the children of places in the children of trees, and reads the parts of a call from
its tree.
-/
import ImportMeter.Proofs.Script.Shape
import ImportMeter.Script.Call

namespace ImportMeter.Script

namespace Place

/-- The places of neighbouring children from some position on. -/
def childPlaces (role : Option Role) (kind : Kind) (above : List Frame) :
    List Tree → Nat → List Tree → List Place
  | _, _, [] => []
  | left, start, tree :: right =>
    ⟨tree, ⟨role, kind, left, right⟩ :: above, start⟩ ::
      childPlaces role kind above (tree :: left) (start + tree.width) right

theorem andSiblings_eq (role : Option Role) (kind : Kind) (above : List Frame) (left : List Tree)
    (start fuel : Nat) (tree : Tree) (right : List Tree) (enough : right.length < fuel) :
    andSiblings fuel ⟨tree, ⟨role, kind, left, right⟩ :: above, start⟩ =
      childPlaces role kind above left start (tree :: right) := by
  induction right generalizing tree left start fuel with
  | nil =>
      cases fuel with
      | zero => cases enough
      | succ fuel => rfl
  | cons next right inductionHypothesis =>
      cases fuel with
      | zero => cases enough
      | succ fuel =>
          have others := inductionHypothesis (tree :: left) (start + tree.width) fuel next
            (Nat.lt_of_succ_lt_succ enough)
          exact congrArg _ others

/-- The children of a place are the children of its tree. -/
theorem children_eq (role : Option Role) (kind : Kind) (children : List Tree) (above : List Frame)
    (start : Nat) : Place.children ⟨.node role kind children, above, start⟩ =
      childPlaces role kind above [] start children := by
  cases children with
  | nil => rfl
  | cons first right =>
      exact andSiblings_eq role kind above [] start (right.length + 1) first right
        (Nat.lt_succ_self _)

theorem map_focus_childPlaces (role : Option Role) (kind : Kind) (above : List Frame)
    (left : List Tree) (start : Nat) (children : List Tree) :
    (childPlaces role kind above left start children).map Place.focus = children := by
  induction children generalizing left start with
  | nil => rfl
  | cons tree children inductionHypothesis =>
      rw [childPlaces, List.map_cons, inductionHypothesis]

/-- Where a child stands among the others. -/
theorem start_of_split {role : Option Role} {kind : Kind} {above : List Frame}
    {left children : List Tree} {start : Nat} {before after : List Place} {place : Place}
    (split : childPlaces role kind above left start children = before ++ place :: after) :
    children = before.map Place.focus ++ place.focus :: after.map Place.focus ∧
      place.start = start + Tree.widthOfAll (before.map Place.focus) := by
  have focuses := map_focus_childPlaces role kind above left start children
  rw [split, List.map_append, List.map_cons] at focuses
  refine ⟨focuses.symm, ?_⟩
  clear focuses
  induction before generalizing left start children with
  | nil =>
      cases children with
      | nil => cases split
      | cons tree children =>
          obtain ⟨rfl, _⟩ := List.cons.inj split
          rfl
  | cons first before inductionHypothesis =>
      cases children with
      | nil => cases split
      | cons tree children =>
          obtain ⟨rfl, others⟩ := List.cons.inj split
          rw [inductionHypothesis others, List.map_cons, Tree.widthOfAll_cons, Nat.add_assoc]

/-- The child that plays a part is found in the tree. -/
theorem map_focus_child? (place : Place) (role : Role) :
    (place.child? role).map Place.focus = place.focus.child? role := by
  rcases place with ⟨tree, above, start⟩
  cases tree with
  | leaf => rfl
  | node own kind children =>
      have same : ∀ places : List Place,
          (places.find? fun child => decide (child.focus.role? = some role)).map Place.focus =
            (places.map Place.focus).find? fun child => decide (child.role? = some role) := by
        intro places
        rw [List.find?_map]
        rfl
      rw [Place.child?, same, children_eq, map_focus_childPlaces]
      rfl

/-- A place that is found among the children of a place. -/
theorem exists_split_of_mem {place child : Place} (member : child ∈ place.children) :
    ∃ role kind before after, place.focus = .node role kind (before ++ child.focus :: after) ∧
      child.start = place.start + Tree.widthOfAll before := by
  rcases place with ⟨tree, above, start⟩
  cases tree with
  | leaf => cases member
  | node role kind children =>
      rw [children_eq] at member
      obtain ⟨before, after, split⟩ := List.append_of_mem member
      obtain ⟨same, starts⟩ := start_of_split split
      exact ⟨role, kind, before.map Place.focus, after.map Place.focus, by rw [← same], starts⟩

end Place

namespace Tree

/-- True for what counts as an argument among the children of a list of arguments. -/
def isArgument (tree : Tree) : Bool := tree.kind.isNamed && decide (tree.kind ≠ .comment)

/-- What counts as no argument is a token. -/
theorem isToken_of_isArgument {tree : Tree} (plain : tree.isArgument = false) :
    tree.kind.isToken = true := by
  rw [isArgument] at plain
  revert plain
  cases tree.kind <;> simp [Kind.isNamed, Kind.isToken]

def calleeName? (call : Tree) : Option Text :=
  ((call.child? .callee).filter (·.kind = .identifier)).map text

def argumentList? (call : Tree) : Option Tree :=
  (call.child? .arguments).filter (·.kind = .arguments)

/-- The arguments of a call. -/
def givenArguments (call : Tree) : List Tree :=
  match call.argumentList? with
  | some list => list.children.filter isArgument
  | none => []

end Tree

theorem calleeName?_eq (place : Place) : calleeName? place = place.focus.calleeName? := by
  rw [calleeName?, Tree.calleeName?, ← Place.map_focus_child?, Option.filter_map, Option.map_map]
  rfl

theorem map_focus_argumentList? (place : Place) :
    (argumentList? place).map Place.focus = place.focus.argumentList? := by
  rw [argumentList?, Tree.argumentList?, ← Place.map_focus_child?, Option.filter_map]
  rfl

/-- The arguments of a call are among the children of the list. -/
theorem argumentsOf_eq {call : Place} {role : Option Role} {kind : Kind} {children : List Tree}
    {above : List Frame} {start : Nat}
    (found : argumentList? call = some ⟨.node role kind children, above, start⟩) :
    argumentsOf call = (Place.childPlaces role kind above [] start children).filter
      (fun child => child.focus.isArgument) := by
  simp only [argumentsOf, found, Place.namedChildren, List.filter_filter, Place.children_eq]
  refine List.filter_congr fun child _ => ?_
  simp only [Tree.isArgument, Place.kind]
  exact Bool.and_comm _ _

/-- The arguments of a call are found in its tree. -/
theorem map_focus_argumentsOf (call : Place) :
    (argumentsOf call).map Place.focus = call.focus.givenArguments := by
  have same := map_focus_argumentList? call
  rw [Tree.givenArguments, ← same]
  cases found : argumentList? call with
  | none => simp only [argumentsOf, found, Option.map_none, List.map_nil]
  | some list =>
      rcases list with ⟨tree, above, start⟩
      cases tree with
      | leaf => simp only [argumentsOf, found, Option.map_some]; rfl
      | node role kind children =>
          have focuses := Place.map_focus_childPlaces role kind above [] start children
          rw [argumentsOf_eq found]
          refine Eq.trans ?_ (congrArg (List.filter Tree.isArgument) focuses)
          rw [List.filter_map]
          rfl

/-- The list of arguments of a call, where it stands, and the children in it. -/
theorem argumentList?_split {call list : Place} (found : argumentList? call = some list)
    (wellFormed : call.focus.WellFormed) :
    ∃ role kind before after own inner,
      call.focus = .node role kind (before ++ list.focus :: after) ∧
      list.focus = .node own .arguments (.leaf none .mark ['('] :: inner ++ [.leaf none .mark [')']]) ∧
      list.start = call.start + Tree.widthOfAll before := by
  obtain ⟨child, isArguments⟩ := Option.filter_eq_some_iff.mp found
  have member : list ∈ call.children := List.mem_of_find?_eq_some child
  obtain ⟨role, kind, before, after, same, starts⟩ := Place.exists_split_of_mem member
  rw [same] at wellFormed
  have inside : list.focus.WellFormed := wellFormed.children list.focus (by simp)
  have isKind : list.focus.kind = .arguments := of_decide_eq_true isArguments
  have isNode := inside.eq_node (by rw [isKind]; rfl)
  rw [isKind] at isNode
  have shape : Tree.NodeShape .arguments list.focus.children := by
    rw [isNode] at inside
    exact inside.nodeShape
  obtain ⟨inner, bracketed⟩ := shape.arguments rfl
  exact ⟨role, kind, before, after, list.focus.role?, inner, same, by rw [← bracketed, ← isNode],
    starts⟩

/-- Where an argument stands among what is in the parentheses. -/
theorem argumentsOf_split {call list argument : Place} {front behind : List Place}
    {own : Option Role} {children : List Tree} (found : argumentList? call = some list)
    (same : list.focus = .node own .arguments children)
    (arguments : argumentsOf call = front ++ argument :: behind) :
    ∃ before after, children = before ++ argument.focus :: after ∧
      argument.focus.isArgument = true ∧
      before.filter Tree.isArgument = front.map Place.focus ∧
      after.filter Tree.isArgument = behind.map Place.focus ∧
      argument.start = list.start + Tree.widthOfAll before := by
  rcases list with ⟨tree, above, start⟩
  obtain rfl : tree = .node own .arguments children := same
  rw [argumentsOf_eq found, List.filter_eq_append_iff] at arguments
  obtain ⟨first, second, split, inFront, rest⟩ := arguments
  obtain ⟨skipped, last, rfl, notArguments, isArgument, inBack⟩ := List.filter_eq_cons_iff.mp rest
  rw [← List.append_assoc] at split
  obtain ⟨focuses, starts⟩ := Place.start_of_split split
  have filterFocus : ∀ places : List Place, (places.map Place.focus).filter Tree.isArgument =
      (places.filter fun child => child.focus.isArgument).map Place.focus := by
    intro places
    rw [List.filter_map]
    rfl
  refine ⟨_, _, focuses, isArgument, ?_, ?_, starts⟩
  · rw [filterFocus, List.filter_append, inFront, List.filter_eq_nil_iff.mpr notArguments,
      List.append_nil]
  · rw [filterFocus, inBack]

/-- Where an argument stands between the parentheses. -/
theorem argumentsOf_between {call list argument : Place} {front behind : List Place}
    {own : Option Role} {inner : List Tree} (found : argumentList? call = some list)
    (same : list.focus =
      .node own .arguments (.leaf none .mark ['('] :: inner ++ [.leaf none .mark [')']]))
    (arguments : argumentsOf call = front ++ argument :: behind) :
    ∃ before after, inner = before ++ argument.focus :: after ∧
      argument.focus.isArgument = true ∧
      before.filter Tree.isArgument = front.map Place.focus ∧
      after.filter Tree.isArgument = behind.map Place.focus ∧
      argument.start = list.start + 1 + Tree.widthOfAll before := by
  obtain ⟨before, after, split, isArgument, inFront, inBehind, starts⟩ :=
    argumentsOf_split found same arguments
  cases before with
  | nil =>
      obtain ⟨opening, _⟩ := List.cons.inj split
      rw [← opening] at isArgument
      exact absurd isArgument (by decide)
  | cons opening before =>
      obtain ⟨rfl, inside⟩ := List.cons.inj split
      have inside : inner ++ [.leaf none .mark [')']] = before ++ argument.focus :: after := inside
      rcases List.eq_nil_or_concat after with rfl | ⟨after, last, rfl⟩
      · obtain ⟨_, closing⟩ := List.append_inj' inside rfl
        rw [← List.singleton_inj.mp closing] at isArgument
        exact absurd isArgument (by decide)
      · rw [List.concat_eq_append, ← List.cons_append, ← List.append_assoc] at inside
        obtain ⟨same, closing⟩ := List.append_inj' inside rfl
        obtain rfl := List.singleton_inj.mp closing
        refine ⟨before, after, same, isArgument, inFront, ?_, ?_⟩
        · rw [← inBehind, List.concat_eq_append, List.filter_append]
          exact (List.append_nil _).symm
        · rw [starts, Tree.widthOfAll_cons, Tree.width_leaf, List.length_singleton, Nat.add_assoc]

/-- A call with a list of arguments ends with the list. -/
theorem Tree.call_shape {call list : Tree} (wellFormed : call.WellFormed)
    (isCall : call.kind = .callExpression) (found : call.argumentList? = some list) :
    ∃ role callee middle inner,
      call = .node role .callExpression (callee :: middle ++ [list]) ∧
      callee.role? = some .callee ∧ (∀ tree ∈ middle, BetweenCall tree) ∧
      list = .node (some .arguments) .arguments
        (.leaf none .mark ['('] :: inner ++ [.leaf none .mark [')']]) := by
  have isNode := wellFormed.eq_node (by rw [isCall]; rfl)
  rw [isCall] at isNode
  rw [isNode] at wellFormed found
  obtain ⟨callee, middle, last, shape, isCallee, isLast, between⟩ :=
    wellFormed.nodeShape.callExpression rfl
  obtain ⟨child, isArguments⟩ := Option.filter_eq_some_iff.mp found
  have isKind : list.kind = .arguments := of_decide_eq_true isArguments
  have first : (callee :: middle ++ [last]).find? (fun tree => tree.role? = some .arguments) =
      some last := by
    have notCallee : decide (callee.role? = some Role.arguments) = false := by
      simp [isCallee]
    have isFirst : decide (last.role? = some Role.arguments) = true := by
      simp [isLast]
    have notMiddle : ∀ tree ∈ middle, ¬ (decide (tree.role? = some Role.arguments)) = true := by
      intro tree member
      obtain ⟨kind, letters, rfl, _⟩ := between tree member
      simp [Tree.role?]
    simp only [List.cons_append, List.find?_cons, notCallee, List.find?_append,
      List.find?_eq_none.mpr notMiddle, Option.none_or, isFirst]
  have same : list = last := by
    rw [Tree.child?, Tree.children, shape, first] at child
    exact (Option.some.inj child).symm
  subst same
  rw [shape] at isNode wellFormed
  have inside := wellFormed.children list (by simp)
  have listNode := inside.eq_node (by rw [isKind]; rfl)
  rw [isKind, isLast] at listNode
  rw [listNode] at inside
  obtain ⟨inner, bracketed⟩ := inside.nodeShape.arguments rfl
  rw [bracketed] at listNode
  exact ⟨call.role?, callee, middle, inner, isNode, isCallee, between, listNode⟩

/-- The callee of a call, if it is a name, is its first leaf. -/
theorem Tree.callee_shape {role : Option Role} {kind : Kind} {callee : Tree} {rest : List Tree}
    {name : Text} (wellFormed : callee.WellFormed) (isCallee : callee.role? = some .callee)
    (called : (Tree.node role kind (callee :: rest)).calleeName? = some name) :
    callee = .leaf (some .callee) .identifier name := by
  have first : (Tree.node role kind (callee :: rest)).child? .callee = some callee := by
    simp only [Tree.child?, Tree.children, List.find?_cons, isCallee, decide_true]
  rw [Tree.calleeName?, first] at called
  obtain ⟨tree, filtered, rfl⟩ := Option.map_eq_some_iff.mp called
  obtain ⟨same, isName⟩ := Option.filter_eq_some_iff.mp filtered
  obtain rfl := Option.some.inj same
  have isKind : callee.kind = .identifier := of_decide_eq_true isName
  have isLeaf := wellFormed.eq_leaf (by rw [isKind]; rfl)
  rwa [isKind, isCallee] at isLeaf

/-- The same place in a larger tree. -/
def Place.lift (above : List Frame) (place : Place) : Place :=
  { place with above := place.above ++ above }

theorem Place.childPlaces_lift (role : Option Role) (kind : Kind) (above : List Frame)
    (left : List Tree) (start : Nat) (children : List Tree) :
    childPlaces role kind above left start children =
      (childPlaces role kind [] left start children).map (lift above) := by
  induction children generalizing left start with
  | nil => rfl
  | cons tree children inductionHypothesis =>
      rw [childPlaces, childPlaces, List.map_cons, ← inductionHypothesis]
      rfl

/-- The children of a place stay the same in a larger tree. -/
theorem Place.children_lift (tree : Tree) (above : List Frame) (start : Nat) :
    Place.children ⟨tree, above, start⟩ = (Place.children ⟨tree, [], start⟩).map (lift above) := by
  cases tree with
  | leaf => rfl
  | node role kind children =>
      rw [children_eq, children_eq]
      exact childPlaces_lift role kind above [] start children

theorem Place.child?_lift (tree : Tree) (above : List Frame) (start : Nat) (role : Role) :
    Place.child? ⟨tree, above, start⟩ role =
      (Place.child? ⟨tree, [], start⟩ role).map (lift above) := by
  rw [child?, children_lift, List.find?_map]
  rfl

theorem argumentList?_lift (tree : Tree) (above : List Frame) (start : Nat) :
    argumentList? ⟨tree, above, start⟩ =
      (argumentList? ⟨tree, [], start⟩).map (Place.lift above) := by
  rw [argumentList?, Place.child?_lift, Option.filter_map]
  rfl

theorem argumentsOf_lift (tree : Tree) (above : List Frame) (start : Nat) :
    argumentsOf ⟨tree, above, start⟩ =
      (argumentsOf ⟨tree, [], start⟩).map (Place.lift above) := by
  simp only [argumentsOf, argumentList?_lift tree above start]
  cases argumentList? ⟨tree, [], start⟩ with
  | none => rfl
  | some list =>
      rcases list with ⟨inner, innerAbove, innerStart⟩
      have within : Place.children (Place.lift above ⟨inner, innerAbove, innerStart⟩) =
          (Place.children ⟨inner, innerAbove, innerStart⟩).map (Place.lift above) := by
        rw [Place.children_lift inner innerAbove, List.map_map]
        refine (Place.children_lift inner (innerAbove ++ above) innerStart).trans ?_
        refine List.map_congr_left fun child _ => ?_
        simp only [Function.comp, Place.lift, List.append_assoc]
      simp only [Option.map_some, Place.namedChildren, within, List.filter_map]
      rfl

/-- The same call in a larger tree. -/
def MarkedCall.lift (above : List Frame) (marked : MarkedCall) : MarkedCall where
  call := marked.call.lift above
  callee := marked.callee.lift above
  arguments := marked.arguments.lift above
  modulePath := marked.modulePath.lift above
  marker := marked.marker.lift above
  argumentCount := marked.argumentCount

/-- Whether a call is marked does not depend on what it is a part of. -/
theorem MarkedCall.ofPlace?_lift (callees : List Text) (marker : Text) (tree : Tree)
    (above : List Frame) (start : Nat) :
    MarkedCall.ofPlace? callees marker ⟨tree, above, start⟩ =
      (MarkedCall.ofPlace? callees marker ⟨tree, [], start⟩).map (MarkedCall.lift above) := by
  have same : (decide (Place.kind ⟨tree, above, start⟩ = .callExpression) &&
      (calleeName? ⟨tree, above, start⟩).any callees.contains) =
        (decide (Place.kind ⟨tree, [], start⟩ = .callExpression) &&
          (calleeName? ⟨tree, [], start⟩).any callees.contains) := by
    rw [calleeName?_eq, calleeName?_eq]
    rfl
  unfold MarkedCall.ofPlace?
  by_cases called : (decide (Place.kind ⟨tree, [], start⟩ = .callExpression) &&
      (calleeName? ⟨tree, [], start⟩).any callees.contains) = true
  · rw [if_pos (same.trans called), if_pos called, argumentsOf_lift, Place.child?_lift,
      argumentList?_lift]
    rcases argumentsOf ⟨tree, [], start⟩ with
      _ | ⟨modulePath, _ | ⟨second, _ | ⟨third, _ | ⟨fourth, others⟩⟩⟩⟩
    · rfl
    · rfl
    · rfl
    · rfl
    · simp only [List.map_cons, List.length_cons, List.length_map]
      by_cases tagged : stringValue? fourth.focus = some marker
      · have liftTagged : stringValue? (fourth.lift above).focus = some marker := tagged
        rw [if_pos tagged, if_pos liftTagged]
        cases Place.child? ⟨tree, [], start⟩ .callee with
        | none => rfl
        | some callee =>
            cases argumentList? ⟨tree, [], start⟩ with
            | none => rfl
            | some list => rfl
      · have liftTagged : ¬ stringValue? (fourth.lift above).focus = some marker := tagged
        rw [if_neg tagged, if_neg liftTagged]
        rfl
  · rw [if_neg (by rw [same]; exact called), if_neg called]
    rfl

/-- What a marked call is made of. -/
theorem MarkedCall.ofPlace?_eq_some {callees : List Text} {marker : Text} {place : Place}
    {marked : MarkedCall} (found : MarkedCall.ofPlace? callees marker place = some marked) :
    marked.call = place ∧ place.kind = .callExpression ∧
      argumentList? place = some marked.arguments ∧ ∃ second third others,
        argumentsOf place = marked.modulePath :: second :: third :: marked.marker :: others ∧
          marked.argumentCount = 4 + others.length := by
  unfold MarkedCall.ofPlace? at found
  split at found
  next called =>
    split at found
    next modulePath second third fourth others arguments =>
      split at found
      next =>
        split at found
        next callee list _ isList =>
          cases found
          have isCall := (Bool.and_eq_true_iff.mp called).1
          refine ⟨rfl, of_decide_eq_true isCall, isList, second, third, others, arguments, ?_⟩
          simp only [List.length_cons]
          omega
        next => cases found
      next => cases found
    next => cases found
  next => cases found

/-- The list of arguments of a marked call. -/
theorem MarkedCall.split_list {callees : List Text} {marker : Text} {place : Place}
    {marked : MarkedCall} (found : MarkedCall.ofPlace? callees marker place = some marked)
    (wellFormed : place.focus.WellFormed) :
    ∃ role before own inner behind,
      place.focus = .node role .callExpression (before ++ marked.arguments.focus :: behind) ∧
      marked.arguments.focus =
        .node own .arguments (.leaf none .mark ['('] :: inner ++ [.leaf none .mark [')']]) ∧
      marked.arguments.start = place.start + Tree.widthOfAll before := by
  obtain ⟨_, isCall, isList, _⟩ := ofPlace?_eq_some found
  obtain ⟨role, kind, before, behind, own, inner, same, bracketed, starts⟩ :=
    argumentList?_split isList wellFormed
  obtain rfl : kind = .callExpression := by
    rw [Place.kind, same] at isCall
    exact isCall
  exact ⟨role, before, own, inner, behind, same, bracketed, starts⟩

/-- The path of a marked call in its list. It is the first argument, so nothing that counts as one stands
in front of it. -/
theorem MarkedCall.split_path {callees : List Text} {marker : Text} {place : Place}
    {marked : MarkedCall} (found : MarkedCall.ofPlace? callees marker place = some marked)
    (wellFormed : place.focus.WellFormed) :
    ∃ role before own front after behind,
      place.focus = .node role .callExpression (before ++ marked.arguments.focus :: behind) ∧
      marked.arguments.focus = .node own .arguments
        (.leaf none .mark ['('] :: (front ++ marked.modulePath.focus :: after) ++
          [.leaf none .mark [')']]) ∧
      place.focus.argumentList? = some marked.arguments.focus ∧
      marked.arguments.start = place.start + Tree.widthOfAll before ∧
      marked.modulePath.start = marked.arguments.start + 1 + Tree.widthOfAll front ∧
      marked.modulePath.focus.isArgument = true ∧ ∀ tree ∈ front, tree.isArgument = false := by
  obtain ⟨_, _, isList, second, third, others, arguments, _⟩ := ofPlace?_eq_some found
  obtain ⟨role, before, own, inner, behind, same, bracketed, starts⟩ := split_list found wellFormed
  have arguments : argumentsOf place =
      [] ++ marked.modulePath :: second :: third :: marked.marker :: others := arguments
  obtain ⟨front, after, rfl, isArgument, plain, _, pathStarts⟩ :=
    argumentsOf_between isList bracketed arguments
  have list := map_focus_argumentList? place
  rw [isList, Option.map_some] at list
  exact ⟨role, before, own, front, after, behind, same, bracketed, list.symm, starts, pathStarts,
    isArgument, fun tree member => Bool.eq_false_iff.mpr (List.filter_eq_nil_iff.mp plain tree member)⟩

/-- The trees that a marked call is made of. -/
theorem MarkedCall.split {callees : List Text} {marker : Text} {place : Place}
    {marked : MarkedCall} (found : MarkedCall.ofPlace? callees marker place = some marked)
    (wellFormed : place.focus.WellFormed) :
    ∃ role before own front after behind,
      place.focus = .node role .callExpression
        (before ++ .node own .arguments
          (.leaf none .mark ['('] :: front ++ marked.modulePath.focus :: after) :: behind) ∧
      marked.arguments.start = place.start + Tree.widthOfAll before ∧
      marked.modulePath.start = marked.arguments.start + 1 + Tree.widthOfAll front ∧
      ∀ tree ∈ front, tree.isArgument = false := by
  obtain ⟨role, before, own, front, after, behind, same, bracketed, _, starts, pathStarts, _, plain⟩ :=
    split_path found wellFormed
  refine ⟨role, before, own, front, after ++ [.leaf none .mark [')']], behind, ?_, starts, pathStarts,
    plain⟩
  rw [same, bracketed]
  simp only [List.cons_append, List.append_assoc]

/-- The marker of a marked call and what stands between it and the closing parenthesis. -/
theorem MarkedCall.split_marker {callees : List Text} {marker : Text} {place : Place}
    {marked : MarkedCall} (found : MarkedCall.ofPlace? callees marker place = some marked)
    (wellFormed : place.focus.WellFormed) :
    ∃ role before own front after behind,
      place.focus = .node role .callExpression
        (before ++ .node own .arguments
          (.leaf none .mark ['('] :: front ++
            marked.marker.focus :: (after ++ [.leaf none .mark [')']])) :: behind) ∧
      marked.arguments.start = place.start + Tree.widthOfAll before ∧
      marked.marker.start = marked.arguments.start + 1 + Tree.widthOfAll front ∧
      marked.arguments.stop = marked.marker.stop + Tree.widthOfAll after + 1 ∧
      (marked.argumentCount = 4 → ∀ tree ∈ after, tree.isArgument = false) := by
  obtain ⟨_, _, isList, second, third, others, arguments, count⟩ := ofPlace?_eq_some found
  obtain ⟨role, before, own, inner, behind, same, bracketed, starts⟩ := split_list found wellFormed
  have arguments : argumentsOf place =
      [marked.modulePath, second, third] ++ marked.marker :: others := arguments
  obtain ⟨front, after, rfl, _, _, inOthers, markerStarts⟩ :=
    argumentsOf_between isList bracketed arguments
  refine ⟨role, before, own, front, after, behind, ?_, starts, markerStarts, ?_, ?_⟩
  · rw [same, bracketed]
    simp only [List.cons_append, List.append_assoc]
  · rw [Place.stop, Place.stop, bracketed, markerStarts]
    simp only [Tree.width_node, Tree.widthOfAll_append, Tree.widthOfAll_cons, Tree.widthOfAll_nil,
      Tree.width_leaf, List.length_singleton, List.cons_append]
    omega
  · intro four tree member
    have none : others = [] := by
      rw [← List.length_eq_zero_iff]
      omega
    rw [none, List.map_nil, List.filter_eq_nil_iff] at inOthers
    exact Bool.eq_false_iff.mpr (inOthers tree member)

/-- True for a call of one of some names whose fourth argument is the marker. -/
def Tree.isMarked (callees : List Text) (marker : Text) (call : Tree) : Bool :=
  call.kind = .callExpression && call.calleeName?.any callees.contains &&
    match call.givenArguments with
    | _ :: _ :: _ :: fourth :: _ => decide (stringValue? fourth = some marker)
    | _ => false

/-- A call is marked if its tree is. -/
theorem MarkedCall.isSome_ofPlace? (callees : List Text) (marker : Text) (place : Place) :
    (MarkedCall.ofPlace? callees marker place).isSome = place.focus.isMarked callees marker := by
  have arguments := map_focus_argumentsOf place
  have list := map_focus_argumentList? place
  have callee := Place.map_focus_child? place .callee
  have name := calleeName?_eq place
  unfold MarkedCall.ofPlace? Tree.isMarked
  by_cases called : (decide (place.kind = .callExpression) &&
      (calleeName? place).any callees.contains) = true
  · have treeCalled : (decide (place.focus.kind = .callExpression) &&
        place.focus.calleeName?.any callees.contains) = true := by
      rw [← name]
      exact called
    rw [if_pos called, treeCalled, Bool.true_and, ← arguments]
    have isCalled : (place.child? .callee).isSome = true := by
      have found := (Bool.and_eq_true_iff.mp called).2
      rw [calleeName?] at found
      cases child : place.child? .callee with
      | none => rw [child] at found; simp at found
      | some => rfl
    rcases same : argumentsOf place with
      _ | ⟨modulePath, _ | ⟨second, _ | ⟨third, _ | ⟨fourth, others⟩⟩⟩⟩
    · rfl
    · rfl
    · rfl
    · rfl
    · have isList : (argumentList? place).isSome = true := by
        cases found : argumentList? place with
        | none => simp [argumentsOf, found] at same
        | some => rfl
      obtain ⟨calleePlace, calleeEq⟩ := Option.isSome_iff_exists.mp isCalled
      obtain ⟨listPlace, listEq⟩ := Option.isSome_iff_exists.mp isList
      simp only [List.map_cons, calleeEq, listEq]
      by_cases tagged : stringValue? fourth.focus = some marker
      · simp [tagged]
      · simp [tagged]
  · have treeCalled : (decide (place.focus.kind = .callExpression) &&
        place.focus.calleeName?.any callees.contains) = false := by
      rw [← name]
      exact Bool.eq_false_iff.mpr called
    rw [if_neg called, treeCalled]
    rfl

theorem MarkedCall.ofPlace?_eq_none {callees : List Text} {marker : Text} {tree : Tree}
    {above : List Frame} {start : Nat} (other : tree.kind ≠ .callExpression) :
    MarkedCall.ofPlace? callees marker ⟨tree, above, start⟩ = none := by
  rw [← Option.not_isSome_iff_eq_none, MarkedCall.isSome_ofPlace?]
  simp [Tree.isMarked, other]

theorem MarkedCall.ofPlace?_leaf (callees : List Text) (marker : Text) (role : Option Role)
    (kind : Kind) (letters : Text) (above : List Frame) (start : Nat) :
    MarkedCall.ofPlace? callees marker ⟨.leaf role kind letters, above, start⟩ = none := by
  rw [← Option.not_isSome_iff_eq_none, MarkedCall.isSome_ofPlace?]
  simp [Tree.isMarked, Tree.calleeName?, Tree.child?, Tree.children]

/-- The number of marked calls in a tree. -/
def Tree.markedCount (callees : List Text) (marker : Text) : Tree → Nat
  | .leaf _ _ _ => 0
  | .node role kind children =>
    (if (Tree.node role kind children).isMarked callees marker then 1 else 0) + among children
where
  among : List Tree → Nat
    | [] => 0
    | tree :: rest => markedCount callees marker tree + among rest

end ImportMeter.Script
