/-
This file collects what survives when the nodes of a syntax tree are rewritten: a function that keeps the
part and the kind of every tree, all tokens and all strings leaves the callee and the marker of a call as
they are.
-/
import ImportMeter.Proofs.Script.Child

namespace ImportMeter.Script.Tree

/-- Keeps the part and the kind of every tree, and tokens and strings altogether. -/
structure Keeps (rewrite : Tree → Tree) : Prop where
  role? : ∀ tree, (rewrite tree).role? = tree.role?
  kind : ∀ tree, (rewrite tree).kind = tree.kind
  leaf : ∀ role kind letters, rewrite (.leaf role kind letters) = .leaf role kind letters
  string : ∀ tree, tree.WellFormed → tree.kind = .string → rewrite tree = tree

/-- Moreover goes on to the children of every node that is no call. -/
structure Descends (rewrite : Tree → Tree) : Prop extends Keeps rewrite where
  node : ∀ role kind children, kind ≠ .callExpression →
    rewrite (.node role kind children) = .node role kind (children.map rewrite)

/-- Strings are made of tokens, so they stay if their tokens do. -/
theorem string_stays {rewrite inString : Tree → Tree}
    (leaf : ∀ role kind letters, inString (.leaf role kind letters) = .leaf role kind letters)
    (node : ∀ role children,
      rewrite (.node role .string children) = .node role .string (children.map inString)) :
    ∀ tree, tree.WellFormed → tree.kind = .string → rewrite tree = tree := by
  intro tree wellFormed string
  have isNode := wellFormed.eq_node (by rw [string]; rfl)
  rw [string] at isNode
  rw [isNode] at wellFormed ⊢
  have tokens := wellFormed.nodeShape.string rfl
  rw [node, List.map_congr_left fun child member => ?_]
  · rw [List.map_id']
  · rw [(wellFormed.children child member).eq_leaf (tokens child member), leaf]

namespace Keeps

variable {rewrite : Tree → Tree} (keeps : Keeps rewrite)

include keeps

/-- Tokens stay as they are. -/
theorem token {tree : Tree} (wellFormed : tree.WellFormed) (isToken : tree.kind.isToken = true) :
    rewrite tree = tree := by
  rw [wellFormed.eq_leaf isToken, keeps.leaf]

theorem map_tokens {trees : List Tree} (wellFormed : ∀ tree ∈ trees, tree.WellFormed)
    (tokens : ∀ tree ∈ trees, tree.kind.isToken = true) : trees.map rewrite = trees := by
  rw [List.map_congr_left fun tree member => keeps.token (wellFormed tree member) (tokens tree member)]
  exact List.map_id' _

theorem stringValue? {tree : Tree} (wellFormed : tree.WellFormed) :
    Script.stringValue? (rewrite tree) = Script.stringValue? tree := by
  by_cases string : tree.kind = .string
  · rw [keeps.string tree wellFormed string]
  · rw [Script.stringValue?, Script.stringValue?, keeps.kind, if_neg string, if_neg string]

theorem isArgument (tree : Tree) : (rewrite tree).isArgument = tree.isArgument := by
  rw [Tree.isArgument, Tree.isArgument, keeps.kind]

theorem isArgument_comp : Tree.isArgument ∘ rewrite = Tree.isArgument :=
  funext keeps.isArgument

/-- Trees are found by their kind as before. -/
theorem kind_comp (kind : Kind) :
    (fun tree : Tree => decide (tree.kind = kind)) ∘ rewrite =
      fun tree => decide (tree.kind = kind) := by
  funext tree
  simp only [Function.comp_apply, keeps.kind]

theorem child?_map (role : Option Role) (kind : Kind) (children : List Tree) (part : Role) :
    (node role kind (children.map rewrite)).child? part =
      ((node role kind children).child? part).map rewrite := by
  have same : (fun child : Tree => decide (child.role? = some part)) ∘ rewrite =
      fun child => decide (child.role? = some part) := by
    funext child
    simp only [Function.comp_apply, keeps.role?]
  rw [child?, child?, Tree.children, Tree.children, List.find?_map, same]

theorem calleeName?_map {role : Option Role} {kind : Kind} {children : List Tree}
    (wellFormed : (node role kind children).WellFormed) :
    (node role kind (children.map rewrite)).calleeName? =
      (node role kind children).calleeName? := by
  rw [calleeName?, calleeName?, keeps.child?_map]
  cases child : (node role kind children).child? .callee with
  | none => rfl
  | some callee =>
      have member : callee ∈ children := List.mem_of_find?_eq_some child
      rw [Option.map_some]
      by_cases name : callee.kind = .identifier
      · rw [keeps.token (wellFormed.children callee member) (by rw [name]; rfl)]
      · simp only [Option.filter, keeps.kind, name, decide_false, Bool.false_eq_true, if_false]

theorem argumentList?_map (role : Option Role) (kind : Kind) (children : List Tree) :
    (node role kind (children.map rewrite)).argumentList? =
      (node role kind children).argumentList?.map rewrite := by
  rw [argumentList?, argumentList?, keeps.child?_map, Option.filter_map, keeps.kind_comp]

/-- Rewriting keeps the shape of a node. -/
theorem nodeShape_map {kind : Kind} {children : List Tree} (shape : NodeShape kind children) :
    NodeShape kind (children.map rewrite) where
  isNode := shape.isNode
  arguments isArguments := by
    obtain ⟨inner, rfl⟩ := shape.arguments isArguments
    refine ⟨inner.map rewrite, ?_⟩
    simp only [List.map_append, List.map_cons, List.map_nil, keeps.leaf]
  string isString := by
    intro child member
    obtain ⟨original, isOriginal, rfl⟩ := List.mem_map.mp member
    rw [keeps.kind]
    exact shape.string isString original isOriginal
  importStatement isImport := by
    obtain ⟨rest, rfl⟩ := shape.importStatement isImport
    exact ⟨rest.map rewrite, by rw [List.map_cons, keeps.leaf]⟩
  callExpression isCall := by
    obtain ⟨callee, middle, list, rfl, isCallee, isList, between⟩ := shape.callExpression isCall
    refine ⟨rewrite callee, middle.map rewrite, rewrite list, ?_, (keeps.role? callee).trans isCallee,
      (keeps.role? list).trans isList, fun tree member => ?_⟩
    · simp only [List.map_append, List.map_cons, List.map_nil]
    · obtain ⟨original, isOriginal, rfl⟩ := List.mem_map.mp member
      obtain ⟨kind, letters, rfl, trivia⟩ := between original isOriginal
      exact ⟨kind, letters, keeps.leaf none kind letters, trivia⟩

/-- The names among some trees stay as they are. -/
theorem identifiers_map {trees : List Tree} (wellFormed : ∀ tree ∈ trees, tree.WellFormed) :
    (trees.map rewrite).filter (·.kind = .identifier) = trees.filter (·.kind = .identifier) := by
  rw [List.filter_map, keeps.kind_comp]
  refine keeps.map_tokens (fun tree member => wellFormed tree (List.mem_filter.mp member).1)
    fun tree member => ?_
  have isName : tree.kind = .identifier := of_decide_eq_true (List.mem_filter.mp member).2
  rw [isName]
  rfl

end Keeps

theorem kind_of_argumentList? {call list : Tree} (found : call.argumentList? = some list) :
    list.kind = .arguments :=
  of_decide_eq_true (Option.filter_eq_some_iff.mp found).2

theorem mem_of_argumentList? {call list : Tree} (found : call.argumentList? = some list) :
    list ∈ call.children :=
  List.mem_of_find?_eq_some (Option.filter_eq_some_iff.mp found).1

/-- The arguments of a well-formed call are well formed. -/
theorem WellFormed.givenArguments {call : Tree} (wellFormed : call.WellFormed) :
    ∀ tree ∈ call.givenArguments, tree.WellFormed := by
  intro tree member
  rw [Tree.givenArguments] at member
  cases found : call.argumentList? with
  | none => rw [found] at member; cases member
  | some list =>
      rw [found] at member
      have inCall := mem_of_argumentList? found
      have listWellFormed : list.WellFormed := by
        cases wellFormed with
        | leaf => cases inCall
        | node _ inside => exact inside list inCall
      rw [listWellFormed.eq_node (by rw [kind_of_argumentList? found]; rfl)] at listWellFormed
      exact listWellFormed.children tree (List.mem_filter.mp member).1

/-- A call and its list of arguments may be rewritten in different ways. -/
theorem Keeps.givenArguments_map {rewrite inList : Tree → Tree} (keeps : Keeps rewrite)
    (keepsInList : Keeps inList)
    (lists : ∀ list, list.kind = .arguments → (rewrite list).children = list.children.map inList)
    (role : Option Role) (kind : Kind) (children : List Tree) :
    (node role kind (children.map rewrite)).givenArguments =
      (node role kind children).givenArguments.map inList := by
  rw [givenArguments, givenArguments, keeps.argumentList?_map]
  cases found : (node role kind children).argumentList? with
  | none => rfl
  | some list =>
      simp only [Option.map_some, lists list (kind_of_argumentList? found), List.filter_map,
        keepsInList.isArgument_comp]

theorem kind_of_isMarked {callees : List Text} {marker : Text} {tree : Tree}
    (marked : tree.isMarked callees marker = true) : tree.kind = .callExpression := by
  rw [isMarked, Bool.and_eq_true, Bool.and_eq_true, decide_eq_true_eq] at marked
  exact marked.1.1

theorem isMarked_eq_false {callees : List Text} {marker : Text} {tree : Tree}
    (other : tree.kind ≠ .callExpression) : tree.isMarked callees marker = false :=
  Bool.eq_false_iff.mpr fun marked => other (kind_of_isMarked marked)

/-- A call is marked or not as before. -/
theorem Keeps.isMarked_map {rewrite inList : Tree → Tree} (keeps : Keeps rewrite)
    (keepsInList : Keeps inList)
    (lists : ∀ list, list.kind = .arguments → (rewrite list).children = list.children.map inList)
    (callees : List Text) (marker : Text) {role : Option Role} {kind : Kind} {children : List Tree}
    (wellFormed : (node role kind children).WellFormed) :
    (node role kind (children.map rewrite)).isMarked callees marker =
      (node role kind children).isMarked callees marker := by
  rw [isMarked, isMarked, keeps.calleeName?_map wellFormed,
    keeps.givenArguments_map keepsInList lists]
  rcases given : (node role kind children).givenArguments with
    _ | ⟨first, _ | ⟨second, _ | ⟨third, _ | ⟨fourth, others⟩⟩⟩⟩
  · rfl
  · rfl
  · rfl
  · rfl
  · have fourthWellFormed : fourth.WellFormed :=
      wellFormed.givenArguments fourth (by rw [given]; simp)
    simp only [List.map_cons, keepsInList.stringValue? fourthWellFormed]
    rfl

/-- What is no call keeps its children, rewritten. -/
theorem Descends.children {rewrite : Tree → Tree} (descends : Descends rewrite) {tree : Tree}
    (other : tree.kind ≠ .callExpression) :
    (rewrite tree).children = tree.children.map rewrite := by
  cases tree with
  | leaf role kind letters => rw [descends.leaf]; rfl
  | node role kind children => rw [descends.node role kind children other]; rfl

theorem Descends.lists {rewrite : Tree → Tree} (descends : Descends rewrite) :
    ∀ list : Tree, list.kind = .arguments →
      (rewrite list).children = list.children.map rewrite := fun _ isArguments =>
  descends.children (by rw [isArguments]; decide)

end ImportMeter.Script.Tree
