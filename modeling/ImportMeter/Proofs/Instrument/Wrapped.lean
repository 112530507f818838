/-
This file builds the syntax tree that injection leaves: every import that is rewritten gives way to a
marked call of its path. The tree spells the text that the edits make, and no import in it is left to be
rewritten.
-/
import ImportMeter.Proofs.Instrument.Standing
import ImportMeter.Proofs.Instrument.Unwrapped

namespace ImportMeter.Instrument

open Script

/-- True for an import that is rewritten where it stands. -/
def isRewritten (standing : Standing) (tree : Tree) : Bool :=
  isImportCall tree && fateOf standing tree = .rewritten

/-- A string literal in single quotes, of letters that need no escape. -/
def quoted (letters : Text) : Tree :=
  .node none .string (.leaf none .mark ['\x27'] ::
    (if letters = [] then [] else [.leaf none .stringFragment letters]) ++
      [.leaf none .mark ['\x27']])

/-- What is written behind the path of an import, with the marker at the end. -/
def writtenTrees (marker : Text) : List Tree :=
  [.leaf none .mark [','], .leaf none .blank [' '],
    .node none .memberExpression
      [.node none .metaProperty
        [.leaf none .mark Word.importWord, .leaf none .mark ['.'], .leaf none .mark "meta".toList],
        .leaf none .mark ['.'], .leaf none .propertyIdentifier "url".toList],
    .leaf none .mark [','], .leaf none .blank [' '], .leaf none .nullWord "null".toList,
    .leaf none .mark [','], .leaf none .blank [' '], quoted marker]

/-- The marked call of the path of an import. -/
def callOf (localName marker : Text) (call : Tree) : Tree :=
  .node call.role? .callExpression
    [.leaf (some .callee) .identifier localName,
      .node (some .arguments) .arguments
        (.leaf none .mark ['('] ::
          (keptTrees (betweenParentheses call) ++ writtenTrees marker ++
            trailTrees (betweenParentheses call)) ++
          [.leaf none .mark [')']])]

section

variable (guards : List Text) (localName marker : Text)

/-- A tree with the imports that are to be rewritten made marked calls. -/
def wrapTree : Standing → Tree → Tree
  | _, .leaf role kind letters => .leaf role kind letters
  | standing, .node role kind children =>
    if isRewritten standing (.node role kind children) then
      callOf localName marker (.node role kind children)
    else
      .node role kind (among (Standing.below guards (.node role kind children) standing) children)
where
  among (standing : Standing) : List Tree → List Tree
    | [] => []
    | tree :: rest => wrapTree standing tree :: among standing rest

end

variable {source : Text} {guards : List Text} {localName marker : Text}

theorem wrapTreeAmong_eq (standing : Standing) (trees : List Tree) :
    wrapTree.among guards localName marker standing trees =
      trees.map (wrapTree guards localName marker standing) := by
  induction trees with
  | nil => rfl
  | cons tree rest inductionHypothesis =>
      rw [wrapTree.among, List.map_cons, inductionHypothesis]

theorem wrapTree_rewritten {standing : Standing} {role : Option Role} {kind : Kind}
    {children : List Tree}
    (rewritten : isRewritten standing (.node role kind children) = true) :
    wrapTree guards localName marker standing (.node role kind children) =
      callOf localName marker (.node role kind children) := by
  rw [wrapTree, if_pos rewritten]

theorem wrapTree_other {standing : Standing} {role : Option Role} {kind : Kind}
    {children : List Tree} (other : isRewritten standing (.node role kind children) = false) :
    wrapTree guards localName marker standing (.node role kind children) =
      .node role kind (children.map (wrapTree guards localName marker
        (Standing.below guards (.node role kind children) standing))) := by
  rw [wrapTree, if_neg (Bool.eq_false_iff.mp other), wrapTreeAmong_eq]

theorem kind_of_isImportCall {tree : Tree} (isImport : isImportCall tree = true) :
    tree.kind = .callExpression := by
  rw [isImportCall, Bool.and_eq_true, decide_eq_true_eq] at isImport
  exact isImport.1

theorem isRewritten_eq_false {standing : Standing} {tree : Tree}
    (other : tree.kind ≠ .callExpression) : isRewritten standing tree = false := by
  refine Bool.eq_false_iff.mpr fun rewritten => ?_
  rw [isRewritten, Bool.and_eq_true] at rewritten
  exact other (kind_of_isImportCall rewritten.1)

/-- Only in calls of the entry point, and behind `await` in their arguments, is a standing passed on. -/
theorem Standing.below_other {tree : Tree} {standing : Standing}
    (notCall : tree.kind ≠ .callExpression)
    (notList : tree.kind ≠ .arguments ∨ standing ≠ .inCall)
    (notAwait : tree.kind ≠ .awaitExpression ∨ standing ≠ .argument) :
    Standing.below guards tree standing = .plain := by
  rw [Standing.below, if_neg notCall, if_neg, if_neg]
  · simpa [Classical.or_iff_not_imp_left] using notAwait
  · simpa [Classical.or_iff_not_imp_left] using notList

/-- Wrapping changes nothing but imports. -/
theorem keeps_wrapTree (guards : List Text) (localName marker : Text) (standing : Standing) :
    Tree.Keeps (wrapTree guards localName marker standing) where
  role? tree := by
    cases tree with
    | leaf => rfl
    | node role kind children =>
        cases rewritten : isRewritten standing (.node role kind children) with
        | false => rw [wrapTree_other rewritten]; rfl
        | true => rw [wrapTree_rewritten rewritten]; rfl
  kind tree := by
    cases tree with
    | leaf => rfl
    | node role kind children =>
        cases rewritten : isRewritten standing (.node role kind children) with
        | false => rw [wrapTree_other rewritten]; rfl
        | true =>
            have isImport := rewritten
            rw [isRewritten, Bool.and_eq_true] at isImport
            rw [wrapTree_rewritten rewritten, kind_of_isImportCall isImport.1]
            rfl
  leaf _ _ _ := rfl
  string := by
    have leaves : ∀ role kind letters, wrapTree guards localName marker .plain
        (.leaf role kind letters) = .leaf role kind letters := fun _ _ _ => rfl
    refine Tree.string_stays leaves fun role children => ?_
    have plain : Standing.below guards (.node role .string children) standing = .plain :=
      Standing.below_other (by simp [Tree.kind]) (by simp [Tree.kind]) (by simp [Tree.kind])
    rw [wrapTree_other (isRewritten_eq_false (by simp [Tree.kind])), plain]

theorem descends_wrapTree (guards : List Text) (localName marker : Text) :
    Tree.Descends (wrapTree guards localName marker .plain) where
  toKeeps := keeps_wrapTree guards localName marker .plain
  node role kind children other := by
    have plain : Standing.below guards (.node role kind children) .plain = .plain :=
      Standing.below_other other (.inr (by decide)) (.inr (by decide))
    rw [wrapTree_other (isRewritten_eq_false other), plain]

/-- Where the arguments of a call stand depends on nothing but the call. -/
theorem Standing.below_list (guards : List Text) (standing : Standing) {list : Tree}
    (isArguments : list.kind = .arguments) :
    Standing.below guards list standing = if standing = .inCall then .argument else .plain := by
  rw [Standing.below, if_neg (by rw [isArguments]; decide), isArguments]
  by_cases inCall : standing = .inCall
  · simp [inCall]
  · simp [inCall]

theorem children_wrapTree_list (guards : List Text) (localName marker : Text) (standing : Standing)
    (list : Tree) (isArguments : list.kind = .arguments) :
    (wrapTree guards localName marker standing list).children =
      list.children.map (wrapTree guards localName marker
        (if standing = .inCall then .argument else .plain)) := by
  rw [← Standing.below_list guards standing isArguments]
  cases list with
  | leaf => rfl
  | node role kind children =>
      rw [wrapTree_other (isRewritten_eq_false (by rw [isArguments]; decide))]
      rfl

/-- The parts of an import of a plain string. -/
structure PlainImport where
  role : Option Role
  /-- What stands between `import` and the parentheses. -/
  middle : List Tree
  front : List Tree
  path : Tree
  behind : List Tree
  between : ∀ tree ∈ middle, Tree.BetweenCall tree
  frontPlain : ∀ tree ∈ front, tree.isArgument = false
  isString : path.kind = .string
  behindPlain : ∀ tree ∈ behind, tree.isArgument = false

namespace PlainImport

variable (plain : PlainImport)

def list : Tree :=
  .node (some .arguments) .arguments
    (.leaf none .mark ['('] :: (plain.front ++ plain.path :: plain.behind) ++ [.leaf none .mark [')']])

def tree : Tree :=
  .node plain.role .callExpression
    (.leaf (some .callee) .importWord Word.importWord :: plain.middle ++ [plain.list])

theorem isArgument : plain.path.isArgument = true := by
  rw [Tree.isArgument, plain.isString]
  rfl

theorem argumentList? : plain.tree.argumentList? = some plain.list := by
  have notMiddle : ∀ tree ∈ plain.middle, ¬ Decidable.decide (tree.role? = some .arguments) = true := by
    intro tree member
    obtain ⟨kind, letters, rfl, _⟩ := plain.between tree member
    simp [Tree.role?]
  have child : plain.tree.child? .arguments = some plain.list := by
    rw [Tree.child?, tree, Tree.children, List.cons_append, List.find?_cons_of_neg (by simp [Tree.role?]),
      List.find?_append, List.find?_eq_none.mpr notMiddle, Option.none_or,
      List.find?_cons_of_pos (by simp [list, Tree.role?])]
  rw [Tree.argumentList?, child]
  rfl

theorem betweenParentheses_tree :
    betweenParentheses plain.tree = plain.front ++ plain.path :: plain.behind := by
  rw [betweenParentheses, argumentList?, Option.map_some, Option.getD_some, list, Tree.children,
    List.cons_append, List.tail_cons, List.dropLast_concat]

/-- The call that takes the place of the import. -/
theorem callOf_tree (localName marker : Text) :
    callOf localName marker plain.tree =
      .node plain.role .callExpression
        [.leaf (some .callee) .identifier localName,
          .node (some .arguments) .arguments
            (.leaf none .mark ['('] ::
              (plain.front ++ [plain.path] ++ writtenTrees marker ++ plain.behind) ++
              [.leaf none .mark [')']])] := by
  rw [callOf, betweenParentheses_tree, keptTrees_eq plain.frontPlain plain.isArgument,
    trailTrees_eq plain.behindPlain plain.isArgument]
  rfl

end PlainImport

/-- What an import calls is the keyword. -/
theorem callee_of_isImportCall {role : Option Role} {kind : Kind} {callee : Tree} {rest : List Tree}
    (isImport : isImportCall (.node role kind (callee :: rest)) = true)
    (isCallee : callee.role? = some .callee) (wellFormed : callee.WellFormed) :
    callee = .leaf (some .callee) .importWord Word.importWord := by
  have first : (Script.Tree.node role kind (callee :: rest)).child? .callee = some callee := by
    simp only [Tree.child?, Tree.children, List.find?_cons, isCallee, decide_true]
  rw [isImportCall, first, Option.any_some, Bool.and_eq_true, decide_eq_true_eq,
    decide_eq_true_eq] at isImport
  have isLeaf := wellFormed.eq_leaf (by rw [isImport.2]; rfl)
  rw [isCallee, isImport.2] at isLeaf
  rw [isLeaf] at wellFormed
  rw [isLeaf, wellFormed.leafShape.word rfl]

/-- An import that is rewritten is one of a plain string. -/
theorem exists_plainImport {standing : Standing} {tree : Tree}
    (rewritten : isRewritten standing tree = true) (wellFormed : tree.WellFormed) :
    ∃ plain : PlainImport, plain.tree = tree ∧ tree.givenArguments = [plain.path] := by
  rw [isRewritten, Bool.and_eq_true, decide_eq_true_eq] at rewritten
  obtain ⟨isImport, isFate⟩ := rewritten
  -- Its only argument is a string.
  obtain ⟨path, given, isString⟩ : ∃ path, tree.givenArguments = [path] ∧ path.kind = .string := by
    rw [fateOf] at isFate
    split at isFate
    next => cases isFate
    next =>
      split at isFate
      next path given =>
        refine ⟨path, given, ?_⟩
        split at isFate
        next isSome =>
          rw [stringValue?] at isSome
          split at isSome
          next isString => exact isString
          next => cases isSome
        next => cases isFate
      next => cases isFate
  obtain ⟨list, found⟩ : ∃ list, tree.argumentList? = some list := by
    cases found : tree.argumentList? with
    | none => rw [Tree.givenArguments, found] at given; cases given
    | some list => exact ⟨list, rfl⟩
  obtain ⟨role, callee, middle, inner, rfl, isCallee, between, rfl⟩ :=
    Tree.call_shape wellFormed (kind_of_isImportCall isImport) found
  have isWord := callee_of_isImportCall isImport isCallee (wellFormed.children callee (by simp))
  have arguments := given
  rw [Tree.givenArguments, found] at arguments
  have inside : inner.filter Tree.isArgument = [path] := by
    simpa [Tree.children, List.filter_cons, Tree.isArgument, Tree.kind, Kind.isNamed] using arguments
  obtain ⟨front, behind, rfl, frontPlain, isArgument, behindPlain⟩ :=
    List.filter_eq_cons_iff.mp inside
  refine ⟨⟨role, middle, front, path, behind, between, fun tree member => ?_, isString,
    fun tree member => ?_⟩, ?_, given⟩
  · exact Bool.eq_false_iff.mpr (frontPlain tree member)
  · exact Bool.eq_false_iff.mpr (List.filter_eq_nil_iff.mp behindPlain tree member)
  · rw [isWord]
    rfl

/-- The trees in which there is no dynamic import. -/
inductive WithoutImports : Tree → Prop where
  | leaf (role : Option Role) (kind : Kind) (letters : Text) :
      WithoutImports (.leaf role kind letters)
  | node {role : Option Role} {kind : Kind} {children : List Tree}
      (other : isImportCall (.node role kind children) = false)
      (inside : ∀ child ∈ children, WithoutImports child) :
      WithoutImports (.node role kind children)

theorem fatesAmong_eq_nil {standing : Standing} {trees : List Tree}
    (nothing : ∀ tree ∈ trees, fates guards standing tree = []) :
    fates.among guards standing trees = [] := by
  induction trees with
  | nil => rfl
  | cons tree rest inductionHypothesis =>
      rw [fates.among, nothing tree List.mem_cons_self,
        inductionHypothesis fun other member => nothing other (List.mem_cons_of_mem tree member)]
      rfl

namespace WithoutImports

theorem token {tree : Tree} (wellFormed : tree.WellFormed) (isToken : tree.kind.isToken = true) :
    WithoutImports tree := by
  rw [wellFormed.eq_leaf isToken]
  exact leaf _ _ _

theorem string {tree : Tree} (wellFormed : tree.WellFormed) (isString : tree.kind = .string) :
    WithoutImports tree := by
  have isNode := wellFormed.eq_node (by rw [isString]; rfl)
  rw [isString] at isNode
  rw [isNode] at wellFormed ⊢
  refine node ?_ fun child member =>
    token (wellFormed.children child member) (wellFormed.nodeShape.string rfl child member)
  simp [isImportCall, Tree.kind]

theorem isImportCall {tree : Tree} (without : WithoutImports tree) : isImportCall tree = false := by
  cases without with
  | leaf => simp [Instrument.isImportCall, Tree.child?, Tree.children]
  | node other _ => exact other

theorem fates {tree : Tree} (without : WithoutImports tree) (standing : Standing) :
    fates guards standing tree = [] := by
  induction without generalizing standing with
  | leaf role kind letters =>
      rw [Instrument.fates, fateAt, (leaf role kind letters).isImportCall, if_neg Bool.false_ne_true]
  | node other _ insideHypothesis =>
      rw [Instrument.fates, fateAt, other,
        fatesAmong_eq_nil fun child member => insideHypothesis child member _]
      rfl

end WithoutImports

theorem withoutImports_quoted (role : Option Role) (letters : Text) :
    WithoutImports ((quoted letters).withRole role) := by
  refine .node rfl ?_
  split <;> simp [WithoutImports.leaf]

theorem withoutImports_writtenTrees (marker : Text) :
    ∀ tree ∈ writtenTrees marker, WithoutImports tree := by
  have isQuoted : WithoutImports (quoted marker) := withoutImports_quoted none marker
  have isMeta : WithoutImports (.node none .metaProperty
      [.leaf none .mark Word.importWord, .leaf none .mark ['.'], .leaf none .mark "meta".toList]) :=
    .node rfl (by simp [WithoutImports.leaf])
  simp only [writtenTrees, List.forall_mem_cons, List.not_mem_nil, false_imp_iff, implies_true,
    and_true, WithoutImports.leaf, isQuoted, true_and]
  exact .node rfl (List.forall_mem_cons.mpr ⟨isMeta, by simp [WithoutImports.leaf]⟩)

namespace PlainImport

variable (plain : PlainImport)

/-- Between the parentheses of an import of a plain string there are only tokens and the string. -/
theorem between_shape (wellFormed : plain.tree.WellFormed) :
    ∀ tree ∈ plain.front ++ plain.path :: plain.behind,
      tree.WellFormed ∧ (tree.kind.isToken = true ∨ tree.kind = .string) := by
  have listWellFormed : plain.list.WellFormed := wellFormed.children plain.list (by simp)
  intro tree member
  refine ⟨listWellFormed.children tree ?_, ?_⟩
  · simp only [List.mem_append, List.mem_cons] at member ⊢
    exact .inl (.inr member)
  · simp only [List.mem_append, List.mem_cons] at member
    rcases member with inFront | rfl | isBehind
    · exact .inl (Tree.isToken_of_isArgument (plain.frontPlain tree inFront))
    · exact .inr plain.isString
    · exact .inl (Tree.isToken_of_isArgument (plain.behindPlain tree isBehind))

/-- In an import of a plain string there is no other import. -/
theorem children_withoutImports (wellFormed : plain.tree.WellFormed) :
    (∀ tree ∈ plain.front ++ plain.path :: plain.behind, WithoutImports tree) ∧
      ∀ child ∈ plain.tree.children, WithoutImports child := by
  have inside : ∀ tree ∈ plain.front ++ plain.path :: plain.behind, WithoutImports tree := by
    intro tree member
    obtain ⟨treeWellFormed, isToken | isString⟩ := plain.between_shape wellFormed tree member
    · exact .token treeWellFormed isToken
    · exact .string treeWellFormed isString
  refine ⟨inside, fun child member => ?_⟩
  simp only [tree, Tree.children, List.cons_append, List.mem_cons, List.mem_append,
    List.not_mem_nil, or_false] at member
  rcases member with rfl | inMiddle | rfl
  · exact .leaf _ _ _
  · obtain ⟨kind, letters, rfl, _⟩ := plain.between child inMiddle
    exact .leaf _ _ _
  · refine .node (by simp [isImportCall, Tree.kind]) fun tree member => ?_
    simp only [List.cons_append, List.mem_cons, List.mem_append, List.not_mem_nil, or_false] at member
    rcases member with rfl | (inFront | isPath | isBehind) | rfl
    · exact .leaf _ _ _
    · exact inside tree (by simp [inFront])
    · exact inside tree (by simp [isPath])
    · exact inside tree (by simp [isBehind])
    · exact .leaf _ _ _

/-- Nor is there one in the call that takes its place. -/
theorem callOf_withoutImports (localName marker : Text) (wellFormed : plain.tree.WellFormed) :
    WithoutImports (callOf localName marker plain.tree) := by
  have inside := (plain.children_withoutImports wellFormed).1
  rw [callOf_tree]
  refine .node (by simp [isImportCall, Tree.child?, Tree.children, Tree.role?, Tree.kind]) ?_
  refine List.forall_mem_cons.mpr ⟨.leaf _ _ _, List.forall_mem_singleton.mpr ?_⟩
  refine .node (by simp [isImportCall, Tree.kind]) fun tree member => ?_
  simp only [List.cons_append, List.append_assoc, List.nil_append, List.mem_cons, List.mem_append,
    List.not_mem_nil, or_false] at member
  rcases member with rfl | inFront | isPath | isWritten | isBehind | rfl
  · exact .leaf _ _ _
  · exact inside tree (by simp [inFront])
  · exact inside tree (by simp [isPath])
  · exact withoutImports_writtenTrees marker tree isWritten
  · exact inside tree (by simp [isBehind])
  · exact .leaf _ _ _

end PlainImport

/-- Calls of `import` are recognised as before when what is in them is rewritten. -/
theorem isImportCall_map {rewrite : Tree → Tree} (keeps : Tree.Keeps rewrite) (role : Option Role)
    (kind : Kind) (children : List Tree) :
    isImportCall (.node role kind (children.map rewrite)) =
      isImportCall (.node role kind children) := by
  rw [isImportCall, isImportCall, keeps.child?_map, Option.any_map]
  simp only [keeps.kind]
  rfl

/-- So is their fate. -/
theorem fateOf_map {rewrite inList : Tree → Tree} (keeps : Tree.Keeps rewrite)
    (keepsInList : Tree.Keeps inList)
    (lists : ∀ list, list.kind = .arguments → (rewrite list).children = list.children.map inList)
    (standing : Standing) {role : Option Role} {kind : Kind} {children : List Tree}
    (wellFormed : (Script.Tree.node role kind children).WellFormed) :
    fateOf standing (.node role kind (children.map rewrite)) =
      fateOf standing (.node role kind children) := by
  rw [fateOf, fateOf, keeps.givenArguments_map keepsInList lists]
  rcases given : (Script.Tree.node role kind children).givenArguments with
    _ | ⟨path, _ | ⟨second, others⟩⟩
  · rfl
  · have pathWellFormed : path.WellFormed := wellFormed.givenArguments path (by rw [given]; simp)
    simp only [List.map_cons, List.map_nil, keepsInList.stringValue? pathWellFormed]
  · rfl

/-- What stands in a call of the entry point still does. -/
theorem Standing.below_map {rewrite : Tree → Tree} (keeps : Tree.Keeps rewrite) (standing : Standing)
    {role : Option Role} {kind : Kind} {children : List Tree}
    (wellFormed : (Script.Tree.node role kind children).WellFormed) :
    Standing.below guards (.node role kind (children.map rewrite)) standing =
      Standing.below guards (.node role kind children) standing := by
  rw [below, below, keeps.calleeName?_map wellFormed]
  rfl

/-- In an import that is rewritten there is no other import. -/
theorem fates_rewritten {standing : Standing} {role : Option Role} {kind : Kind} {children : List Tree}
    (rewritten : isRewritten standing (.node role kind children) = true)
    (wellFormed : (Script.Tree.node role kind children).WellFormed) :
    fates guards standing (.node role kind children) = [.rewritten] := by
  obtain ⟨plain, same, _⟩ := exists_plainImport rewritten wellFormed
  have nothing : fates.among guards (Standing.below guards (.node role kind children) standing)
      children = [] := by
    refine fatesAmong_eq_nil fun child member => ?_
    have inside := (plain.children_withoutImports (by rwa [same])).2
    rw [same] at inside
    exact (inside child member).fates _
  rw [isRewritten, Bool.and_eq_true, decide_eq_true_eq] at rewritten
  rw [fates, nothing, fateAt, rewritten.1, if_pos rfl, rewritten.2]
  rfl

theorem fatesAmong_wrapTree_of {standing : Standing} {trees : List Tree}
    (each : ∀ tree ∈ trees, fates guards standing (wrapTree guards localName marker standing tree) =
      (fates guards standing tree).filter (· ≠ .rewritten)) :
    fates.among guards standing (trees.map (wrapTree guards localName marker standing)) =
      (fates.among guards standing trees).filter (· ≠ .rewritten) := by
  induction trees with
  | nil => rfl
  | cons tree rest inductionHypothesis =>
      rw [List.map_cons, fates.among, fates.among, List.filter_append, each tree List.mem_cons_self,
        inductionHypothesis fun other member => each other (List.mem_cons_of_mem tree member)]

/-- Wrapping leaves the imports that are not rewritten, with the fates they had. -/
theorem fates_wrapTree {standing : Standing} {tree : Tree} (wellFormed : tree.WellFormed) :
    fates guards standing (wrapTree guards localName marker standing tree) =
      (fates guards standing tree).filter (· ≠ .rewritten) := by
  induction tree using Tree.childInduction generalizing standing with
  | leaf role kind letters => 
      rw [wrapTree, (WithoutImports.leaf role kind letters).fates]
      rfl
  | node role kind children childHypothesis =>
      cases rewritten : isRewritten standing (.node role kind children) with
      | true =>
          obtain ⟨plain, same, _⟩ := exists_plainImport rewritten wellFormed
          rw [wrapTree_rewritten rewritten, fates_rewritten rewritten wellFormed, ← same,
            (plain.callOf_withoutImports localName marker (by rwa [same])).fates]
          rfl
      | false =>
          have keeps := keeps_wrapTree guards localName marker
            (Standing.below guards (.node role kind children) standing)
          have own : fateAt standing (.node role kind (children.map
                (wrapTree guards localName marker
                  (Standing.below guards (.node role kind children) standing)))) 0 =
              (fateAt standing (.node role kind children) 0).filter (· ≠ .rewritten) := by
            rw [fateAt, fateAt, isImportCall_map keeps, fateOf_map keeps (keeps_wrapTree _ _ _ _)
              (children_wrapTree_list guards localName marker _) standing wellFormed]
            rw [isRewritten] at rewritten
            split
            next isImport =>
              rw [isImport, Bool.true_and, decide_eq_false_iff_not] at rewritten
              simp [rewritten]
            next => rfl
          rw [wrapTree_other rewritten, fates, fates, List.filter_append, own,
            Standing.below_map keeps standing wellFormed, fatesAmong_wrapTree_of fun child member =>
              childHypothesis child member (wellFormed.children child member)]

theorem fatesAmong_wrapTree {standing : Standing} {trees : List Tree}
    (wellFormed : ∀ tree ∈ trees, tree.WellFormed) :
    fates.among guards standing (trees.map (wrapTree guards localName marker standing)) =
      (fates.among guards standing trees).filter (· ≠ .rewritten) :=
  fatesAmong_wrapTree_of fun tree member => fates_wrapTree (wellFormed tree member)

theorem mem_fatesAmong {standing : Standing} {fate : Fate} {tree : Tree} {trees : List Tree}
    (member : tree ∈ trees) (isFate : fate ∈ fates guards standing tree) :
    fate ∈ fates.among guards standing trees := by
  induction trees with
  | nil => cases member
  | cons first rest inductionHypothesis =>
      rw [fates.among, List.mem_append]
      rcases List.mem_cons.mp member with rfl | inRest
      · exact .inl isFate
      · exact .inr (inductionHypothesis inRest)

theorem rewritten_mem_fateAt {standing : Standing} {tree : Tree} {start : Nat} :
    .rewritten ∈ fateAt standing tree start ↔ isRewritten standing tree = true := by
  rw [fateAt, isRewritten, Bool.and_eq_true, decide_eq_true_eq]
  split
  next isImport => simp [isImport, eq_comm]
  next notImport => simp [notImport]

/-- Wrapping leaves a tree alone in which no import is to be rewritten. -/
theorem wrapTree_eq_self {standing : Standing} {tree : Tree}
    (none : .rewritten ∉ fates guards standing tree) :
    wrapTree guards localName marker standing tree = tree := by
  induction tree using Tree.childInduction generalizing standing with
  | leaf => rfl
  | node role kind children childHypothesis =>
      rw [fates, List.mem_append, not_or, rewritten_mem_fateAt, Bool.not_eq_true] at none
      rw [wrapTree_other none.1, List.map_congr_left fun child member =>
        childHypothesis child member fun isFate => none.2 (mem_fatesAmong member isFate), List.map_id']

/-- The edit for a tree that is rewritten. -/
def rewriteAt (localName marker : Text) (standing : Standing) (tree : Tree) (start : Nat) :
    List Edit :=
  if isRewritten standing tree then
    [⟨⟨start, start + tree.width⟩, (callOf localName marker tree).text⟩]
  else []

section

variable (guards : List Text) (localName marker : Text)

/-- The edits for the imports that are rewritten, in the order in which they stand. -/
def rewrites (standing : Standing) (tree : Tree) (start : Nat) : List Edit :=
  Standing.gather guards (rewriteAt localName marker) standing tree start

def rewritesAmong (standing : Standing) (trees : List Tree) (start : Nat) : List Edit :=
  Standing.gather.among guards (rewriteAt localName marker) standing trees start

end

theorem rewritesAmong_cons (standing : Standing) (tree : Tree) (rest : List Tree) (start : Nat) :
    rewritesAmong guards localName marker standing (tree :: rest) start =
      rewrites guards localName marker standing tree start ++
        rewritesAmong guards localName marker standing rest (start + tree.width) :=
  rfl

theorem rewritesAmong_append (standing : Standing) (first second : List Tree) (start : Nat) :
    rewritesAmong guards localName marker standing (first ++ second) start =
      rewritesAmong guards localName marker standing first start ++
        rewritesAmong guards localName marker standing second (start + Tree.widthOfAll first) := by
  induction first generalizing start with
  | nil => rfl
  | cons tree first inductionHypothesis =>
      rw [List.cons_append, rewritesAmong_cons, rewritesAmong_cons, inductionHypothesis,
        Tree.widthOfAll_cons, List.append_assoc, Nat.add_assoc]

theorem rewritesAmong_eq_nil {standing : Standing} {trees : List Tree} {start : Nat}
    (nothing : ∀ tree ∈ trees, ∀ start, rewrites guards localName marker standing tree start = []) :
    rewritesAmong guards localName marker standing trees start = [] := by
  induction trees generalizing start with
  | nil => rfl
  | cons tree rest inductionHypothesis =>
      rw [rewritesAmong_cons, nothing tree List.mem_cons_self,
        inductionHypothesis fun other member => nothing other (List.mem_cons_of_mem tree member)]
      rfl

theorem rewrites_other {standing : Standing} {role : Option Role} {kind : Kind}
    {children : List Tree} (other : isRewritten standing (.node role kind children) = false)
    (start : Nat) :
    rewrites guards localName marker standing (.node role kind children) start =
      rewritesAmong guards localName marker
        (Standing.below guards (.node role kind children) standing) children start := by
  rw [rewrites, Standing.gather, rewriteAt, if_neg (Bool.eq_false_iff.mp other), List.nil_append]
  rfl

theorem WithoutImports.rewrites {tree : Tree} (without : WithoutImports tree) (standing : Standing)
    (start : Nat) : rewrites guards localName marker standing tree start = [] := by
  have other : ∀ {tree : Tree} {standing : Standing}, WithoutImports tree →
      isRewritten standing tree = false := by
    intro tree standing without
    rw [isRewritten, without.isImportCall, Bool.false_and]
  induction without generalizing standing start with
  | leaf role kind letters =>
      rw [Instrument.rewrites, Standing.gather, rewriteAt,
        if_neg (Bool.eq_false_iff.mp (other (.leaf role kind letters)))]
  | node notImport inside insideHypothesis =>
      rw [rewrites_other (other (.node notImport inside)),
        rewritesAmong_eq_nil fun child member start => insideHypothesis child member _ start]

theorem rewrites_rewritten {standing : Standing} {role : Option Role} {kind : Kind}
    {children : List Tree} (rewritten : isRewritten standing (.node role kind children) = true)
    (wellFormed : (Script.Tree.node role kind children).WellFormed) (start : Nat) :
    rewrites guards localName marker standing (.node role kind children) start =
      [⟨⟨start, start + Tree.widthOfAll children⟩,
        (callOf localName marker (.node role kind children)).text⟩] := by
  obtain ⟨plain, same, _⟩ := exists_plainImport rewritten wellFormed
  have nothing : rewritesAmong guards localName marker
      (Standing.below guards (.node role kind children) standing) children start = [] := by
    refine rewritesAmong_eq_nil fun child member start => ?_
    have inside := (plain.children_withoutImports (by rwa [same])).2
    rw [same] at inside
    exact (inside child member).rewrites _ start
  rw [rewritesAmong] at nothing
  rw [rewrites, Standing.gather, rewriteAt, if_pos rewritten, nothing]
  rfl

theorem rewritesAmong_inOrder_of {standing : Standing} {trees : List Tree} (start : Nat)
    (each : ∀ tree ∈ trees, ∀ start, Edit.InOrder start (start + tree.width)
      (rewrites guards localName marker standing tree start)) :
    Edit.InOrder start (start + Tree.widthOfAll trees)
      (rewritesAmong guards localName marker standing trees start) := by
  induction trees generalizing start with
  | nil => exact Nat.le_refl _
  | cons tree rest inductionHypothesis =>
      have first := each tree List.mem_cons_self start
      have others := inductionHypothesis (start + tree.width) fun other member =>
        each other (List.mem_cons_of_mem tree member)
      rw [Tree.widthOfAll_cons, ← Nat.add_assoc, rewritesAmong_cons]
      exact first.append others

/-- The edits stand in order. -/
theorem rewrites_inOrder (guards : List Text) (localName marker : Text) {tree : Tree}
    (wellFormed : tree.WellFormed) (standing : Standing) (start : Nat) :
    Edit.InOrder start (start + tree.width)
      (rewrites guards localName marker standing tree start) := by
  induction tree using Tree.childInduction generalizing standing start with
  | leaf role kind letters =>
      rw [(WithoutImports.leaf role kind letters).rewrites]
      exact Nat.le_add_right _ _
  | node role kind children childHypothesis =>
      cases rewritten : isRewritten standing (.node role kind children) with
      | true =>
          rw [rewrites_rewritten rewritten wellFormed]
          exact ⟨Nat.le_refl _, Nat.le_add_right _ _, Nat.le_refl _⟩
      | false =>
          rw [rewrites_other rewritten]
          exact rewritesAmong_inOrder_of start fun child member =>
            childHypothesis child member (wellFormed.children child member) _

theorem rewritesAmong_inOrder (guards : List Text) (localName marker : Text) {trees : List Tree}
    (wellFormed : ∀ tree ∈ trees, tree.WellFormed) (standing : Standing) (start : Nat) :
    Edit.InOrder start (start + Tree.widthOfAll trees)
      (rewritesAmong guards localName marker standing trees start) :=
  rewritesAmong_inOrder_of start fun tree member =>
    rewrites_inOrder guards localName marker (wellFormed tree member) standing

/-- Applied one after the other, the edits among some trees make what they make of each tree. -/
theorem applySorted_rewritesAmong_of {standing : Standing} {trees : List Tree} {start : Nat}
    (wellFormed : ∀ tree ∈ trees, tree.WellFormed)
    (stands : Text.StandsAt source start (Tree.textOfAll trees))
    (each : ∀ tree ∈ trees, ∀ start, Text.StandsAt source start tree.text →
      Edit.applySorted source (start + tree.width) start
          (rewrites guards localName marker standing tree start) =
        (wrapTree guards localName marker standing tree).text) :
    Edit.applySorted source (start + Tree.widthOfAll trees) start
        (rewritesAmong guards localName marker standing trees start) =
      Tree.textOfAll (trees.map (wrapTree guards localName marker standing)) := by
  induction trees generalizing start with
  | nil => exact Text.slice_same source start
  | cons tree rest inductionHypothesis =>
      rw [Tree.textOfAll_cons] at stands
      have restStands := stands.right
      rw [← Tree.width_eq] at restStands
      have restWellFormed : ∀ other ∈ rest, other.WellFormed := fun other member =>
        wellFormed other (List.mem_cons_of_mem tree member)
      have firstInOrder := rewrites_inOrder guards localName marker
        (wellFormed tree List.mem_cons_self) standing start
      have restInOrder := rewritesAmong_inOrder guards localName marker restWellFormed standing
        (start + tree.width)
      rw [Tree.widthOfAll_cons, ← Nat.add_assoc, rewritesAmong_cons,
        firstInOrder.applySorted_append restInOrder, each tree List.mem_cons_self start stands.left,
        inductionHypothesis restWellFormed restStands fun other member =>
          each other (List.mem_cons_of_mem tree member),
        List.map_cons, Tree.textOfAll_cons]

/-- The edits make the text of the wrapped tree. -/
theorem applySorted_rewrites {standing : Standing} {tree : Tree} {start : Nat}
    (wellFormed : tree.WellFormed) (stands : Text.StandsAt source start tree.text) :
    Edit.applySorted source (start + tree.width) start
        (rewrites guards localName marker standing tree start) =
      (wrapTree guards localName marker standing tree).text := by
  induction tree using Tree.childInduction generalizing standing start with
  | leaf role kind letters =>
      rw [(WithoutImports.leaf role kind letters).rewrites]
      exact stands.slice_eq
  | node role kind children childHypothesis =>
      cases rewritten : isRewritten standing (.node role kind children) with
      | true =>
          rw [rewrites_rewritten rewritten wellFormed, wrapTree_rewritten rewritten]
          simp only [Edit.applySorted, Nat.lt_irrefl, if_false, Tree.width_node, Text.slice_same,
            List.nil_append, List.append_nil]
      | false =>
          rw [rewrites_other rewritten, wrapTree_other rewritten, Tree.text_node]
          exact applySorted_rewritesAmong_of wellFormed.children stands fun child member start own =>
            childHypothesis child member (wellFormed.children child member) own

theorem applySorted_rewritesAmong (guards : List Text) (localName marker : Text)
    (standing : Standing) {trees : List Tree} {start : Nat}
    (wellFormed : ∀ tree ∈ trees, tree.WellFormed)
    (stands : Text.StandsAt source start (Tree.textOfAll trees)) :
    Edit.applySorted source (start + Tree.widthOfAll trees) start
        (rewritesAmong guards localName marker standing trees start) =
      Tree.textOfAll (trees.map (wrapTree guards localName marker standing)) :=
  applySorted_rewritesAmong_of wellFormed stands fun tree member _ own =>
    applySorted_rewrites (wellFormed tree member) own

end ImportMeter.Instrument
