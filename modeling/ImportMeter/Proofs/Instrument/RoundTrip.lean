/-
This file proves that unwrapping undoes wrapping: a wrapped import that is unwrapped is the import that it
was. So wrapping what is left to wrap does not change what removal makes of a script that imports the entry
point.
-/
import ImportMeter.Proofs.Instrument.Injection
import ImportMeter.Proofs.Instrument.Usage

namespace ImportMeter.Instrument

open Script

variable {source : Text} {callees guards : List Text} {localName marker : Text}

/-- The trees in which nothing stands between `import` and the parentheses of an import of a plain
string. -/
inductive Tight : Tree → Prop where
  | leaf (role : Option Role) (kind : Kind) (letters : Text) : Tight (.leaf role kind letters)
  | node {role : Option Role} {kind : Kind} {children : List Tree}
      (own : isImportCall (.node role kind children) = true →
        ((Script.Tree.node role kind children).givenArguments.head?.bind stringValue?).isSome = true →
          children.length = 2)
      (inside : ∀ child ∈ children, Tight child) : Tight (.node role kind children)

/-- True if nothing stands between `import` and the parentheses in any import of a plain string, as far as
the code looks at it. -/
def LiteralsAreTight (tree : Tree) : Prop :=
  ∀ dynamicImport ∈ dynamicImports tree, dynamicImport.literal?.isSome = true →
    dynamicImport.call.focus.children.length = 2

instance (tree : Tree) : Decidable (LiteralsAreTight tree) :=
  inferInstanceAs (Decidable (∀ dynamicImport ∈ dynamicImports tree, _ → _))

/-- It is enough to look at the dynamic imports of a script. -/
theorem tight_of_dynamicImports {tree : Tree} (tight : LiteralsAreTight tree) : Tight tree := by
  have each : ∀ (above : List Frame) (start : Nat), (∀ place ∈ Place.parentsFirst tree above start,
      ∀ dynamicImport, DynamicImport.ofPlace? place = some dynamicImport →
        dynamicImport.literal?.isSome = true → place.focus.children.length = 2) → Tight tree := by
    clear tight
    induction tree using Tree.childInduction with
    | leaf role kind letters => exact fun _ _ _ => .leaf role kind letters
    | node role kind children childHypothesis =>
        intro above start tight
        refine .node (fun isImport isLiteral => ?_) fun child member => ?_
        · have found := isSome_dynamicImport ⟨.node role kind children, above, start⟩
          rw [isImport] at found
          obtain ⟨dynamicImport, found⟩ := Option.isSome_iff_exists.mp found
          obtain ⟨same, _⟩ := dynamicImport_eq_some found
          refine tight _ List.mem_cons_self dynamicImport found ?_
          have given := map_focus_argumentsOf ⟨.node role kind children, above, start⟩
          rw [← given, List.head?_map, Option.bind_map] at isLiteral
          rw [same]
          exact isLiteral
        · obtain ⟨first, second, rfl⟩ := List.append_of_mem member
          obtain ⟨front, inner, behind, split, _, _⟩ :=
            Place.amongChildren_around role kind above [] start first child second
          refine childHypothesis child member inner (start + Tree.widthOfAll first)
            fun place inChild => tight place (List.mem_cons_of_mem _ ?_)
          rw [split]
          exact List.mem_append_right _ (List.mem_append_left _ inChild)
  refine each [] 0 fun place member dynamicImport found isLiteral => ?_
  obtain ⟨rfl, _⟩ := dynamicImport_eq_some found
  refine tight _ (List.mem_filterMap.mpr ⟨place, ?_, found⟩) isLiteral
  rw [Place.preorder_eq]
  exact member

/-- Without marked calls there is nothing to unwrap. -/
theorem unwrapTree_eq_self {tree : Tree} (none : tree.markedCount callees marker = 0) :
    unwrapTree callees marker tree = tree := by
  induction tree using Tree.childInduction with
  | leaf => rfl
  | node role kind children childHypothesis =>
      obtain ⟨unmarked, inside⟩ := markedCount_node_eq_zero_iff.mp none
      rw [unwrapTree_unmarked unmarked, List.map_congr_left fun child member =>
        childHypothesis child member (inside child member), List.map_id']

theorem markedCount_token {tree : Tree} (wellFormed : tree.WellFormed)
    (isToken : tree.kind.isToken = true) : tree.markedCount callees marker = 0 := by
  rw [wellFormed.eq_leaf isToken]
  rfl

theorem markedCount_string {tree : Tree} (wellFormed : tree.WellFormed)
    (isString : tree.kind = .string) : tree.markedCount callees marker = 0 := by
  have isNode := wellFormed.eq_node (by rw [isString]; rfl)
  rw [isString] at isNode
  rw [isNode] at wellFormed ⊢
  exact markedCount_node_eq_zero_iff.mpr ⟨Tree.isMarked_eq_false (by simp [Tree.kind]),
    fun child member => markedCount_token (wellFormed.children child member)
      (wellFormed.nodeShape.string rfl child member)⟩

theorem markedCount_quoted (role : Option Role) (letters : Text) :
    ((quoted letters).withRole role).markedCount callees marker = 0 := by
  refine markedCount_node_eq_zero_iff.mpr ⟨Tree.isMarked_eq_false (by simp [Tree.kind]), ?_⟩
  split <;> simp [Tree.markedCount]

theorem markedCount_writtenTrees (written : Text) :
    ∀ tree ∈ writtenTrees written, tree.markedCount callees marker = 0 := by
  have isQuoted : (quoted written).markedCount callees marker = 0 := markedCount_quoted none written
  simp only [writtenTrees, List.forall_mem_cons, List.not_mem_nil, false_imp_iff, implies_true,
    and_true, isQuoted]
  simp [Tree.markedCount, Tree.markedCount.among, Tree.isMarked, Tree.kind]

namespace PlainImport

variable (plain : PlainImport)

theorem callOf_eq : callOf localName marker plain.tree =
    .node plain.role .callExpression
      [.leaf (some .callee) .identifier localName,
        .node (some .arguments) .arguments (.leaf none .mark ['('] ::
          (plain.front ++ plain.path :: (writtenTrees marker ++ plain.behind)) ++
            [.leaf none .mark [')']])] := by
  have regroup : plain.front ++ [plain.path] ++ writtenTrees marker ++ plain.behind =
      plain.front ++ plain.path :: (writtenTrees marker ++ plain.behind) := by
    simp only [List.append_assoc, List.cons_append, List.nil_append]
  rw [callOf_tree, regroup]

theorem argumentList?_callOf : (callOf localName marker plain.tree).argumentList? =
    some (.node (some .arguments) .arguments (.leaf none .mark ['('] ::
      (plain.front ++ plain.path :: (writtenTrees marker ++ plain.behind)) ++
        [.leaf none .mark [')']])) := by
  rw [callOf_eq]
  rfl

theorem betweenParentheses_callOf :
    betweenParentheses (callOf localName marker plain.tree) =
      plain.front ++ plain.path :: (writtenTrees marker ++ plain.behind) := by
  rw [betweenParentheses, argumentList?_callOf, Option.map_some, Option.getD_some, Tree.children,
    List.cons_append, List.tail_cons, List.dropLast_concat]

/-- The marker is the last of four arguments. -/
theorem givenArguments_callOf (localName marker : Text) :
    ∃ second third, (callOf localName marker plain.tree).givenArguments =
      [plain.path, second, third, quoted marker] := by
  have written : ∃ second third, (writtenTrees marker).filter Tree.isArgument =
      [second, third, quoted marker] := ⟨_, _, rfl⟩
  obtain ⟨second, third, written⟩ := written
  have mark : ∀ letters, (Script.Tree.leaf none .mark letters).isArgument = false := fun _ => rfl
  have front : plain.front.filter Tree.isArgument = [] :=
    List.filter_eq_nil_iff.mpr fun tree member => Bool.eq_false_iff.mp (plain.frontPlain tree member)
  have behind : plain.behind.filter Tree.isArgument = [] :=
    List.filter_eq_nil_iff.mpr fun tree member => Bool.eq_false_iff.mp (plain.behindPlain tree member)
  refine ⟨second, third, ?_⟩
  rw [Tree.givenArguments, argumentList?_callOf]
  simp only [Tree.children, List.cons_append, List.filter_cons, List.filter_append, mark, front, behind,
    written, plain.isArgument, Bool.false_eq_true, if_true, if_false, List.filter_nil,
    List.append_nil, List.nil_append]

/-- The call that takes the place of an import is marked. -/
theorem isMarked_callOf (marker : Text) (known : localName ∈ callees) :
    (callOf localName marker plain.tree).isMarked callees marker = true := by
  obtain ⟨second, third, given⟩ := plain.givenArguments_callOf localName marker
  have name : (callOf localName marker plain.tree).calleeName? = some localName := rfl
  have isCall : (callOf localName marker plain.tree).kind = .callExpression := rfl
  rw [Tree.isMarked, given, name, isCall]
  simp [known, stringValue?_quoted]

/-- In an import of a plain string no call is marked, and none is in the call that takes its place. -/
theorem markedCount_children (callees : List Text) (marker : Text) {written : List Tree}
    (unmarked : ∀ tree ∈ written, tree.markedCount callees marker = 0)
    (wellFormed : plain.tree.WellFormed) :
    (Script.Tree.node (some .arguments) .arguments (.leaf none .mark ['('] ::
      (plain.front ++ plain.path :: (written ++ plain.behind)) ++
        [.leaf none .mark [')']])).markedCount callees marker = 0 := by
  have inside : ∀ tree ∈ plain.front ++ plain.path :: plain.behind,
      tree.markedCount callees marker = 0 := by
    intro tree member
    obtain ⟨treeWellFormed, isToken | isString⟩ := plain.between_shape wellFormed tree member
    · exact markedCount_token treeWellFormed isToken
    · exact markedCount_string treeWellFormed isString
  refine markedCount_node_eq_zero_iff.mpr ⟨Tree.isMarked_eq_false (by simp [Tree.kind]), ?_⟩
  intro tree member
  simp only [List.cons_append, List.append_assoc, List.mem_cons, List.mem_append, List.not_mem_nil,
    or_false] at member
  rcases member with rfl | inFront | isPath | isWritten | isBehind | rfl
  · rfl
  · exact inside tree (by simp [inFront])
  · exact inside tree (by simp [isPath])
  · exact unmarked tree isWritten
  · exact inside tree (by simp [isBehind])
  · rfl

theorem markedCount_tree (wellFormed : plain.tree.WellFormed) :
    plain.tree.markedCount callees marker = 0 := by
  have nameless : plain.tree.calleeName? = none := rfl
  have unmarked : plain.tree.isMarked callees marker = false := by
    rw [Tree.isMarked, nameless, Option.any_none, Bool.and_false, Bool.false_and]
  refine markedCount_node_eq_zero_iff.mpr ⟨unmarked, fun child member => ?_⟩
  simp only [List.cons_append, List.mem_cons, List.mem_append, List.not_mem_nil, or_false] at member
  rcases member with rfl | inMiddle | rfl
  · rfl
  · obtain ⟨kind, letters, rfl, _⟩ := plain.between child inMiddle
    rfl
  · have inside := plain.markedCount_children callees marker (List.forall_mem_nil _) wellFormed
    exact inside

/-- Unwrapped, that call is the import again. -/
theorem unwrapTree_callOf (known : localName ∈ callees) (tight : plain.tree.children.length = 2)
    (wellFormed : plain.tree.WellFormed) :
    unwrapTree callees marker (callOf localName marker plain.tree) = plain.tree := by
  have inside := plain.markedCount_children callees marker (markedCount_writtenTrees marker) wellFormed
  have unwrapped : unwrapTree callees marker (callOf localName marker plain.tree) =
      importOf (callOf localName marker plain.tree) := by
    have isMarked := plain.isMarked_callOf marker known
    rw [callOf_eq] at isMarked ⊢
    rw [unwrapTree_marked isMarked, List.map_cons, List.map_singleton, unwrapTree_eq_self inside]
    rfl
  have trail : trailTrees (plain.front ++ plain.path :: (writtenTrees marker ++ plain.behind)) =
      plain.behind := by
    have split : writtenTrees marker = (writtenTrees marker).dropLast ++ [quoted marker] := rfl
    rw [split, List.append_assoc, List.singleton_append, ← List.cons_append, ← List.append_assoc,
      trailTrees_eq plain.behindPlain rfl]
  have middle : plain.middle = [] := by
    simp only [tree, Tree.children, List.cons_append, List.length_cons, List.length_append,
      List.length_nil] at tight
    exact List.length_eq_zero_iff.mp (by omega)
  obtain ⟨second, third, given⟩ := plain.givenArguments_callOf localName marker
  have role : (callOf localName marker plain.tree).role? = plain.role := rfl
  rw [unwrapped, importOf, betweenParentheses_callOf, given, role,
    keptTrees_eq plain.frontPlain plain.isArgument, trail, tree, middle, list]
  simp

/-- It is the only marked call there. -/
theorem markedCount_callOf (known : localName ∈ callees) (wellFormed : plain.tree.WellFormed) :
    (callOf localName marker plain.tree).markedCount callees marker = 1 := by
  have isMarked := plain.isMarked_callOf marker known
  rw [callOf_eq] at isMarked ⊢
  rw [Tree.markedCount, if_pos isMarked, Tree.markedCount.among, Tree.markedCount.among,
    plain.markedCount_children callees marker (markedCount_writtenTrees marker) wellFormed]
  rfl

end PlainImport

/-- An import that is rewritten is made of `import` and the parentheses. -/
theorem Tight.plainImport {standing : Standing} {tree : Tree} (tight : Tight tree)
    (rewritten : isRewritten standing tree = true) (wellFormed : tree.WellFormed) :
    ∃ plain : PlainImport, plain.tree = tree ∧ plain.tree.children.length = 2 := by
  obtain ⟨plain, same, given⟩ := exists_plainImport rewritten wellFormed
  refine ⟨plain, same, ?_⟩
  rw [isRewritten, Bool.and_eq_true] at rewritten
  cases tight with
  | leaf => cases same
  | node own _ =>
      rw [same]
      refine own rewritten.1 ?_
      rw [given, List.head?_cons, Option.bind_some, stringValue?, if_pos plain.isString]
      rfl

/-- Wrapping what is left to wrap changes nothing for unwrapping. -/
theorem unwrapTree_wrapTree (guards : List Text) (marker : Text) (known : localName ∈ callees)
    {standing : Standing} {tree : Tree} (wellFormed : tree.WellFormed) (tight : Tight tree) :
    unwrapTree callees marker (wrapTree guards localName marker standing tree) =
      unwrapTree callees marker tree := by
  induction tree using Tree.childInduction generalizing standing with
  | leaf => rfl
  | node role kind children childHypothesis =>
      cases rewritten : isRewritten standing (.node role kind children) with
      | true =>
          obtain ⟨plain, same, short⟩ := tight.plainImport rewritten wellFormed
          rw [wrapTree_rewritten rewritten]
          rw [← same] at wellFormed ⊢
          rw [plain.unwrapTree_callOf known short wellFormed,
            unwrapTree_eq_self (plain.markedCount_tree wellFormed)]
      | false =>
          cases tight with
          | node _ inside =>
              have isMarked := (keeps_wrapTree guards localName marker
                (Standing.below guards (.node role kind children) standing)).isMarked_map
                  (keeps_wrapTree guards localName marker _)
                  (children_wrapTree_list guards localName marker _) callees marker wellFormed
              have unwrapped : (children.map (wrapTree guards localName marker
                    (Standing.below guards (.node role kind children) standing))).map
                    (unwrapTree callees marker) = children.map (unwrapTree callees marker) := by
                rw [List.map_map]
                exact List.map_congr_left fun child member =>
                  childHypothesis child member (wellFormed.children child member) (inside child member)
              rw [wrapTree_other rewritten]
              cases marked : (Script.Tree.node role kind children).isMarked callees marker with
              | true =>
                  rw [unwrapTree_marked (isMarked.trans marked), unwrapTree_marked marked, unwrapped]
              | false =>
                  rw [unwrapTree_unmarked (isMarked.trans marked), unwrapTree_unmarked marked, unwrapped]

theorem markedCountAmong_wrapTree_of {standing : Standing} {trees : List Tree}
    (each : ∀ tree ∈ trees,
      (wrapTree guards localName marker standing tree).markedCount callees marker =
        tree.markedCount callees marker + (fates guards standing tree).count .rewritten) :
    Tree.markedCount.among callees marker
        (trees.map (wrapTree guards localName marker standing)) =
      Tree.markedCount.among callees marker trees +
        (fates.among guards standing trees).count .rewritten := by
  induction trees with
  | nil => rfl
  | cons tree rest inductionHypothesis =>
      rw [List.map_cons, Tree.markedCount.among, Tree.markedCount.among, fates.among,
        List.count_append, each tree List.mem_cons_self,
        inductionHypothesis fun other member => each other (List.mem_cons_of_mem tree member)]
      omega

/-- Wrapping marks a call for every import that it rewrites. -/
theorem markedCount_wrapTree (known : localName ∈ callees) {standing : Standing} {tree : Tree}
    (wellFormed : tree.WellFormed) :
    (wrapTree guards localName marker standing tree).markedCount callees marker =
      tree.markedCount callees marker + (fates guards standing tree).count .rewritten := by
  induction tree using Tree.childInduction generalizing standing with
  | leaf role kind letters =>
      rw [(WithoutImports.leaf role kind letters).fates]
      rfl
  | node role kind children childHypothesis =>
      cases rewritten : isRewritten standing (.node role kind children) with
      | true =>
          obtain ⟨plain, same, _⟩ := exists_plainImport rewritten wellFormed
          rw [wrapTree_rewritten rewritten, fates_rewritten rewritten wellFormed]
          rw [← same] at wellFormed ⊢
          rw [plain.markedCount_callOf known wellFormed, plain.markedCount_tree wellFormed]
          rfl
      | false =>
          have isMarked := (keeps_wrapTree guards localName marker
            (Standing.below guards (.node role kind children) standing)).isMarked_map
              (keeps_wrapTree guards localName marker _)
              (children_wrapTree_list guards localName marker _) callees marker wellFormed
          have own : (fateAt standing (.node role kind children) 0).count .rewritten = 0 := by
            rw [List.count_eq_zero, fateAt]
            rw [isRewritten] at rewritten
            split
            next isImport =>
              rw [isImport, Bool.true_and, decide_eq_false_iff_not] at rewritten
              simpa using Ne.symm rewritten
            next => exact List.not_mem_nil
          rw [wrapTree_other rewritten, Tree.markedCount, Tree.markedCount, isMarked, fates,
            List.count_append, own, markedCountAmong_wrapTree_of fun child member =>
              childHypothesis child member (wellFormed.children child member)]
          omega

theorem sameBegin_of_letters {letter other : Char} {rest otherRest : Text}
    (notBlank : isBlank letter = false) (otherNotBlank : isBlank other = false) :
    SameBegin (letter :: rest) (other :: otherRest) :=
  .inr ⟨[], letter, rest, other, otherRest, notBlank, otherNotBlank, rfl, rfl⟩

theorem sameEnds_wrapTreeAmong_of (standing : Standing) {trees : List Tree}
    (each : ∀ tree ∈ trees,
      SameBegin tree.text (wrapTree guards localName marker standing tree).text ∧
        SameBegin tree.text.reverse (wrapTree guards localName marker standing tree).text.reverse) :
    SameBegin (Tree.textOfAll trees)
        (Tree.textOfAll (trees.map (wrapTree guards localName marker standing))) ∧
      SameBegin (Tree.textOfAll trees).reverse
        (Tree.textOfAll (trees.map (wrapTree guards localName marker standing))).reverse := by
  induction trees with
  | nil => exact ⟨.inl rfl, .inl rfl⟩
  | cons tree rest inductionHypothesis =>
      have first := each tree List.mem_cons_self
      have others := inductionHypothesis fun other member => each other (List.mem_cons_of_mem tree member)
      rw [List.map_cons, Tree.textOfAll_cons, Tree.textOfAll_cons, List.reverse_append,
        List.reverse_append]
      exact ⟨first.1.append others.1, others.2.append first.2⟩

/-- The blanks at both ends of a text are the same when its imports are wrapped. -/
theorem sameEnds_wrapTree (guards : List Text) (marker : Text) {first : Char} {rest : Text}
    (begins : localName = first :: rest) (notBlank : isBlank first = false) {standing : Standing}
    {tree : Tree} (wellFormed : tree.WellFormed) :
    SameBegin tree.text (wrapTree guards localName marker standing tree).text ∧
      SameBegin tree.text.reverse (wrapTree guards localName marker standing tree).text.reverse := by
  induction tree using Tree.childInduction generalizing standing with
  | leaf => exact ⟨.inl rfl, .inl rfl⟩
  | node role kind children childHypothesis =>
      cases rewritten : isRewritten standing (.node role kind children) with
      | true =>
          obtain ⟨plain, same, _⟩ := exists_plainImport rewritten wellFormed
          rw [wrapTree_rewritten rewritten, ← same, text_callOf, begins]
          have closes : plain.tree.text = Word.importWord ++ Tree.textOfAll plain.middle ++
              '(' :: Tree.textOfAll (plain.front ++ plain.path :: plain.behind) ++ [')'] := by
            simp [PlainImport.tree, PlainImport.list]
          rw [closes]
          refine ⟨sameBegin_of_letters (by decide) notBlank, ?_⟩
          rw [List.reverse_concat, List.reverse_concat]
          exact sameBegin_of_letters (by decide) (by decide)
      | false =>
          rw [wrapTree_other rewritten, Tree.text_node, Tree.text_node]
          exact sameEnds_wrapTreeAmong_of _ fun child member =>
            childHypothesis child member (wellFormed.children child member)

theorem map_unwrapTree_wrapTree (guards : List Text) (marker : Text) (known : localName ∈ callees)
    {standing : Standing} {trees : List Tree}
    (each : ∀ tree ∈ trees, tree.WellFormed ∧ Tight tree) :
    (trees.map (wrapTree guards localName marker standing)).map (unwrapTree callees marker) =
      trees.map (unwrapTree callees marker) := by
  rw [List.map_map]
  exact List.map_congr_left fun tree member =>
    unwrapTree_wrapTree guards marker known (each tree member).1 (each tree member).2

/-- The name that calls go through is one of the names of the entry point. -/
theorem localName_mem (instrumentation : Instrumentation) (binding : Option ImportBinding) :
    (instrumentation.localNames binding).1 ∈ (instrumentation.localNames binding).2 := by
  rw [Instrumentation.localNames]
  split <;> simp

variable {statements : List Tree} {directory : Path} {instrumentation : Instrumentation}

/-- Wrapping does not change how the blanks around a declaration are deleted. -/
theorem textAround_wrapTree (guards : List Text) (marker : Text) (known : localName ∈ callees)
    {first : Char} {rest : Text} (begins : localName = first :: rest)
    (notBlank : isBlank first = false) {before after : List Tree}
    (each : ∀ tree ∈ before ++ after, tree.WellFormed ∧ Tight tree) :
    textAround (unwrapTree callees marker) (before.map (wrapTree guards localName marker .plain))
        (after.map (wrapTree guards localName marker .plain)) =
      textAround (unwrapTree callees marker) before after := by
  have inBefore := fun tree member => each tree (List.mem_append_left after member)
  have inAfter := fun tree member => each tree (List.mem_append_right before member)
  have front := sameEnds_wrapTreeAmong_of .plain fun tree member =>
    sameEnds_wrapTree guards marker begins notBlank (inBefore tree member).1
  have behind := sameEnds_wrapTreeAmong_of .plain fun tree member =>
    sameEnds_wrapTree guards marker begins notBlank (inAfter tree member).1
  rw [textAround, textAround, map_unwrapTree_wrapTree guards marker known inBefore,
    map_unwrapTree_wrapTree guards marker known inAfter, ← front.2.indentation_eq,
    ← behind.1.lineEnd_eq]

/-- Wrapping does not change whether the import of the entry point is unused. -/
theorem importUnused_wrapTree (guards : List Text) (marker : Text) (known : localName ∈ callees)
    {target : Path} (each : ∀ tree ∈ statements, tree.WellFormed ∧ Tight tree) :
    ImportUnused directory target callees marker
        (statements.map (wrapTree guards localName marker .plain)) ↔
      ImportUnused directory target callees marker statements := by
  have wellFormed := fun tree member => (each tree member).1
  have descends := descends_wrapTree guards localName marker
  rw [ImportUnused, ImportUnused, filterMap_declared?_rewrite descends wellFormed,
    beforeImport_map descends wellFormed, afterImport_map descends wellFormed, ← List.map_append,
    map_unwrapTree_wrapTree guards marker known fun tree member => each tree ?_]
  exact (List.mem_append.mp member).elim mem_of_mem_beforeImport mem_of_mem_afterImport

/-- Calls go through the name of the import of the entry point, which begins with a character of its own. -/
theorem localName_begins (wellFormed : (Script.Tree.node none .program statements).WellFormed)
    {binding : ImportBinding}
    (bound : findBinding? (.node none .program statements) directory instrumentation.modulePath =
      some binding) :
    ∃ first rest, (instrumentation.localNames (some binding)).1 = first :: rest ∧
      isBlank first = false := by
  obtain ⟨before, after, rfl, _, _, declares, imports, _⟩ := findBinding?_split bound
  rw [Declared.imports, Bool.and_eq_true, Option.isSome_iff_exists] at imports
  obtain ⟨name, isName⟩ := imports.1
  have declaration := wellFormed.children binding.statement.focus (by simp)
  have same : (instrumentation.localNames (some binding)).1 = name := by
    have isName : binding.defaultLocal = some name := isName
    rw [Instrumentation.localNames, Option.bind_some, isName, Option.getD_some]
    split <;> rfl
  rw [same]
  exact defaultLocal_begins declaration declares isName

theorem markedCount_program (statements : List Tree) :
    (Script.Tree.node none .program statements).markedCount callees marker =
      Tree.markedCount.among callees marker statements := by
  rw [Tree.markedCount, Tree.isMarked_eq_false (by simp [Tree.kind]), if_neg Bool.false_ne_true,
    Nat.zero_add]

/-- What removal makes of the wrapped statements of a script that imports the entry point. -/
theorem removeTree_wrapped (wellFormed : (Script.Tree.node none .program statements).WellFormed)
    (tight : ∀ tree ∈ statements, Tight tree) {binding : ImportBinding}
    (bound : findBinding? (.node none .program statements) directory instrumentation.modulePath =
      some binding) {names : Text × List Text}
    (named : instrumentation.localNames (some binding) = names) {wrapped : List Tree}
    (isWrapped : wrapped =
      statements.map (wrapTree names.2 names.1 instrumentation.marker .plain))
    (againWellFormed : (Script.Tree.node none .program wrapped).WellFormed)
    (same : (Script.Tree.node none .program wrapped).text = source) {outcome : Outcome}
    (removed : removeTree source (.node none .program wrapped) directory instrumentation =
      outcome) :
    outcome.rewritten =
        (Script.Tree.node none .program statements).markedCount names.2 instrumentation.marker +
          (fates names.2 .plain (.node none .program statements)).count .rewritten ∧
      (0 < outcome.rewritten → (outcome.importRemoved = true ↔ ImportUnused directory
        instrumentation.modulePath names.2 instrumentation.marker statements)) ∧
      (outcome.importRemoved = false → outcome.textOr source =
        Tree.textOfAll (statements.map (unwrapTree names.2 instrumentation.marker))) ∧
      (outcome.importRemoved = true → outcome.textOr source =
        textAround (unwrapTree names.2 instrumentation.marker)
          (beforeImport directory instrumentation.modulePath statements)
          (afterImport directory instrumentation.modulePath statements)) := by
  have known : names.1 ∈ names.2 := by
    rw [← named]
    exact localName_mem instrumentation (some binding)
  obtain ⟨first, rest, begins, notBlank⟩ := localName_begins wellFormed bound
  rw [named] at begins
  have each : ∀ tree ∈ statements, tree.WellFormed ∧ Tight tree := fun tree member =>
    ⟨wellFormed.children tree member, tight tree member⟩
  have descends := descends_wrapTree names.2 names.1 instrumentation.marker
  have sameNames : instrumentation.localNames (findBinding? (.node none .program wrapped) directory
      instrumentation.modulePath) = names := by
    have found := declaredBy_findBinding? wrapped directory instrumentation.modulePath
    have known := declaredBy_findBinding? statements directory instrumentation.modulePath
    rw [isWrapped, filterMap_declared?_rewrite descends wellFormed.children, ← known, bound,
      ← isWrapped] at found
    obtain ⟨other, isOther, sameDeclared⟩ := Option.map_eq_some_iff.mp found
    rw [isOther, ← named]
    exact localNames_congr (congrArg Declared.defaultLocal sameDeclared)
  have rewritten := removeTree_rewritten source (.node none .program wrapped) directory instrumentation
  rw [sameNames, removed] at rewritten
  obtain ⟨kept, deleted⟩ := removeTree_left directory instrumentation againWellFormed same rfl removed
  rw [sameNames] at kept deleted
  have count : (Script.Tree.node none .program wrapped).markedCount names.2 instrumentation.marker =
      (Script.Tree.node none .program statements).markedCount names.2 instrumentation.marker +
        (fates names.2 .plain (.node none .program statements)).count .rewritten := by
    rw [markedCount_program, markedCount_program, isWrapped, fates_program, markedCountAmong_wrapTree_of fun tree member =>
      markedCount_wrapTree known (each tree member).1]
  refine ⟨rewritten.trans count, fun marks => ?_, fun stays => ?_, fun goes => ?_⟩
  · rw [rewritten] at marks
    rw [← removed, removeTree_importRemoved_iff_unused source directory instrumentation againWellFormed
      (congrArg Prod.snd sameNames) marks, isWrapped,
      importUnused_wrapTree names.2 instrumentation.marker known each]
  · rw [kept stays, isWrapped, map_unwrapTree_wrapTree names.2 instrumentation.marker known each]
  · rw [deleted goes, isWrapped, beforeImport_map descends wellFormed.children,
      afterImport_map descends wellFormed.children,
      textAround_wrapTree names.2 instrumentation.marker known begins notBlank fun tree member =>
        each tree ((List.mem_append.mp member).elim mem_of_mem_beforeImport mem_of_mem_afterImport)]

theorem markedCountAmong_append (first second : List Tree) :
    Tree.markedCount.among callees marker (first ++ second) =
      Tree.markedCount.among callees marker first + Tree.markedCount.among callees marker second := by
  induction first with
  | nil => rw [List.nil_append, Tree.markedCount.among, Nat.zero_add]
  | cons tree first inductionHypothesis =>
      rw [List.cons_append, Tree.markedCount.among, Tree.markedCount.among, inductionHypothesis,
        Nat.add_assoc]

theorem markedCount_declarationOf (entryName specifier : Text) :
    (declarationOf entryName specifier).markedCount callees marker = 0 := by
  have clause : (Script.Tree.node none .importClause
      [.leaf none .identifier entryName]).markedCount callees marker = 0 :=
    markedCount_node_eq_zero_iff.mpr ⟨Tree.isMarked_eq_false (by simp [Tree.kind]), by
      simp [Tree.markedCount]⟩
  refine markedCount_node_eq_zero_iff.mpr ⟨Tree.isMarked_eq_false (by simp [Tree.kind]), ?_⟩
  simp only [List.forall_mem_cons, List.not_mem_nil, false_imp_iff, implies_true, and_true, clause,
    markedCount_quoted]
  simp [Tree.markedCount]

theorem map_unwrapTree_eq_self {trees : List Tree}
    (unmarked : ∀ tree ∈ trees, tree.markedCount callees marker = 0) :
    trees.map (unwrapTree callees marker) = trees := by
  rw [List.map_congr_left fun tree member => unwrapTree_eq_self (unmarked tree member), List.map_id']

/-- What leads a script declares nothing. -/
theorem declared?_leading {tree : Tree} (leading : isLeading tree = true) : declared? tree = none := by
  have isToken := isToken_of_isLeading leading
  rw [declared?, if_neg]
  intro isImport
  rw [isImport] at isToken
  cases isToken

theorem any_imports_declarationOf (entryName specifier : Text) (directory target : Path) :
    (declared? (declarationOf entryName specifier)).any (·.imports directory target) =
      (⟨specifier, some entryName, 1⟩ : Declared).imports directory target := by
  rw [declared?_declarationOf, Option.any_some]

section

variable {target : Path} {front rest : List Tree} {entryName specifier : Text}

/-- No call is marked in what leads a script, whatever statements follow. -/
theorem unmarked_behind (leading : ∀ tree ∈ front, isLeading tree = true)
    (wellFormed : ∀ tree ∈ front, tree.WellFormed)
    (unmarked : (Script.Tree.node none .program statements).markedCount callees marker = 0) :
    ∀ tree ∈ front ++ statements.dropWhile isLeading, tree.markedCount callees marker = 0 :=
  List.forall_mem_append.mpr ⟨fun tree member =>
      markedCount_token (wellFormed tree member) (isToken_of_isLeading (leading tree member)),
    fun tree member =>
      (markedCount_node_eq_zero_iff.mp unmarked).2 tree ((List.dropWhile_sublist _).mem member)⟩

theorem markedCount_added (unmarked : ∀ tree ∈ front ++ rest, tree.markedCount [entryName] marker = 0)
    (wellFormed : ∀ tree ∈ rest, tree.WellFormed) :
    Tree.markedCount.among [entryName] marker
        (front ++ declarationOf entryName specifier :: .leaf none .blank ['\n'] ::
          rest.map (wrapTree [entryName] entryName marker .plain)) =
      (fates.among [entryName] .plain rest).count .rewritten := by
  have inFront : Tree.markedCount.among [entryName] marker front = 0 :=
    markedCountAmong_eq_zero_iff.mpr fun tree member => unmarked tree (List.mem_append_left rest member)
  have inRest : Tree.markedCount.among [entryName] marker rest = 0 :=
    markedCountAmong_eq_zero_iff.mpr fun tree member => unmarked tree (List.mem_append_right front member)
  rw [markedCountAmong_append, inFront, Tree.markedCount.among, markedCount_declarationOf,
    Tree.markedCount.among, markedCountAmong_wrapTree_of fun tree member =>
      markedCount_wrapTree (List.mem_singleton_self _) (wellFormed tree member), inRest]
  simp [Tree.markedCount]

theorem unwrapTree_added (unmarked : ∀ tree ∈ front ++ rest, tree.markedCount [entryName] marker = 0)
    (each : ∀ tree ∈ rest, tree.WellFormed ∧ Tight tree) :
    front.map (unwrapTree [entryName] marker) = front ∧
      (Tree.leaf none .blank ['\n'] :: rest.map (wrapTree [entryName] entryName marker .plain)).map
          (unwrapTree [entryName] marker) = .leaf none .blank ['\n'] :: rest := by
  refine ⟨map_unwrapTree_eq_self fun tree member => unmarked tree (List.mem_append_left rest member), ?_⟩
  rw [List.map_cons, map_unwrapTree_wrapTree _ _ (List.mem_singleton_self _) each,
    map_unwrapTree_eq_self fun tree member => unmarked tree (List.mem_append_right front member)]
  rfl

/-- An added declaration is unused if the script did not use its name before. -/
theorem importUnused_added
    (imports : (⟨specifier, some entryName, 1⟩ : Declared).imports directory target = true)
    (leading : ∀ tree ∈ front, isLeading tree = true)
    (unmarked : ∀ tree ∈ front ++ rest, tree.markedCount [entryName] marker = 0)
    (each : ∀ tree ∈ rest, tree.WellFormed ∧ Tight tree)
    (unused : entryName ∉ usedNames.among (front ++ rest)) :
    ImportUnused directory target [entryName] marker
      (front ++ declarationOf entryName specifier :: .leaf none .blank ['\n'] ::
        rest.map (wrapTree [entryName] entryName marker .plain)) := by
  obtain ⟨inFront, behind⟩ := unwrapTree_added unmarked each
  have nothing : front.filterMap declared? = [] :=
    List.filterMap_eq_nil_iff.mpr fun tree member => declared?_leading (leading tree member)
  have isFirst := (any_imports_declarationOf entryName specifier directory target).trans imports
  have others : ∀ tree ∈ front, (declared? tree).any (·.imports directory target) = false :=
    fun tree member => by rw [declared?_leading (leading tree member)]; rfl
  refine ⟨specifier, entryName, ?_, ?_⟩
  · rw [List.filterMap_append, nothing, List.nil_append,
      List.filterMap_cons_some (declared?_declarationOf _ _)]
    exact List.find?_cons_of_pos imports
  · rw [beforeImport_split isFirst others, afterImport_split isFirst others, List.map_append, inFront,
      behind, usedNamesAmong_append]
    rwa [usedNamesAmong_append] at unused

/-- Its deletion takes the line end along that was written with it. -/
theorem textAround_added
    (unmarked : ∀ tree ∈ front ++ rest, tree.markedCount [entryName] marker = 0)
    (each : ∀ tree ∈ rest, tree.WellFormed ∧ Tight tree)
    (unindented : indentation (Tree.textOfAll front) = 0) :
    textAround (unwrapTree [entryName] marker) front
        (.leaf none .blank ['\n'] :: rest.map (wrapTree [entryName] entryName marker .plain)) =
      Tree.textOfAll (front ++ rest) := by
  obtain ⟨inFront, behind⟩ := unwrapTree_added unmarked each
  have ends : ∀ text, lineEnd ('\n' :: text) = 1 := fun text => by simp [lineEnd, isSpace]
  rw [textAround, inFront, behind, unindented, Tree.textOfAll_cons, Tree.textOfAll_cons, Tree.text_leaf,
    List.singleton_append, List.singleton_append, ends, Nat.sub_zero, List.take_length,
    List.drop_succ_cons, List.drop_zero, ← Tree.textOfAll_append]

end

/-- Removal that rewrites a call leaves a text. -/
theorem removeTree_text_eq {tree : Tree} {outcome : Outcome}
    (removed : removeTree source tree directory instrumentation = outcome)
    (rewrites : 0 < outcome.rewritten) : outcome.text = some (outcome.textOr source) := by
  rcases removeTree_cases source tree directory instrumentation rfl rfl with
    ⟨_, unchanged⟩ | ⟨_, text, _, _⟩
  · rw [← removed, unchanged] at rewrites
    cases rewrites
  · rw [removed] at text
    rw [Outcome.textOr, text, Option.getD_some]

theorem Tight.children {tree : Tree} (tight : Tight tree) : ∀ child ∈ tree.children, Tight child := by
  cases tight with
  | leaf => exact nofun
  | node _ inside => exact inside

/-- True if the calls that injection writes into a script are read as it writes them, the statements around
them as they were. -/
def CallsReadBack (instrumentation : Instrumentation) (binding : Option ImportBinding)
    (statements : List Tree) : Prop :=
  let names := instrumentation.localNames binding
  let wrapped := statements.map (wrapTree names.2 names.1 instrumentation.marker .plain)
  parse? (Tree.textOfAll wrapped) = some (.node none .program wrapped)

instance (instrumentation : Instrumentation) (binding : Option ImportBinding) (statements : List Tree) :
    Decidable (CallsReadBack instrumentation binding statements) :=
  inferInstanceAs (Decidable (parse? _ = _))

/-- Where no import is rewritten, there is nothing else to read. -/
theorem callsReadBack_of_none (parsed : parse? source = some (.node none .program statements))
    {binding : Option ImportBinding}
    (none : (fates (instrumentation.localNames binding).2 .plain (.node none .program statements)).count
      .rewritten = 0) : CallsReadBack instrumentation binding statements := by
  obtain ⟨same, _⟩ := parse?_sound parsed
  rw [List.count_eq_zero, fates_program] at none
  have unchanged : statements.map (wrapTree (instrumentation.localNames binding).2
      (instrumentation.localNames binding).1 instrumentation.marker .plain) = statements := by
    rw [List.map_congr_left fun tree member =>
      wrapTree_eq_self fun isFate => none (mem_fatesAmong member isFate), List.map_id']
  simp only [CallsReadBack, unchanged]
  rw [← Tree.text_node Option.none .program, same, parsed]

/-- Injection leaves the wrapped statements of a script that imports the entry point, and nothing else. -/
theorem textOr_injectTree_some (wellFormed : (Script.Tree.node none .program statements).WellFormed)
    (same : (Script.Tree.node none .program statements).text = source) {binding : ImportBinding}
    (bound : findBinding? (.node none .program statements) directory instrumentation.modulePath =
      some binding) :
    (injectTree source (.node none .program statements) directory instrumentation).textOr source =
      Tree.textOfAll (statements.map (wrapTree (instrumentation.localNames (some binding)).2
        (instrumentation.localNames (some binding)).1 instrumentation.marker .plain)) := by
  obtain ⟨text, added, _⟩ := injectTree_spec directory instrumentation wellFormed same bound rfl rfl
  have split := List.takeWhile_append_dropWhile (p := isLeading) (l := statements)
  rw [text, added, Option.isNone_some, if_neg Bool.false_ne_true, List.append_nil,
    ← Tree.textOfAll_append]
  conv_rhs => rw [← split, List.map_append, map_wrapTree_leading wellFormed.children]

/-- A script that imports the entry point and has a marked call is left the same by removal as before
injection, provided that the wrapped calls are read as injection writes them: what injection wrapped is
unwrapped with the rest. -/
theorem remove_inject (workingDirectory file : Path) (instrumentation : Instrumentation)
    {tree : Tree} (parsed : parse? source = some tree) :
    let directory := directoryOf workingDirectory file
    let binding := findBinding? tree directory instrumentation.modulePath
    ∃ wrapped outcome, inject? workingDirectory source file instrumentation = some wrapped ∧
      remove? workingDirectory source file instrumentation = some outcome ∧
      (binding.isSome = true → 0 < outcome.rewritten →
        LiteralsAreTight tree →
        (0 < wrapped.rewritten → CallsReadBack instrumentation binding tree.children) →
        ∃ again, remove? workingDirectory (wrapped.textOr source) file instrumentation = some again ∧
          again.text = outcome.text ∧ again.importRemoved = outcome.importRemoved ∧
          again.rewritten = outcome.rewritten + wrapped.rewritten) := by
  intro directory binding
  obtain ⟨same, wellFormed, statements, rfl⟩ := parse?_sound parsed
  obtain ⟨_, _, _, _, wraps, _⟩ := injectTree_spec directory instrumentation wellFormed same rfl rfl rfl
  refine ⟨injectTree source (.node none .program statements) directory instrumentation,
    removeTree source (.node none .program statements) directory instrumentation,
    by rw [inject?, injectBy?, parsed, Option.map_some],
    by rw [remove?, removeBy?, parsed, Option.map_some], ?_⟩
  intro known marks tight reads
  obtain ⟨found, isFound⟩ := Option.isSome_iff_exists.mp known
  have bound : findBinding? (.node none .program statements) directory instrumentation.modulePath =
    some found := isFound
  have leaves := textOr_injectTree_some wellFormed same bound
  have callsRead : CallsReadBack instrumentation (some found) statements := by
    rw [bound] at wraps
    rw [isFound, wraps] at reads
    exact (Nat.eq_zero_or_pos _).elim (callsReadBack_of_none parsed) reads
  rw [CallsReadBack, ← leaves] at callsRead
  generalize injectTree source (.node none .program statements) directory instrumentation = wrapped
    at wraps leaves callsRead ⊢
  generalize isLeft : statements.map (wrapTree (instrumentation.localNames (some found)).2
    (instrumentation.localNames (some found)).1 instrumentation.marker .plain) = left at callsRead
  obtain ⟨againSame, againWellFormed, _⟩ := parse?_sound callsRead
  -- What removal makes of the script itself, and of the script that injection leaves.
  have rewritten := removeTree_rewritten source (.node none .program statements) directory
    instrumentation
  have unused := removeTree_importRemoved_iff_unused source directory instrumentation wellFormed rfl
    (rewritten ▸ marks)
  obtain ⟨kept, deleted⟩ := removeTree_left directory instrumentation wellFormed same rfl rfl
  have text := removeTree_text_eq rfl marks
  rw [bound] at wraps rewritten unused kept deleted
  obtain ⟨againRewritten, againUnused, againKept, againDeleted⟩ :=
    removeTree_wrapped wellFormed (tight_of_dynamicImports tight).children bound rfl isLeft.symm
      againWellFormed againSame rfl
  have againMarks : 0 < (removeTree (wrapped.textOr source) (.node none .program left) directory
      instrumentation).rewritten := by
    rw [againRewritten, ← rewritten]
    omega
  have againText := removeTree_text_eq rfl againMarks
  have sameRemoved := (againUnused againMarks).trans unused.symm
  rw [← Bool.eq_iff_iff] at sameRemoved
  refine ⟨removeTree (wrapped.textOr source) (.node none .program left) directory instrumentation,
    by rw [remove?, removeBy?, callsRead, Option.map_some], ?_, sameRemoved,
    by rw [againRewritten, rewritten, wraps]⟩
  rw [againText, text]
  cases removed : (removeTree source (.node none .program statements) directory
    instrumentation).importRemoved with
  | false => rw [againKept (sameRemoved.trans removed), kept removed]
  | true => rw [againDeleted (sameRemoved.trans removed), deleted removed]

/-- A script that imports the entry point, with a marked call and an import to wrap. -/
def partlyWrapped : Text := "import p from './p';p('a',import.meta.url,null,'m');import('b')".toList

theorem remove_inject_partlyWrapped :
    ∃ wrapped outcome again,
      inject? ⟨['/']⟩ partlyWrapped ⟨"/f".toList⟩ smallEntry = some wrapped ∧
      remove? ⟨['/']⟩ partlyWrapped ⟨"/f".toList⟩ smallEntry = some outcome ∧
      outcome.rewritten = 1 ∧ wrapped.rewritten = 1 ∧
      remove? ⟨['/']⟩ (wrapped.textOr partlyWrapped) ⟨"/f".toList⟩ smallEntry = some again ∧
      again.text = outcome.text ∧ again.importRemoved = outcome.importRemoved ∧
      again.rewritten = 2 := by
  have checked : (parse? partlyWrapped).any (fun tree =>
      let directory := directoryOf ⟨['/']⟩ ⟨"/f".toList⟩
      let binding := findBinding? tree directory smallEntry.modulePath
      let wrapped := injectTree partlyWrapped tree directory smallEntry
      Decidable.decide (binding.isSome = true) &&
        Decidable.decide ((removeTree partlyWrapped tree directory smallEntry).rewritten = 1) &&
        Decidable.decide (wrapped.rewritten = 1) &&
        Decidable.decide (LiteralsAreTight tree) &&
        Decidable.decide (CallsReadBack smallEntry binding tree.children)) = true := by
    decide +kernel
  obtain ⟨tree, parsed, checked⟩ := (Option.any_eq_true _ _).mp checked
  simp only [Bool.and_eq_true, decide_eq_true_eq] at checked
  obtain ⟨⟨⟨⟨known, marks⟩, wraps⟩, tight⟩, reads⟩ := checked
  obtain ⟨wrapped, outcome, injected, removed, restores⟩ :=
    remove_inject ⟨['/']⟩ ⟨"/f".toList⟩ smallEntry parsed
  have isWrapped := injected
  rw [inject?, injectBy?, parsed, Option.map_some] at isWrapped
  cases isWrapped
  have isOutcome := removed
  rw [remove?, removeBy?, parsed, Option.map_some] at isOutcome
  cases isOutcome
  obtain ⟨again, removedAgain, text, importRemoved, rewritten⟩ :=
    restores known (by rw [marks]; exact Nat.one_pos) tight fun _ => reads
  exact ⟨_, _, again, injected, removed, marks, wraps, removedAgain, text, importRemoved,
    by rw [rewritten, marks, wraps]⟩

/-- A script that imports the entry point under a name that is read as a word of its own. -/
def undefinedName : Text :=
  "import undefined from './p';p('a',import.meta.url,null,'m');import('b')".toList

/-- The call that injection writes under such a name is not unwrapped again. -/
theorem remove_inject_undefinedName :
    ∃ wrapped outcome again,
      inject? ⟨['/']⟩ undefinedName ⟨"/f".toList⟩ smallEntry = some wrapped ∧
      remove? ⟨['/']⟩ undefinedName ⟨"/f".toList⟩ smallEntry = some outcome ∧
      remove? ⟨['/']⟩ (wrapped.textOr undefinedName) ⟨"/f".toList⟩ smallEntry = some again ∧
      outcome.rewritten = 1 ∧ again.text ≠ outcome.text := by
  have checked : (inject? ⟨['/']⟩ undefinedName ⟨"/f".toList⟩ smallEntry).any (fun wrapped =>
      (remove? ⟨['/']⟩ undefinedName ⟨"/f".toList⟩ smallEntry).any fun outcome =>
        (remove? ⟨['/']⟩ (wrapped.textOr undefinedName) ⟨"/f".toList⟩ smallEntry).any fun again =>
          Decidable.decide (outcome.rewritten = 1) && Decidable.decide (again.text ≠ outcome.text)) =
      true := by
    decide +kernel
  obtain ⟨wrapped, injected, checked⟩ := (Option.any_eq_true _ _).mp checked
  obtain ⟨outcome, removed, checked⟩ := (Option.any_eq_true _ _).mp checked
  obtain ⟨again, removedAgain, checked⟩ := (Option.any_eq_true _ _).mp checked
  rw [Bool.and_eq_true, decide_eq_true_eq, decide_eq_true_eq] at checked
  exact ⟨wrapped, outcome, again, injected, removed, removedAgain, checked⟩

end ImportMeter.Instrument
