/-
This file proves what injection does to the statements of a script: they are left in order with their
imports wrapped, behind a declaration of the entry point if the script had none, and only those imports
are left that were not rewritten.
-/
import ImportMeter.Proofs.Instrument.Wrapped
import ImportMeter.Proofs.Instrument.Binding
import ImportMeter.Proofs.Instrument.Removal

namespace ImportMeter.Instrument

open Script

variable {source : Text} {guards : List Text} {localName marker : Text}

theorem text_callOf (localName marker : Text) (call : Tree) :
    (callOf localName marker call).text =
      localName ++ '(' :: Tree.textOfAll (keptTrees (betweenParentheses call)) ++
        ", import.meta.url, null, '".toList ++ marker ++
          '\x27' :: Tree.textOfAll (trailTrees (betweenParentheses call)) ++ [')'] := by
  have written : Tree.textOfAll (writtenTrees marker) =
      ", import.meta.url, null, '".toList ++ marker ++ ['\x27'] := by
    cases marker with
    | nil => rfl
    | cons letter rest =>
        simp only [writtenTrees, quoted, Tree.textOfAll_cons, Tree.textOfAll_nil, Tree.text_node,
          Tree.text_leaf, reduceCtorEq, if_false, List.cons_append, List.nil_append, List.append_nil]
        rfl
  simp only [callOf, Tree.text_node, Tree.text_leaf, Tree.textOfAll_cons, Tree.textOfAll_nil,
    Tree.textOfAll_append, written, List.append_assoc, List.append_nil, List.cons_append,
    List.nil_append]

/-- What stands between the parentheses of an import of one path, as trees and in the source. -/
theorem exists_between {place path : Place} (wellFormed : place.focus.WellFormed)
    (stands : Text.StandsAt source place.start place.text) (given : argumentsOf place = [path]) :
    ∃ list own front behind, argumentList? place = some list ∧
      list.focus = .node own .arguments (.leaf none .mark ['('] ::
        (front ++ path.focus :: behind) ++ [.leaf none .mark [')']]) ∧
      path.focus.isArgument = true ∧ (∀ tree ∈ front, tree.isArgument = false) ∧
      (∀ tree ∈ behind, tree.isArgument = false) ∧
      path.start = list.start + 1 + Tree.widthOfAll front ∧
      source.slice (list.start + 1) path.stop = Tree.textOfAll (front ++ [path.focus]) ∧
      source.slice path.stop (list.stop - 1) = Tree.textOfAll behind := by
  obtain ⟨list, isList⟩ : ∃ list, argumentList? place = some list := by
    cases isList : argumentList? place with
    | none => rw [argumentsOf, isList] at given; cases given
    | some list => exact ⟨list, rfl⟩
  obtain ⟨role, kind, before, after, own, inner, same, bracketed, listStart⟩ :=
    argumentList?_split isList wellFormed
  have arguments : argumentsOf place = [] ++ path :: [] := given
  obtain ⟨front, behind, rfl, isArgument, frontPlain, behindPlain, pathStart⟩ :=
    argumentsOf_between isList bracketed arguments
  have inner : Text.StandsAt source (list.start + 1)
      (Tree.textOfAll (front ++ [path.focus]) ++ Tree.textOfAll behind) := by
    rw [Place.text, same, Tree.text_node, Tree.textOfAll_append, Tree.textOfAll_cons, bracketed] at stands
    have inList := stands.right.left
    rw [← Tree.widthOfAll_eq, ← listStart] at inList
    have inside : (Script.Tree.node own .arguments (.leaf none .mark ['('] ::
        (front ++ path.focus :: behind) ++ [.leaf none .mark [')']])).text =
        ['('] ++ ((Tree.textOfAll (front ++ [path.focus]) ++ Tree.textOfAll behind) ++ [')']) := by
      simp
    rw [inside] at inList
    exact inList.right.left
  have pathStop : path.stop = list.start + 1 + (Tree.textOfAll (front ++ [path.focus])).length := by
    rw [Place.stop, pathStart, ← Tree.widthOfAll_eq]
    simp only [Tree.widthOfAll_append, Tree.widthOfAll_cons, Tree.widthOfAll_nil]
    omega
  have listStop : list.stop - 1 = path.stop + (Tree.textOfAll behind).length := by
    rw [Place.stop, bracketed, pathStop, ← Tree.widthOfAll_eq, ← Tree.widthOfAll_eq]
    simp only [Tree.width_node, Tree.widthOfAll_append, Tree.widthOfAll_cons, Tree.widthOfAll_nil,
      Tree.width_leaf, List.length_singleton, List.cons_append]
    omega
  refine ⟨list, own, front, behind, isList, bracketed, isArgument, fun tree member => ?_,
    fun tree member => ?_, pathStart, ?_, ?_⟩
  · exact Bool.eq_false_iff.mpr (List.filter_eq_nil_iff.mp frontPlain tree member)
  · exact Bool.eq_false_iff.mpr (List.filter_eq_nil_iff.mp behindPlain tree member)
  · rw [pathStop]
    exact inner.left.slice_eq
  · rw [listStop, pathStop]
    exact inner.right.slice_eq

/-- The call that the code writes is the text of the tree that takes the import's place. -/
theorem markedCall_eq (localName marker : Text) {place path : Place} {dynamicImport : DynamicImport}
    (found : DynamicImport.ofPlace? place = some dynamicImport) (wellFormed : place.focus.WellFormed)
    (stands : Text.StandsAt source place.start place.text) (given : argumentsOf place = [path]) :
    markedCall source localName marker dynamicImport path =
      (callOf localName marker place.focus).text := by
  obtain ⟨rfl, _⟩ := dynamicImport_eq_some found
  obtain ⟨list, own, front, behind, isList, bracketed, isArgument, plainFront, plainBehind, _, kept,
    trail⟩ := exists_between wellFormed stands given
  have treeList := map_focus_argumentList? place
  rw [isList, Option.map_some, bracketed, eq_comm] at treeList
  have between : betweenParentheses place.focus = front ++ path.focus :: behind := by
    rw [betweenParentheses, treeList, Option.map_some, Option.getD_some, Tree.children,
      List.cons_append, List.tail_cons, List.dropLast_concat]
  rw [text_callOf, between, keptTrees_eq plainFront isArgument, trailTrees_eq plainBehind isArgument]
  simp only [markedCall, isList, kept, trail]

/-- An import is rewritten only if a path is all it is given, and then to a marked call of the path. -/
theorem decide_eq_rewritten {place : Place} {dynamicImport : DynamicImport} {edit : Edit}
    (found : DynamicImport.ofPlace? place = some dynamicImport)
    (decided : decide source localName marker guards dynamicImport = .rewritten edit) :
    ∃ path, argumentsOf place = [path] ∧
      edit = ⟨place.range, markedCall source localName marker dynamicImport path⟩ := by
  obtain ⟨rfl, _⟩ := dynamicImport_eq_some found
  rw [decide] at decided
  split at decided
  next => cases decided
  next =>
    rcases given : argumentsOf place with _ | ⟨path, _ | ⟨second, others⟩⟩
    · rw [given] at decided
      cases decided
    · simp only [given, List.head?_cons] at decided
      split at decided
      next => cases decided
      next =>
        split at decided
        next => cases decided
        next =>
          cases decided
          exact ⟨path, rfl, rfl⟩
    · simp only [given, List.head?_cons, List.length_cons] at decided
      split at decided
      next => cases decided
      next =>
        rw [if_pos (by omega)] at decided
        cases decided

/-- The edit for a dynamic import, if there is one, is the one of its tree. -/
theorem edit?_decide (guards : List Text) (localName marker : Text) {place : Place}
    {dynamicImport : DynamicImport} (found : DynamicImport.ofPlace? place = some dynamicImport)
    (wellFormed : place.focus.WellFormed)
    (stands : Text.StandsAt source place.start place.text) :
    (decide source localName marker guards dynamicImport).edit?.toList =
      rewriteAt localName marker (Standing.ofFrames guards place.focus place.above) place.focus
        place.start := by
  have isImport := isSome_dynamicImport place
  rw [found, Option.isSome_some] at isImport
  have fate := fate_decide source localName marker guards found
  rw [rewriteAt, isRewritten, ← isImport, Bool.true_and, ← fate]
  cases decided : decide source localName marker guards dynamicImport with
  | guarded => rfl
  | skipped diagnostic => rfl
  | rewritten edit =>
      obtain ⟨path, given, rfl⟩ := decide_eq_rewritten found decided
      rw [markedCall_eq localName marker found wellFormed stands given]
      rfl

/-- The edits of the code are those of the trees. -/
theorem edits_eq (guards : List Text) (localName marker : Text) {tree : Tree}
    (wellFormed : tree.WellFormed) (same : tree.text = source) :
    ((dynamicImports tree).map (decide source localName marker guards)).filterMap Decision.edit? =
      rewrites guards localName marker .plain tree 0 := by
  have walked := Standing.flatMap_parentsFirst guards (rewriteAt localName marker) tree [] 0
  have stands : Text.StandsAt source 0 tree.text := by
    rw [same]
    exact .whole source
  rw [Standing.ofFrames] at walked
  rw [rewrites, ← walked, dynamicImports, Place.preorder_eq, List.map_filterMap,
    List.filterMap_filterMap, List.filterMap_eq_flatMap_toList, List.flatMap_congr]
  intro place member
  obtain ⟨focusWellFormed, focusStands⟩ := Place.of_parentsFirst wellFormed stands member
  cases found : DynamicImport.ofPlace? place with
  | none =>
      have isImport := isSome_dynamicImport place
      rw [found, Option.isSome_none] at isImport
      rw [rewriteAt, isRewritten, ← isImport, Bool.false_and, if_neg Bool.false_ne_true]
      rfl
  | some dynamicImport => exact edit?_decide guards localName marker found focusWellFormed focusStands

/-- True for what a new declaration is put behind: white space, comments and a line for the system. -/
def isLeading (tree : Tree) : Bool :=
  !tree.kind.isNamed || tree.kind = .comment || tree.kind = .hashBangLine

theorem isToken_of_isLeading {tree : Tree} (leading : isLeading tree = true) :
    tree.kind.isToken = true := by
  rw [isLeading] at leading
  revert leading
  cases tree.kind <;> simp [Kind.isNamed, Kind.isToken]

theorem isLeading_of_mem {statements : List Tree} {tree : Tree}
    (member : tree ∈ statements.takeWhile isLeading) : isLeading tree = true :=
  List.all_eq_true.mp List.all_takeWhile tree member

/-- The first statement stands behind all that leads. -/
theorem firstStatementStart?_eq (statements : List Tree) :
    firstStatementStart? (.node none .program statements) =
      if statements.dropWhile isLeading = [] then none
      else some (Tree.widthOfAll (statements.takeWhile isLeading)) := by
  have among : ∀ (trees left : List Tree) (start : Nat),
      ((Place.childPlaces none .program [] left start trees).find? fun place =>
          !isLeading place.focus).map Place.start =
        if trees.dropWhile isLeading = [] then none
        else some (start + Tree.widthOfAll (trees.takeWhile isLeading)) := by
    intro trees
    induction trees with
    | nil => intro _ _; rfl
    | cons tree rest restHypothesis =>
        intro left start
        cases leading : isLeading tree with
        | true =>
            rw [Place.childPlaces, List.find?_cons_of_neg (by simp [leading]), restHypothesis,
              List.dropWhile_cons_of_pos leading, List.takeWhile_cons_of_pos leading,
              Tree.widthOfAll_cons, Nat.add_assoc]
        | false =>
            rw [Place.childPlaces, List.find?_cons_of_pos (by simp [leading]),
              List.dropWhile_cons_of_neg (by simp [leading]),
              List.takeWhile_cons_of_neg (by simp [leading]), if_neg (List.cons_ne_nil _ _)]
            rfl
  have walked := among statements [] 0
  rw [Nat.zero_add] at walked
  rw [firstStatementStart?, Place.namedChildren, Place.top, Place.children_eq, List.find?_filter,
    ← walked]
  refine congrArg (fun test => Option.map Place.start (List.find? test _)) (funext fun place => ?_)
  rw [isLeading, Place.kind]
  cases place.focus.kind.isNamed <;> simp

/-- The line that injection adds to a script with some statements: a script without any may have to end
its last line first. -/
def addedLine (source : Text) (statements : List Tree) (declaration : Text) : Text :=
  if statements.dropWhile isLeading = [] ∧ source ≠ [] ∧ source.getLast? ≠ some '\n' then
    '\n' :: declaration
  else declaration

/-- The declaration is put behind all that leads. -/
theorem insertDeclaration_eq {statements : List Tree} (declaration : Text)
    (same : (Script.Tree.node none .program statements).text = source) :
    insertDeclaration source (.node none .program statements) declaration =
      .insert (Tree.widthOfAll (statements.takeWhile isLeading))
        (addedLine source statements declaration) := by
  rw [insertDeclaration, firstStatementStart?_eq, addedLine]
  by_cases empty : statements.dropWhile isLeading = []
  · have whole : statements.takeWhile isLeading = statements := by
      have split := List.takeWhile_append_dropWhile (p := isLeading) (l := statements)
      rwa [empty, List.append_nil] at split
    have stop : Tree.widthOfAll statements = source.length := by
      rw [Tree.widthOfAll_eq, ← same]
      rfl
    rw [whole, stop]
    simp only [empty, if_true, true_and]
    by_cases ends : source = [] ∨ source.getLast? = some '\n'
    · rw [if_pos (by simpa using ends), if_neg fun open' => ends.elim open'.1 open'.2]
    · rw [if_neg (by simpa using ends), if_pos (not_or.mp ends)]
  · simp only [empty, if_false, false_and]

/-- What leads a script is left alone. -/
theorem map_wrapTree_leading {statements : List Tree}
    (wellFormed : ∀ tree ∈ statements, tree.WellFormed) :
    (statements.takeWhile isLeading).map (wrapTree guards localName marker .plain) =
      statements.takeWhile isLeading :=
  (keeps_wrapTree guards localName marker .plain).map_tokens
    (fun tree member => wellFormed tree ((List.takeWhile_sublist _).mem member))
    fun _ member => isToken_of_isLeading (isLeading_of_mem member)

/-- All edits are for what stands behind all that leads. -/
theorem rewrites_behindLeading {statements : List Tree} (guards : List Text) (localName marker : Text)
    (wellFormed : (Script.Tree.node none .program statements).WellFormed) :
    rewrites guards localName marker .plain (.node none .program statements) 0 =
      rewritesAmong guards localName marker .plain (statements.dropWhile isLeading)
        (Tree.widthOfAll (statements.takeWhile isLeading)) := by
  have plain : Standing.below guards (.node none .program statements) .plain = .plain :=
    Standing.below_other (by simp [Tree.kind]) (.inr (by decide)) (.inr (by decide))
  have nothing : rewritesAmong guards localName marker .plain (statements.takeWhile isLeading) 0 =
      [] := by
    refine rewritesAmong_eq_nil fun tree member start => ?_
    exact (WithoutImports.token
      (wellFormed.children tree ((List.takeWhile_sublist _).mem member))
      (isToken_of_isLeading (isLeading_of_mem member))).rewrites _ start
  have split : rewritesAmong guards localName marker .plain
      (statements.takeWhile isLeading ++ statements.dropWhile isLeading) 0 = _ :=
    rewritesAmong_append _ _ _ _
  rw [List.takeWhile_append_dropWhile, nothing, List.nil_append, Nat.zero_add] at split
  rw [rewrites_other (isRewritten_eq_false (by simp [Tree.kind])), plain, split]

/-- The added line and the edits stand in order. -/
theorem insert_rewrites_inOrder {statements : List Tree} (guards : List Text) (localName marker : Text)
    (wellFormed : (Script.Tree.node none .program statements).WellFormed)
    (same : (Script.Tree.node none .program statements).text = source) (line : Option Text) :
    Edit.InOrder 0 source.length
      ((line.map (Edit.insert (Tree.widthOfAll (statements.takeWhile isLeading)))).toList ++
        rewrites guards localName marker .plain (.node none .program statements) 0) := by
  have length : source.length = Tree.widthOfAll (statements.takeWhile isLeading) +
      Tree.widthOfAll (statements.dropWhile isLeading) := by
    rw [← same, Tree.text_node, ← Tree.widthOfAll_eq, ← Tree.widthOfAll_append,
      List.takeWhile_append_dropWhile]
  have inRest : ∀ tree ∈ statements.dropWhile isLeading, tree.WellFormed := fun tree member =>
    wellFormed.children tree ((List.dropWhile_sublist _).mem member)
  have inOrder := rewritesAmong_inOrder guards localName marker inRest .plain
    (Tree.widthOfAll (statements.takeWhile isLeading))
  rw [← length] at inOrder
  rw [rewrites_behindLeading guards localName marker wellFormed]
  cases line with
  | none => exact inOrder.widen (Nat.zero_le _) (Nat.le_refl _)
  | some line => exact ⟨Nat.zero_le _, Nat.le_refl _, inOrder⟩

/-- The edits make the text of the wrapped statements, with the added line behind all that leads. -/
theorem applyAll_rewrites {statements : List Tree} (guards : List Text) (localName marker : Text)
    (wellFormed : (Script.Tree.node none .program statements).WellFormed)
    (same : (Script.Tree.node none .program statements).text = source) (line : Option Text) :
    Edit.applyAll source
        ((line.map (Edit.insert (Tree.widthOfAll (statements.takeWhile isLeading)))).toList ++
          rewrites guards localName marker .plain (.node none .program statements) 0) =
      Tree.textOfAll (statements.takeWhile isLeading) ++ line.getD [] ++
        Tree.textOfAll ((statements.dropWhile isLeading).map
          (wrapTree guards localName marker .plain)) := by
  have inOrder := insert_rewrites_inOrder guards localName marker wellFormed same line
  have edits := rewrites_behindLeading guards localName marker wellFormed
  have split := List.takeWhile_append_dropWhile (p := isLeading) (l := statements)
  have inRest : ∀ tree ∈ statements.dropWhile isLeading, tree.WellFormed := fun tree member =>
    wellFormed.children tree ((List.dropWhile_sublist _).mem member)
  generalize statements.takeWhile isLeading = front at inOrder edits split ⊢
  generalize statements.dropWhile isLeading = rest at edits split inRest ⊢
  have length : source.length = Tree.widthOfAll front + Tree.widthOfAll rest := by
    rw [← same, Tree.text_node, ← Tree.widthOfAll_eq, ← split, Tree.widthOfAll_append]
  have stands : Text.StandsAt source 0 (Tree.textOfAll front ++ Tree.textOfAll rest) := by
    rw [← Tree.textOfAll_append, split, ← Tree.text_node none .program, same]
    exact .whole source
  have frontText := stands.left.slice_eq
  rw [← Tree.widthOfAll_eq, Nat.zero_add] at frontText
  have restStands := stands.right
  rw [← Tree.widthOfAll_eq, Nat.zero_add] at restStands
  have restText := applySorted_rewritesAmong guards localName marker .plain inRest restStands
  rw [← length] at restText
  rw [inOrder.applyAll_eq, edits]
  cases line with
  | none =>
      have restInOrder := rewritesAmong_inOrder guards localName marker inRest .plain
        (Tree.widthOfAll front)
      rw [← length] at restInOrder
      rw [Option.map_none, Option.toList_none, List.nil_append,
        restInOrder.applySorted_front (Nat.zero_le _), frontText, restText]
      simp
  | some line =>
      rw [Option.map_some, Option.toList_some, List.singleton_append, Edit.applySorted,
        if_neg (Nat.not_lt_zero _)]
      simp only [Edit.insert, frontText, restText, Option.getD_some]

/-- There are as many edits and diagnostics as there are imports of the two fates. -/
theorem length_decisions (decisions : List Decision) :
    (decisions.filterMap Decision.edit?).length =
        (decisions.map Decision.fate).count .rewritten ∧
      (decisions.filterMap Decision.diagnostic?).length =
        (decisions.map Decision.fate).count .skipped := by
  induction decisions with
  | nil => exact ⟨rfl, rfl⟩
  | cons decision decisions inductionHypothesis =>
      obtain ⟨edits, diagnostics⟩ := inductionHypothesis
      cases decision <;>
        simp [List.filterMap_cons, Decision.edit?, Decision.diagnostic?, Decision.fate, edits,
          diagnostics]

/-- What injection makes of a script: the line with the declaration, if the entry point was not imported,
and the wrapped statements. -/
theorem injectTree_spec {statements : List Tree} (directory : Path) (instrumentation : Instrumentation)
    (wellFormed : (Script.Tree.node none .program statements).WellFormed)
    (same : (Script.Tree.node none .program statements).text = source)
    {binding : Option ImportBinding}
    (bound : findBinding? (.node none .program statements) directory instrumentation.modulePath =
      binding) {names : Text × List Text} (named : instrumentation.localNames binding = names)
    {outcome : Outcome}
    (injected : injectTree source (.node none .program statements) directory instrumentation =
      outcome) :
    outcome.textOr source =
        Tree.textOfAll (statements.takeWhile isLeading) ++
          (if outcome.importAdded then
            addedLine source statements (importDeclaration instrumentation directory) else []) ++
          Tree.textOfAll ((statements.dropWhile isLeading).map
            (wrapTree names.2 names.1 instrumentation.marker .plain)) ∧
      outcome.importAdded = binding.isNone ∧ outcome.importRemoved = false ∧
      outcome.keptName = none ∧
      outcome.rewritten =
        (fates names.2 .plain (.node none .program statements)).count .rewritten ∧
      outcome.diagnostics.length =
        (fates names.2 .plain (.node none .program statements)).count .skipped ∧
      (outcome.text = none ↔ outcome.rewritten = 0 ∧ outcome.importAdded = false) := by
  obtain ⟨localName, guards⟩ := names
  have texts := applyAll_rewrites guards localName instrumentation.marker wellFormed same
  have counts := length_decisions ((dynamicImports (.node none .program statements)).map
    (decide source localName instrumentation.marker guards))
  rw [List.map_map, Function.comp_def, map_fate_decide,
    edits_eq guards localName instrumentation.marker wellFormed same] at counts
  simp only [injectTree, bound, named,
    edits_eq guards localName instrumentation.marker wellFormed same] at injected
  generalize rewrites guards localName instrumentation.marker .plain (.node none .program statements)
    0 = edits at texts counts injected
  subst injected
  cases binding with
  | some found =>
      have text := texts none
      rw [Option.map_none, Option.toList_none, List.nil_append] at text
      refine ⟨?_, rfl, rfl, rfl, counts.1, counts.2, ?_⟩
      · cases edits with
        | nil => exact (Edit.applyAll_nil source).symm.trans text
        | cons => exact text
      · cases edits <;> simp
  | none =>
      have text := texts (some (addedLine source statements
        (importDeclaration instrumentation directory)))
      rw [Option.map_some, Option.toList_some, Option.getD_some, ← insertDeclaration_eq _ same] at text
      refine ⟨?_, rfl, rfl, rfl, counts.1, counts.2, ?_⟩
      · simp only [Outcome.textOr, List.isEmpty_cons, Bool.and_false, Bool.false_eq_true, if_false,
          Bool.not_false, if_true, Option.getD_some]
        exact text
      · simp

/-- Injection leaves the statements of a script in order. In each of them the imports of plain strings that
are no arguments of the entry point are made marked calls, and no other import changes its fate. If the
entry point was not imported, a declaration is put behind the white space, the comments and the line for
the system that lead the script. -/
theorem inject_statements (workingDirectory file : Path) (instrumentation : Instrumentation)
    {tree : Tree} (parsed : parse? source = some tree) :
    let directory := directoryOf workingDirectory file
    let binding := findBinding? tree directory instrumentation.modulePath
    let names := instrumentation.localNames binding
    let wrap := wrapTree names.2 names.1 instrumentation.marker .plain
    ∃ statements outcome, tree = .node none .program statements ∧
      inject? workingDirectory source file instrumentation = some outcome ∧
      outcome.importAdded = binding.isNone ∧
      outcome.rewritten = (fates names.2 .plain tree).count .rewritten ∧
      source = Tree.textOfAll (statements.takeWhile isLeading) ++
        Tree.textOfAll (statements.dropWhile isLeading) ∧
      outcome.textOr source =
        Tree.textOfAll (statements.takeWhile isLeading) ++
          (if outcome.importAdded then
            addedLine source statements (importDeclaration instrumentation directory) else []) ++
          Tree.textOfAll ((statements.dropWhile isLeading).map wrap) ∧
      ∀ statement ∈ statements, (wrap statement).kind = statement.kind ∧
        fates names.2 .plain (wrap statement) =
          (fates names.2 .plain statement).filter (· ≠ .rewritten) := by
  intro directory binding names wrap
  obtain ⟨same, wellFormed, statements, rfl⟩ := parse?_sound parsed
  obtain ⟨text, added, _, _, rewritten, _⟩ :=
    injectTree_spec directory instrumentation wellFormed same rfl rfl rfl
  refine ⟨statements, injectTree source (.node none .program statements) directory instrumentation,
    rfl, ?_, added, rewritten, ?_, text, fun statement member => ⟨?_, ?_⟩⟩
  · rw [inject?, injectBy?, parsed, Option.map_some]
  · rw [← Tree.textOfAll_append, List.takeWhile_append_dropWhile, ← same]
    rfl
  · exact (keeps_wrapTree names.2 names.1 instrumentation.marker .plain).kind statement
  · exact fates_wrapTree (wellFormed.children statement member)

/-- An import in an argument, behind a comment. -/
def importInArgument : Text := "//c\nf(import('a'))".toList

theorem inject_statements_importInArgument :
    ∃ statements, parse? importInArgument = some (.node none .program statements) ∧
      "//c\nimport p from './p';\nf(p('a', import.meta.url, null, 'm'))".toList =
        Tree.textOfAll (statements.takeWhile isLeading) ++ "import p from './p';\n".toList ++
          Tree.textOfAll ((statements.dropWhile isLeading).map
            (wrapTree [smallEntry.entryName] smallEntry.entryName smallEntry.marker .plain)) := by
  have computed : inject? ⟨['/']⟩ importInArgument ⟨"/f".toList⟩ smallEntry =
      some ⟨some "//c\nimport p from './p';\nf(p('a', import.meta.url, null, 'm'))".toList, 1, true,
        false, [], none⟩ := by
    decide +kernel
  have named : (parse? importInArgument).any (fun tree => Decidable.decide ((smallEntry.localNames
      (findBinding? tree (directoryOf ⟨['/']⟩ ⟨"/f".toList⟩) smallEntry.modulePath)) =
        (smallEntry.entryName, [smallEntry.entryName])) && Decidable.decide (
          addedLine importInArgument tree.children (importDeclaration smallEntry
            (directoryOf ⟨['/']⟩ ⟨"/f".toList⟩)) = "import p from './p';\n".toList)) = true := by
    decide +kernel
  obtain ⟨tree, parsed, checked⟩ := (Option.any_eq_true _ _).mp named
  rw [Bool.and_eq_true, decide_eq_true_eq, decide_eq_true_eq] at checked
  obtain ⟨statements, outcome, rfl, injected, _, _, _, text, _⟩ :=
    inject_statements ⟨['/']⟩ ⟨"/f".toList⟩ smallEntry parsed
  rw [computed] at injected
  cases injected
  rw [checked.1] at text
  exact ⟨statements, parsed, text.trans (by rw [← checked.2]; rfl)⟩

/-- A comment in the way of markup at the beginning of a script. -/
def markupComment : Text := "<!--c\nimport('a')".toList

/-- Such a comment does not lead: the declaration is put in front of it. -/
theorem inject_statements_markupComment :
    inject? ⟨['/']⟩ markupComment ⟨"/f".toList⟩ smallEntry =
      some ⟨some "import p from './p';\n<!--c\np('a', import.meta.url, null, 'm')".toList, 1, true,
        false, [], none⟩ := by
  decide +kernel

/-- The import declaration of the entry point. -/
def declarationOf (entryName specifier : Text) : Tree :=
  .node none .importStatement
    [.leaf none .mark Word.importWord, .leaf none .blank [' '],
      .node none .importClause [.leaf none .identifier entryName], .leaf none .blank [' '],
      .leaf none .mark "from".toList, .leaf none .blank [' '],
      (quoted specifier).withRole (some .source), .leaf none .mark [';']]

theorem text_declarationOf (entryName specifier : Text) :
    (declarationOf entryName specifier).text ++ ['\n'] =
      "import ".toList ++ entryName ++ " from '".toList ++ specifier ++ "';\n".toList := by
  have opening : "import ".toList = Word.importWord ++ [' '] := rfl
  have middle : " from '".toList = ' ' :: "from".toList ++ [' ', '\x27'] := rfl
  have closing : "';\n".toList = ['\x27', ';', '\n'] := rfl
  rw [opening, middle, closing]
  by_cases empty : specifier = []
  · simp [declarationOf, quoted, empty, Tree.withRole]
  · simp [declarationOf, quoted, empty, Tree.withRole]

theorem stringValue?_quoted (letters : Text) : stringValue? (quoted letters) = some letters := by
  cases letters with
  | nil => rfl
  | cons letter rest =>
      rw [stringValue?, if_pos (by rfl)]
      simp [quoted, Tree.children, partValue]

/-- The declaration says what it is written to say. -/
theorem declared?_declarationOf (entryName specifier : Text) :
    declared? (declarationOf entryName specifier) = some ⟨specifier, some entryName, 1⟩ := by
  have value : stringValue? ((quoted specifier).withRole (some .source)) = some specifier :=
    stringValue?_quoted specifier
  have source : (declarationOf entryName specifier).child? .source =
      some ((quoted specifier).withRole (some .source)) := rfl
  rw [declared?, if_pos (by rfl), source, Option.bind_some, value]
  rfl

theorem withoutImports_declarationOf (entryName specifier : Text) :
    WithoutImports (declarationOf entryName specifier) := by
  have clause : WithoutImports (.node none .importClause [.leaf none .identifier entryName]) :=
    .node rfl (by simp [WithoutImports.leaf])
  refine .node rfl ?_
  simp only [List.forall_mem_cons, List.not_mem_nil, false_imp_iff, implies_true, and_true,
    WithoutImports.leaf, withoutImports_quoted, clause]

/-- The statements of a script after injection. -/
def injected (instrumentation : Instrumentation) (directory : Path) (binding : Option ImportBinding)
    (statements : List Tree) : List Tree :=
  let names := instrumentation.localNames binding
  statements.takeWhile isLeading ++
    (if binding.isNone then [declarationOf instrumentation.entryName
      (instrumentation.modulePath.importSpecifier directory)] else []) ++
    (statements.dropWhile isLeading).map (wrapTree names.2 names.1 instrumentation.marker .plain)

/-- Leaving out trees without imports changes nothing for the imports. -/
theorem fatesAmong_withoutTrivia {standing : Standing} {trees : List Tree}
    (without : ∀ tree ∈ trees, tree.isTrivia = true → WithoutImports tree) :
    fates.among guards standing (withoutTrivia trees) = fates.among guards standing trees := by
  induction trees with
  | nil => rfl
  | cons tree rest inductionHypothesis =>
      have others := inductionHypothesis fun other member =>
        without other (List.mem_cons_of_mem tree member)
      rw [withoutTrivia] at others
      cases trivia : tree.isTrivia with
      | true =>
          rw [withoutTrivia, List.filter_cons_of_neg (by simp [trivia]), others, fates.among,
            (without tree List.mem_cons_self trivia).fates, List.nil_append]
      | false =>
          rw [withoutTrivia, List.filter_cons_of_pos (by simp [trivia]), fates.among, fates.among,
            others]

theorem fatesAmong_append (standing : Standing) (first second : List Tree) :
    fates.among guards standing (first ++ second) =
      fates.among guards standing first ++ fates.among guards standing second := by
  induction first with
  | nil => rfl
  | cons tree first inductionHypothesis =>
      rw [List.cons_append, fates.among, fates.among, inductionHypothesis, List.append_assoc]

/-- The imports of a script are those of its statements. -/
theorem fates_program (guards : List Text) (statements : List Tree) :
    fates guards .plain (.node none .program statements) =
      fates.among guards .plain statements := by
  have plain : Standing.below guards (.node none .program statements) .plain = .plain :=
    Standing.below_other (by simp [Tree.kind]) (.inr (by decide)) (.inr (by decide))
  rw [fates, plain, fateAt, if_neg (by simp [isImportCall, Tree.kind]), List.nil_append]

/-- There is no import in what leads a script. -/
theorem fatesAmong_leading (guards : List Text) {statements : List Tree}
    (wellFormed : ∀ tree ∈ statements, tree.WellFormed) :
    fates.among guards .plain (statements.takeWhile isLeading) = [] :=
  fatesAmong_eq_nil fun tree member =>
    (WithoutImports.token (wellFormed tree ((List.takeWhile_sublist _).mem member))
      (isToken_of_isLeading (isLeading_of_mem member))).fates _

/-- The imports of a script stand behind all that leads it. -/
theorem fates_behindLeading (guards : List Text) {statements : List Tree}
    (wellFormed : ∀ tree ∈ statements, tree.WellFormed) :
    fates guards .plain (.node none .program statements) =
      fates.among guards .plain (statements.dropWhile isLeading) := by
  rw [fates_program]
  conv_lhs => rw [← List.takeWhile_append_dropWhile (p := isLeading) (l := statements)]
  rw [fatesAmong_append, fatesAmong_leading guards wellFormed, List.nil_append]

theorem WithoutImports.trivia {tree : Tree} (wellFormed : tree.WellFormed)
    (trivia : tree.isTrivia = true) : WithoutImports tree :=
  token wellFormed (Tree.isToken_of_isTrivia trivia)

/-- The white space and the comments between the statements are there after injection as well. -/
theorem withoutImports_injected (instrumentation : Instrumentation) (directory : Path)
    (binding : Option ImportBinding) {statements : List Tree}
    (wellFormed : ∀ tree ∈ statements, tree.WellFormed) :
    ∀ tree ∈ injected instrumentation directory binding statements, tree.isTrivia = true →
      WithoutImports tree := by
  intro tree member trivia
  rw [injected, List.mem_append, List.mem_append] at member
  rcases member with (inFront | isAdded) | inRest
  · exact .trivia (wellFormed tree ((List.takeWhile_sublist _).mem inFront)) trivia
  · split at isAdded
    next =>
      rw [List.mem_singleton.mp isAdded]
      exact withoutImports_declarationOf _ _
    next => cases isAdded
  · obtain ⟨original, isOriginal, rfl⟩ := List.mem_map.mp inRest
    have keeps := keeps_wrapTree (instrumentation.localNames binding).2
      (instrumentation.localNames binding).1 instrumentation.marker .plain
    rw [Tree.isTrivia, keeps.kind] at trivia
    have originalWellFormed := wellFormed original ((List.dropWhile_sublist _).mem isOriginal)
    rw [keeps.token originalWellFormed (Tree.isToken_of_isTrivia trivia)]
    exact .trivia originalWellFormed trivia

/-- After injection only those imports are left that were not rewritten. -/
theorem fates_injected (instrumentation : Instrumentation) (directory : Path)
    (binding : Option ImportBinding) {statements : List Tree}
    (wellFormed : ∀ tree ∈ statements, tree.WellFormed) :
    fates.among (instrumentation.localNames binding).2 .plain
        (injected instrumentation directory binding statements) =
      (fates.among (instrumentation.localNames binding).2 .plain statements).filter
        (· ≠ .rewritten) := by
  have leading := fatesAmong_leading (instrumentation.localNames binding).2 wellFormed
  have declaration : fates.among (instrumentation.localNames binding).2 .plain
      (if binding.isNone then [declarationOf instrumentation.entryName
        (instrumentation.modulePath.importSpecifier directory)] else []) = [] :=
    fatesAmong_eq_nil fun tree member => by
      split at member
      next =>
        rw [List.mem_singleton.mp member]
        exact (withoutImports_declarationOf _ _).fates _
      next => cases member
  have split := List.takeWhile_append_dropWhile (p := isLeading) (l := statements)
  rw [injected, fatesAmong_append, fatesAmong_append, leading, declaration,
    fatesAmong_wrapTree fun tree member =>
      wellFormed tree ((List.dropWhile_sublist _).mem member),
    ← congrArg (fates.among (instrumentation.localNames binding).2 .plain) split, fatesAmong_append,
    leading]
  rfl

theorem localNames_congr {instrumentation : Instrumentation} {first second : Option ImportBinding}
    (same : first.bind (·.defaultLocal) = second.bind (·.defaultLocal)) :
    instrumentation.localNames first = instrumentation.localNames second := by
  rw [Instrumentation.localNames, Instrumentation.localNames, same]

/-- After injection the entry point goes by the names that injection used. -/
theorem localNames_injected (instrumentation : Instrumentation) (directory : Path)
    {statements again : List Tree} (wellFormed : ∀ tree ∈ statements, tree.WellFormed)
    (resolves : (directory.join ⟨instrumentation.modulePath.importSpecifier directory⟩).normalize =
      instrumentation.modulePath.normalize)
    {binding : Option ImportBinding}
    (bound : findBinding? (.node none .program statements) directory instrumentation.modulePath =
      binding)
    (same : withoutTrivia again =
      withoutTrivia (injected instrumentation directory binding statements)) :
    let other := findBinding? (.node none .program again) directory instrumentation.modulePath
    other.isSome = true ∧
      instrumentation.localNames other = instrumentation.localNames binding := by
  intro other
  have found := declaredBy_findBinding? again directory instrumentation.modulePath
  have known := declaredBy_findBinding? statements directory instrumentation.modulePath
  rw [bound] at known
  change other.map declaredBy = _ at found
  have split := List.takeWhile_append_dropWhile (p := isLeading) (l := statements)
  rw [← filterMap_declared?_withoutTrivia, same, filterMap_declared?_withoutTrivia, injected,
    List.filterMap_append, List.filterMap_append,
    filterMap_declared?_rewrite (descends_wrapTree _ _ _) fun tree member =>
      wellFormed tree ((List.dropWhile_sublist _).mem member)] at found
  cases binding with
  | some first =>
      rw [if_neg (by simp), List.filterMap_nil, List.append_nil, ← List.filterMap_append, split,
        ← known, Option.map_some] at found
      obtain ⟨second, isSecond, sameNames⟩ := Option.map_eq_some_iff.mp found
      rw [isSecond]
      refine ⟨rfl, localNames_congr ?_⟩
      exact congrArg Declared.defaultLocal sameNames
  | none =>
      rw [← split, List.filterMap_append, List.find?_append, Option.map_none, eq_comm,
        Option.or_eq_none_iff] at known
      have imports : Declared.imports ⟨instrumentation.modulePath.importSpecifier directory,
          some instrumentation.entryName, 1⟩ directory instrumentation.modulePath = true := by
        rw [Declared.imports, resolves, Option.isSome_some, Bool.true_and, decide_eq_true_eq]
      rw [if_pos (by rfl), List.filterMap_cons_some (declared?_declarationOf _ _), List.filterMap_nil,
        List.append_assoc, List.find?_append, known.1, Option.none_or, List.singleton_append,
        List.find?_cons] at found
      simp only [imports] at found
      obtain ⟨second, isSecond, sameNames⟩ := Option.map_eq_some_iff.mp found
      rw [isSecond]
      refine ⟨rfl, ?_⟩
      have isEntry : second.defaultLocal = some instrumentation.entryName :=
        congrArg Declared.defaultLocal sameNames
      simp [Instrumentation.localNames, isEntry]

end ImportMeter.Instrument
