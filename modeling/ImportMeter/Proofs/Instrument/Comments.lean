/-
This file follows the comments of a script through injection. A marked call takes along what stands between
the parentheses of an import, so the comments there stay; what stands between `import` and the parentheses
is left behind.
-/
import ImportMeter.Proofs.Instrument.SecondPass

namespace ImportMeter

namespace Script

/-- True for comments, also those in the way of markup. -/
def Kind.isComment (kind : Kind) : Bool := kind = .comment || kind = .htmlComment

theorem Kind.isToken_of_isComment {kind : Kind} (isComment : kind.isComment = true) :
    kind.isToken = true := by
  cases kind <;> first | rfl | exact absurd isComment (by decide)

namespace Tree

/-- The texts of the comments of a tree, in order. -/
def comments : Tree → List Text
  | .leaf _ kind letters => if kind.isComment then [letters] else []
  | .node _ _ children => among children
where
  among : List Tree → List Text
    | [] => []
    | tree :: rest => comments tree ++ among rest

/-- The texts of the comments of neighbouring trees, in order. -/
def commentsOfAll (trees : List Tree) : List Text := comments.among trees

@[simp] theorem commentsOfAll_nil : commentsOfAll [] = [] := rfl

@[simp] theorem commentsOfAll_cons (tree : Tree) (rest : List Tree) :
    commentsOfAll (tree :: rest) = tree.comments ++ commentsOfAll rest := rfl

@[simp] theorem commentsOfAll_append (first second : List Tree) :
    commentsOfAll (first ++ second) = commentsOfAll first ++ commentsOfAll second := by
  induction first with
  | nil => rfl
  | cons tree rest inductionHypothesis =>
      simp only [List.cons_append, commentsOfAll_cons, inductionHypothesis, List.append_assoc]

@[simp] theorem comments_node (role : Option Role) (kind : Kind) (children : List Tree) :
    (Tree.node role kind children).comments = commentsOfAll children := rfl

theorem comments_leaf_of_other {role : Option Role} {kind : Kind} {letters : Text}
    (other : kind.isComment = false) : (Tree.leaf role kind letters).comments = [] := by
  rw [comments, other]
  rfl

def isWhiteSpace : Tree → Bool
  | .leaf _ .blank _ => true
  | _ => false

/-- Trees without the white space among them. -/
def withoutBlanks (trees : List Tree) : List Tree := trees.filter fun tree => !tree.isWhiteSpace

theorem withoutBlanks_append (first second : List Tree) :
    withoutBlanks (first ++ second) = withoutBlanks first ++ withoutBlanks second :=
  List.filter_append first second

theorem comments_of_isWhiteSpace {tree : Tree} (blank : tree.isWhiteSpace = true) :
    tree.comments = [] := by
  rw [isWhiteSpace.eq_def] at blank
  split at blank
  · rfl
  · cases blank

/-- White space holds no comments. -/
theorem commentsOfAll_withoutBlanks (trees : List Tree) :
    commentsOfAll (withoutBlanks trees) = commentsOfAll trees := by
  induction trees with
  | nil => rfl
  | cons tree rest inductionHypothesis =>
      rw [withoutBlanks] at inductionHypothesis
      cases blank : tree.isWhiteSpace with
      | true =>
          rw [withoutBlanks, List.filter_cons_of_neg (by simp [blank]), inductionHypothesis,
            commentsOfAll_cons, comments_of_isWhiteSpace blank, List.nil_append]
      | false =>
          rw [withoutBlanks, List.filter_cons_of_pos (by simp [blank]), commentsOfAll_cons,
            commentsOfAll_cons, inductionHypothesis]

end Tree

end Script

namespace Instrument

open Script

section

variable (guards : List Text)

/-- The comments that stay: those that do not stand between `import` and the parentheses of an import that
is rewritten. -/
def keptComments : Standing → Tree → List Text
  | _, .leaf role kind letters => (Tree.leaf role kind letters).comments
  | standing, .node role kind children =>
    among (isRewritten standing (.node role kind children))
      (Standing.below guards (.node role kind children) standing) children
where
  among (rewritten : Bool) (standing : Standing) : List Tree → List Text
    | [] => []
    | tree :: rest =>
      (if rewritten && tree.kind.isComment then [] else keptComments standing tree) ++
        among rewritten standing rest

/-- The comments that go with a tree: those between `import` and the parentheses if it is rewritten. -/
def lostAt (standing : Standing) (tree : Tree) (_start : Nat) : List Tree :=
  if isRewritten standing tree then tree.children.filter (·.kind.isComment) else []

end

variable {source : Text} {guards : List Text} {localName marker : Text}

theorem keptCommentsAmong_append (rewritten : Bool) (standing : Standing) (first second : List Tree) :
    keptComments.among guards rewritten standing (first ++ second) =
      keptComments.among guards rewritten standing first ++
        keptComments.among guards rewritten standing second := by
  induction first with
  | nil => rfl
  | cons tree first inductionHypothesis =>
      rw [List.cons_append, keptComments.among, keptComments.among, inductionHypothesis,
        List.append_assoc]

theorem keptCommentsAmong_eq_nil {standing : Standing} {trees : List Tree}
    (each : ∀ tree ∈ trees,
      tree.kind.isComment = true ∨ keptComments guards standing tree = []) :
    keptComments.among guards true standing trees = [] := by
  induction trees with
  | nil => rfl
  | cons tree rest inductionHypothesis =>
      rw [keptComments.among, inductionHypothesis fun other member =>
        each other (List.mem_cons_of_mem tree member), List.append_nil, Bool.true_and]
      cases each tree List.mem_cons_self with
      | inl isComment => rw [if_pos isComment]
      | inr nothing => rw [nothing, ite_self]

/-- Where a node is no import that is rewritten, the comments stay that stay in its children. -/
theorem keptCommentsAmong_eq_of {standing : Standing} {trees : List Tree} (rewrite : Tree → Tree)
    (each : ∀ tree ∈ trees, keptComments guards standing tree = (rewrite tree).comments) :
    keptComments.among guards false standing trees = Tree.commentsOfAll (trees.map rewrite) := by
  induction trees with
  | nil => rfl
  | cons tree rest inductionHypothesis =>
      rw [keptComments.among, Bool.false_and, if_neg Bool.false_ne_true,
        each tree List.mem_cons_self, inductionHypothesis fun other member =>
          each other (List.mem_cons_of_mem tree member), List.map_cons, Tree.commentsOfAll_cons]

theorem WithoutImports.keptComments {tree : Tree} (without : WithoutImports tree)
    (standing : Standing) : keptComments guards standing tree = tree.comments := by
  induction without generalizing standing with
  | leaf => rfl
  | @node role kind children other inside insideHypothesis =>
      rw [Instrument.keptComments, isRewritten, other, Bool.false_and,
        keptCommentsAmong_eq_of id fun child member => insideHypothesis child member _,
        List.map_id, Tree.comments_node]

theorem comments_writtenTrees (marker : Text) : Tree.commentsOfAll (writtenTrees marker) = [] := by
  rw [writtenTrees, quoted]
  split <;> rfl

namespace PlainImport

variable (plain : PlainImport)

/-- A marked call has the comments between the parentheses of the import. -/
theorem comments_callOf (localName marker : Text) :
    (callOf localName marker plain.tree).comments =
      Tree.commentsOfAll (plain.front ++ plain.path :: plain.behind) := by
  have name : (Script.Tree.leaf (some .callee) .identifier localName).comments = [] :=
    Tree.comments_leaf_of_other rfl
  have mark : ∀ letters, (Script.Tree.leaf none .mark letters).comments = [] := fun _ =>
    Tree.comments_leaf_of_other rfl
  rw [callOf_tree]
  simp only [Tree.comments_node, Tree.commentsOfAll_cons, Tree.commentsOfAll_append, name, mark,
    comments_writtenTrees, Tree.commentsOfAll_nil, List.cons_append, List.append_nil,
    List.nil_append, List.append_assoc]

/-- Nothing else stays of the comments of the import. -/
theorem keptComments_tree {standing : Standing} (rewritten : isRewritten standing plain.tree = true)
    (wellFormed : plain.tree.WellFormed) :
    keptComments guards standing plain.tree =
      Tree.commentsOfAll (plain.front ++ plain.path :: plain.behind) := by
  have keyword : (Script.Tree.leaf (some .callee) .importWord Word.importWord).comments = [] :=
    Tree.comments_leaf_of_other rfl
  have mark : ∀ letters, (Script.Tree.leaf none .mark letters).comments = [] := fun _ =>
    Tree.comments_leaf_of_other rfl
  have middle : ∀ standing, keptComments.among guards true standing plain.middle = [] := by
    intro standing
    apply keptCommentsAmong_eq_nil
    intro tree member
    obtain ⟨kind, letters, rfl, _⟩ := plain.between tree member
    cases isComment : kind.isComment with
    | true => exact .inl isComment
    | false => exact .inr (Tree.comments_leaf_of_other isComment :
        (Tree.leaf none kind letters).comments = [])
  have inList : plain.list.comments =
      Tree.commentsOfAll (plain.front ++ plain.path :: plain.behind) := by
    simp only [list, Tree.comments_node, Tree.commentsOfAll_cons, Tree.commentsOfAll_append, mark,
      Tree.commentsOfAll_nil, List.cons_append, List.append_nil, List.nil_append]
  have withoutImports : WithoutImports plain.list :=
    (plain.children_withoutImports wellFormed).2 plain.list (by simp [tree, Tree.children])
  have listKind : plain.list.kind.isComment = false := rfl
  rw [tree] at rewritten
  rw [tree, keptComments, rewritten, List.cons_append, keptComments.among, keptCommentsAmong_append,
    middle, keptComments.among, keptComments.among, listKind, withoutImports.keptComments, inList,
    keptComments, keyword]
  simp

end PlainImport

/-- A wrapped tree has the comments that stay. -/
theorem comments_wrapTree {standing : Standing} {tree : Tree} (wellFormed : tree.WellFormed) :
    (wrapTree guards localName marker standing tree).comments = keptComments guards standing tree := by
  induction tree using Tree.childInduction generalizing standing with
  | leaf => rfl
  | node role kind children childHypothesis =>
      cases rewritten : isRewritten standing (.node role kind children) with
      | true =>
          obtain ⟨plain, same, _⟩ := exists_plainImport rewritten wellFormed
          rw [wrapTree_rewritten rewritten]
          rw [← same] at rewritten wellFormed ⊢
          rw [plain.comments_callOf, plain.keptComments_tree rewritten wellFormed]
      | false =>
          rw [wrapTree_other rewritten, keptComments, rewritten, Tree.comments_node,
            keptCommentsAmong_eq_of _ fun child member =>
              (childHypothesis child member (wellFormed.children child member)).symm]

/-- The comments that stay do so in their order. -/
theorem keptComments_sublist (guards : List Text) (standing : Standing) (tree : Tree) :
    List.Sublist (keptComments guards standing tree) tree.comments := by
  induction tree using Tree.childInduction generalizing standing with
  | leaf => exact .refl _
  | node role kind children childHypothesis =>
      have among : ∀ (rewritten : Bool) (standing : Standing) (trees : List Tree),
          (∀ tree ∈ trees, tree ∈ children) →
          List.Sublist (keptComments.among guards rewritten standing trees)
            (Tree.commentsOfAll trees) := by
        intro rewritten standing trees
        induction trees with
        | nil => intro _; exact .refl _
        | cons tree rest restHypothesis =>
            intro inside
            rw [keptComments.among, Tree.commentsOfAll_cons]
            apply List.Sublist.append
            · split
              · exact List.nil_sublist _
              · exact childHypothesis tree (inside tree List.mem_cons_self) standing
            · exact restHypothesis fun other member => inside other (List.mem_cons_of_mem tree member)
      exact among _ _ children fun _ member => member

/-- As many comments are lost as stand between `import` and the parentheses of rewritten imports. -/
theorem length_comments {tree : Tree} (wellFormed : tree.WellFormed) (standing : Standing)
    (start : Nat) :
    tree.comments.length = (keptComments guards standing tree).length +
      (Standing.gather guards lostAt standing tree start).length := by
  induction tree using Tree.childInduction generalizing standing start with
  | leaf role kind letters =>
      rw [Standing.gather, lostAt, Tree.children, List.filter_nil, ite_self]
      rfl
  | node role kind children childHypothesis =>
      have among : ∀ (rewritten : Bool) (standing : Standing) (trees : List Tree) (start : Nat),
          (∀ tree ∈ trees, tree ∈ children) →
          (Tree.commentsOfAll trees).length =
            (keptComments.among guards rewritten standing trees).length +
              ((if rewritten then trees.filter (·.kind.isComment) else []).length +
                (Standing.gather.among guards lostAt standing trees start).length) := by
        intro rewritten standing trees
        induction trees with
        | nil => intro _ _; cases rewritten <;> rfl
        | cons tree rest restHypothesis =>
            intro start inside
            have member := inside tree List.mem_cons_self
            have treeWellFormed := wellFormed.children tree member
            have own := childHypothesis tree member treeWellFormed standing start
            have others := restHypothesis (start + tree.width) fun other member =>
              inside other (List.mem_cons_of_mem tree member)
            rw [keptComments.among, Tree.commentsOfAll_cons, Standing.gather.among,
              List.length_append, List.length_append, List.length_append]
            cases isComment : tree.kind.isComment with
            | false =>
                have front : (tree :: rest).filter (·.kind.isComment) = rest.filter (·.kind.isComment) :=
                  List.filter_cons_of_neg (by rw [isComment]; exact Bool.false_ne_true)
                rw [Bool.and_false, if_neg Bool.false_ne_true, front]
                omega
            | true =>
                have front : (tree :: rest).filter (·.kind.isComment) =
                    tree :: rest.filter (·.kind.isComment) := List.filter_cons_of_pos isComment
                have one : (keptComments guards standing tree).length = 1 := by
                  rw [treeWellFormed.eq_leaf (Kind.isToken_of_isComment isComment), keptComments,
                    Tree.comments, isComment]
                  rfl
                rw [Bool.and_true, front]
                cases rewritten with
                | false =>
                    simp only [Bool.false_eq_true, if_false, List.length_nil] at others ⊢
                    omega
                | true =>
                    simp only [if_true, List.length_nil, List.length_cons] at others ⊢
                    have leaf : tree.comments.length = 1 := by
                      rw [treeWellFormed.eq_leaf (Kind.isToken_of_isComment isComment), Tree.comments,
                        isComment]
                      rfl
                    omega
      rw [Tree.comments_node, keptComments, Standing.gather, List.length_append]
      exact among _ _ children start fun _ member => member

theorem isSome_edit? (decision : Decision) :
    decision.edit?.isSome = Decidable.decide (decision.fate = .rewritten) := by
  cases decision <;> rfl

/-- No comment is lost if none stands between `import` and the parentheses of an import that the code
rewrites. -/
theorem keptComments_eq_iff (source localName marker : Text) (guards : List Text) {tree : Tree}
    (wellFormed : tree.WellFormed) :
    keptComments guards .plain tree = tree.comments ↔
      ∀ dynamicImport ∈ dynamicImports tree,
        (decide source localName marker guards dynamicImport).edit?.isSome = true →
          ∀ child ∈ dynamicImport.call.focus.children, child.kind.isComment = false := by
  have walked := Standing.flatMap_parentsFirst guards lostAt tree [] 0
  have counted : tree.comments.length = (keptComments guards .plain tree).length +
      (Standing.gather guards lostAt .plain tree 0).length := length_comments wellFormed .plain 0
  rw [show Standing.ofFrames guards tree [] = .plain from rfl] at walked
  rw [← walked] at counted
  have lost : ∀ place : Place,
      lostAt (Standing.ofFrames guards place.focus place.above) place.focus place.start = [] ↔
        ∀ dynamicImport ∈ DynamicImport.ofPlace? place,
          (decide source localName marker guards dynamicImport).edit?.isSome = true →
            ∀ child ∈ dynamicImport.call.focus.children, child.kind.isComment = false := by
    intro place
    have isImport := isSome_dynamicImport place
    rw [lostAt, isRewritten]
    cases found : DynamicImport.ofPlace? place with
    | none =>
        rw [found, Option.isSome_none] at isImport
        rw [← isImport, Bool.false_and, if_neg Bool.false_ne_true]
        refine ⟨?_, fun _ => rfl⟩
        intro _ dynamicImport isNone
        exact absurd isNone (Option.not_mem_none _)
    | some dynamicImport =>
        rw [found, Option.isSome_some] at isImport
        have isCall : dynamicImport.call = place := by rw [(dynamicImport_eq_some found).1]
        have fate := fate_decide source localName marker guards found
        rw [← isImport, Bool.true_and, ← fate, ← isSome_edit?, ← isCall]
        simp only [Option.mem_def, Option.some.injEq, forall_eq', ite_eq_right_iff,
          List.filter_eq_nil_iff, Bool.not_eq_true]
  have nothing : (Place.parentsFirst tree [] 0).flatMap (fun place =>
        lostAt (Standing.ofFrames guards place.focus place.above) place.focus place.start) = [] ↔
      ∀ dynamicImport ∈ dynamicImports tree,
        (decide source localName marker guards dynamicImport).edit?.isSome = true →
          ∀ child ∈ dynamicImport.call.focus.children, child.kind.isComment = false := by
    rw [List.flatMap_eq_nil_iff, dynamicImports, Place.preorder_eq]
    simp only [lost, List.mem_filterMap, Option.mem_def]
    constructor
    · rintro each dynamicImport ⟨place, member, found⟩
      exact each place member dynamicImport found
    · intro each place member dynamicImport found
      exact each dynamicImport ⟨place, member, found⟩
  rw [← nothing, ← List.length_eq_zero_iff]
  constructor
  · intro same
    rw [same] at counted
    omega
  · intro none
    apply (keptComments_sublist guards .plain tree).eq_of_length
    omega

theorem comments_declarationOf (entryName specifier : Text) :
    (declarationOf entryName specifier).comments = [] := by
  rw [declarationOf, quoted]
  split <;> rfl

/-- The comments of an injected script are those that stay. -/
theorem commentsOfAll_injected (instrumentation : Instrumentation) (directory : Path)
    (binding : Option ImportBinding) {statements : List Tree}
    (wellFormed : (Script.Tree.node none .program statements).WellFormed) :
    Tree.commentsOfAll (injected instrumentation directory binding statements) =
      keptComments (instrumentation.localNames binding).2 .plain (.node none .program statements) := by
  generalize names : instrumentation.localNames binding = localNames
  have plain : Standing.below localNames.2 (.node none .program statements) .plain = .plain :=
    Standing.below_other (by simp [Tree.kind]) (.inr (by decide)) (.inr (by decide))
  have split := List.takeWhile_append_dropWhile (p := isLeading) (l := statements)
  have whole : keptComments localNames.2 .plain (.node none .program statements) =
      Tree.commentsOfAll (statements.map
        (wrapTree localNames.2 localNames.1 instrumentation.marker .plain)) := by
    rw [keptComments, isRewritten_eq_false (by simp [Tree.kind]), plain]
    exact keptCommentsAmong_eq_of _ fun tree member =>
      (comments_wrapTree (wellFormed.children tree member)).symm
  have declaration : Tree.commentsOfAll (if binding.isNone then
      [declarationOf instrumentation.entryName
        (instrumentation.modulePath.importSpecifier directory)] else []) = [] := by
    split
    · rw [Tree.commentsOfAll_cons, comments_declarationOf]
      rfl
    · rfl
  have leading : (statements.takeWhile isLeading).map
      (wrapTree localNames.2 localNames.1 instrumentation.marker .plain) =
        statements.takeWhile isLeading := map_wrapTree_leading wellFormed.children
  rw [whole, injected, names, Tree.commentsOfAll_append, Tree.commentsOfAll_append, declaration,
    List.append_nil, ← leading, ← Tree.commentsOfAll_append, ← List.map_append, split]

/-- The text of an injected script, as trees. -/
theorem exists_injected_text {statements : List Tree} (directory : Path)
    (instrumentation : Instrumentation)
    (wellFormed : (Script.Tree.node none .program statements).WellFormed)
    (same : (Script.Tree.node none .program statements).text = source)
    {binding : Option ImportBinding}
    (bound : findBinding? (.node none .program statements) directory instrumentation.modulePath =
      binding) {outcome : Outcome}
    (isOutcome : injectTree source (.node none .program statements) directory instrumentation =
      outcome) :
    ∃ trees, outcome.textOr source = Tree.textOfAll trees ∧
      Tree.withoutBlanks trees =
        Tree.withoutBlanks (injected instrumentation directory binding statements) := by
  obtain ⟨text, added, _⟩ :=
    injectTree_spec directory instrumentation wellFormed same bound rfl isOutcome
  have isDeclaration : (declarationOf instrumentation.entryName
      (instrumentation.modulePath.importSpecifier directory)).text ++ ['\n'] =
      importDeclaration instrumentation directory := text_declarationOf _ _
  rw [← isDeclaration] at text
  rw [injected]
  generalize declarationOf instrumentation.entryName
    (instrumentation.modulePath.importSpecifier directory) = declaration at text ⊢
  obtain ⟨front, line, blank⟩ : ∃ front, addedLine source statements (declaration.text ++ ['\n']) =
      Tree.textOfAll (front ++ [declaration, .leaf none .blank ['\n']]) ∧
      Tree.withoutBlanks front = [] := by
    rw [addedLine]
    split
    · exact ⟨[.leaf none .blank ['\n']], rfl, rfl⟩
    · exact ⟨[], rfl, rfl⟩
  refine ⟨statements.takeWhile isLeading ++
    (if binding.isNone then front ++ [declaration, .leaf none .blank ['\n']] else []) ++
    (statements.dropWhile isLeading).map (wrapTree (instrumentation.localNames binding).2
      (instrumentation.localNames binding).1 instrumentation.marker .plain), ?_, ?_⟩
  · rw [text, added, line]
    split <;> simp only [Tree.textOfAll_append, Tree.textOfAll_nil]
  · simp only [Tree.withoutBlanks_append]
    split
    · rw [Tree.withoutBlanks_append, blank]
      rfl
    · rfl

/-- Injection keeps the comments of a script, in order, but for those between `import` and the parentheses of
the imports that it rewrites. -/
theorem inject_comments (workingDirectory file : Path) (instrumentation : Instrumentation)
    {tree : Tree} (parsed : parse? source = some tree) :
    let directory := directoryOf workingDirectory file
    let binding := findBinding? tree directory instrumentation.modulePath
    let names := instrumentation.localNames binding
    let kept := keptComments names.2 .plain tree
    let written := injected instrumentation directory binding tree.children
    List.Sublist kept tree.comments ∧
      (kept = tree.comments ↔ ∀ dynamicImport ∈ dynamicImports tree,
        (decide source names.1 instrumentation.marker names.2 dynamicImport).edit?.isSome = true →
          ∀ child ∈ dynamicImport.call.focus.children, child.kind.isComment = false) ∧
      ∃ outcome, inject? workingDirectory source file instrumentation = some outcome ∧
        (∃ trees, outcome.textOr source = Tree.textOfAll trees ∧
          Tree.withoutBlanks trees = Tree.withoutBlanks written ∧ Tree.commentsOfAll trees = kept) ∧
        ∀ again, parse? (outcome.textOr source) = some again →
          Tree.withoutBlanks again.children = Tree.withoutBlanks written → again.comments = kept := by
  intro directory binding names kept written
  obtain ⟨same, wellFormed, statements, rfl⟩ := parse?_sound parsed
  have comments : ∀ trees, Tree.withoutBlanks trees = Tree.withoutBlanks written →
      Tree.commentsOfAll trees = kept := by
    intro trees sameTrees
    rw [← Tree.commentsOfAll_withoutBlanks, sameTrees, Tree.commentsOfAll_withoutBlanks]
    exact commentsOfAll_injected instrumentation directory binding wellFormed
  refine ⟨keptComments_sublist names.2 .plain _,
    keptComments_eq_iff source names.1 instrumentation.marker names.2 wellFormed,
    injectTree source (.node none .program statements) directory instrumentation, ?_, ?_, ?_⟩
  · rw [inject?, injectBy?, parsed, Option.map_some]
  · obtain ⟨trees, text, sameTrees⟩ :=
      exists_injected_text directory instrumentation wellFormed same rfl rfl
    exact ⟨trees, text, sameTrees, comments trees sameTrees⟩
  · intro again reads sameTrees
    obtain ⟨_, _, againStatements, rfl⟩ := parse?_sound reads
    exact comments againStatements sameTrees

/-- An import with comments around its path, between comments. -/
def innerComments : Text := "/*a*/import(/*b*/'x'/*c*/)//d".toList

theorem inject_comments_innerComments :
    ∃ outcome again, inject? ⟨['/']⟩ innerComments ⟨"/f".toList⟩ smallEntry = some outcome ∧
      outcome.rewritten = 1 ∧ parse? (outcome.textOr innerComments) = some again ∧
      again.comments = ["/*a*/".toList, "/*b*/".toList, "/*c*/".toList, "//d".toList] := by
  have reads : (parse? innerComments).any (fun tree =>
      let directory := directoryOf ⟨['/']⟩ ⟨"/f".toList⟩
      let binding := findBinding? tree directory smallEntry.modulePath
      let outcome := injectTree innerComments tree directory smallEntry
      Decidable.decide (outcome.rewritten = 1) &&
        Decidable.decide (keptComments (smallEntry.localNames binding).2 .plain tree =
          ["/*a*/".toList, "/*b*/".toList, "/*c*/".toList, "//d".toList]) &&
        (parse? (outcome.textOr innerComments)).any fun again =>
          Decidable.decide (Tree.withoutBlanks again.children =
            Tree.withoutBlanks (injected smallEntry directory binding tree.children))) = true := by
    decide +kernel
  obtain ⟨tree, parsed, checked⟩ := (Option.any_eq_true _ _).mp reads
  rw [Bool.and_eq_true, Bool.and_eq_true, decide_eq_true_eq, decide_eq_true_eq] at checked
  obtain ⟨again, readsAgain, same⟩ := (Option.any_eq_true _ _).mp checked.2
  obtain ⟨_, _, outcome, isOutcome, _, comments⟩ :=
    inject_comments ⟨['/']⟩ ⟨"/f".toList⟩ smallEntry parsed
  have injected := isOutcome
  rw [inject?, injectBy?, parsed, Option.map_some] at isOutcome
  cases isOutcome
  have kept := comments again readsAgain (of_decide_eq_true same)
  exact ⟨_, again, injected, checked.1.1, readsAgain, kept.trans checked.1.2⟩

/-- An import with a comment between `import` and the parentheses. -/
def commentedImport : Text := "import/*c*/('a')".toList

/-- The comment is lost. Where the rest of a script is read in another way after injection, a marker may even
become a comment. -/
theorem inject_comments_commentedImport :
    (parse? commentedImport).map Tree.comments = some ["/*c*/".toList] ∧
      (∃ left, inject? ⟨['/']⟩ commentedImport ⟨"/f".toList⟩ smallEntry =
          some ⟨some left, 1, true, false, [], none⟩ ∧
        (parse? left).map Tree.comments = some []) ∧
      (parse? blockOrObject).map Tree.comments = some [] ∧
      ∃ left, inject? ⟨['/']⟩ blockOrObject ⟨"/f".toList⟩
          ⟨⟨"/p".toList⟩, "p".toList, "//".toList⟩ = some ⟨some left, 1, true, false, [], none⟩ ∧
        (parse? left).map Tree.comments = some ["//');".toList] := by
  refine ⟨by decide +kernel, ⟨"import p from './p';\np('a', import.meta.url, null, 'm')".toList, ?_, ?_⟩,
    by decide +kernel, ("import p from './p';\nx=>\x7bf:\x7b\x7d/+'/;" ++
      "p('+a+', import.meta.url, null, '//');\n/import(\"b\")/g\x7d").toList, ?_, ?_⟩
  · decide +kernel
  · decide +kernel
  · decide +kernel
  · decide +kernel

end Instrument

end ImportMeter
