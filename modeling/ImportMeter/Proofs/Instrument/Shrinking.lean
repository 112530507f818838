/-
This file proves that removal makes a script shorter: the import that is left of a marked call takes fewer
bytes than the call.
-/
import ImportMeter.Proofs.Instrument.Statements
import ImportMeter.Proofs.Script.Separation

namespace ImportMeter.Instrument

open Script

variable {callees : List Text} {marker : Text}

/-- The number of bytes that a tree is written with. -/
def bytes (tree : Tree) : Nat := Text.utf8Length tree.text

def bytesOfAll (trees : List Tree) : Nat := Text.utf8Length (Tree.textOfAll trees)

@[simp] theorem bytesOfAll_nil : bytesOfAll [] = 0 := rfl

@[simp] theorem bytesOfAll_cons (tree : Tree) (trees : List Tree) :
    bytesOfAll (tree :: trees) = bytes tree + bytesOfAll trees := by
  rw [bytesOfAll, Tree.textOfAll_cons, Text.utf8Length_append]
  rfl

@[simp] theorem bytesOfAll_append (first second : List Tree) :
    bytesOfAll (first ++ second) = bytesOfAll first + bytesOfAll second := by
  rw [bytesOfAll, Tree.textOfAll_append, Text.utf8Length_append]
  rfl

theorem bytes_node (role : Option Role) (kind : Kind) (children : List Tree) :
    bytes (.node role kind children) = bytesOfAll children := rfl

theorem length_le_bytes (tree : Tree) : tree.text.length ≤ bytes tree :=
  Text.length_le_utf8Length tree.text

theorem bytes_pos {tree : Tree} (builtBy : Rule.BuiltBy grammar IsBuilder tree) : 0 < bytes tree :=
  Nat.lt_of_lt_of_le (List.length_pos_iff.mpr (text_ne_nil builtBy)) (length_le_bytes tree)

theorem bytesOfAll_le_of_suffix {some whole : List Tree} (isSuffix : some <:+ whole) :
    bytesOfAll some ≤ bytesOfAll whole := by
  obtain ⟨front, rfl⟩ := isSuffix
  rw [bytesOfAll_append]
  exact Nat.le_add_left _ _

section

variable {rewrite : Tree → Tree} {trees : List Tree}

theorem bytesOfAll_map_le (each : ∀ tree ∈ trees, bytes (rewrite tree) ≤ bytes tree) :
    bytesOfAll (trees.map rewrite) ≤ bytesOfAll trees := by
  induction trees with
  | nil => exact Nat.le_refl 0
  | cons tree trees inductionHypothesis =>
      obtain ⟨own, others⟩ := List.forall_mem_cons.mp each
      have behind := inductionHypothesis others
      rw [List.map_cons, bytesOfAll_cons, bytesOfAll_cons]
      omega

/-- Trees become shorter if none becomes longer and one becomes shorter. -/
theorem bytesOfAll_map_lt (each : ∀ tree ∈ trees, bytes (rewrite tree) ≤ bytes tree) {tree : Tree}
    (member : tree ∈ trees) (shorter : bytes (rewrite tree) < bytes tree) :
    bytesOfAll (trees.map rewrite) < bytesOfAll trees := by
  obtain ⟨front, behind, rfl⟩ := List.append_of_mem member
  obtain ⟨inFront, others⟩ := List.forall_mem_append.mp each
  have front := bytesOfAll_map_le inFront
  have behind := bytesOfAll_map_le (List.forall_mem_cons.mp others).2
  rw [List.map_append, List.map_cons, bytesOfAll_append, bytesOfAll_append, bytesOfAll_cons, bytesOfAll_cons]
  omega

end

/-- What stands behind the last argument stands behind each of them. -/
theorem trailTrees_suffix {front after : List Tree} {tree : Tree} (isArgument : tree.isArgument = true) :
    trailTrees (front ++ tree :: after) <:+ after := by
  have stops : (after.reverse ++ tree :: front.reverse).takeWhile (fun other => !other.isArgument) =
      after.reverse.takeWhile fun other => !other.isArgument := by
    induction after.reverse with
    | nil => exact List.takeWhile_cons_of_neg (by rw [isArgument]; exact Bool.false_ne_true)
    | cons other others inductionHypothesis =>
        rw [List.cons_append, List.takeWhile_cons, List.takeWhile_cons, inductionHypothesis]
  rw [trailTrees, List.reverse_append, List.reverse_cons, List.append_assoc, List.singleton_append, stops,
    ← List.reverse_prefix, List.reverse_reverse]
  exact List.takeWhile_prefix _

/-- The arguments of a marked call with what stands between them. -/
structure MarkedArguments (marker : Text) where
  front : List Tree
  path : Tree
  behindPath : List Tree
  second : Tree
  middle : List Tree
  third : Tree
  behindThird : List Tree
  tag : Tree
  after : List Tree
  frontPlain : ∀ tree ∈ front, tree.isArgument = false
  isPath : path.isArgument = true
  isSecond : second.isArgument = true
  isThird : third.isArgument = true
  isTag : tag.isArgument = true
  tagged : stringValue? tag = some marker

namespace MarkedArguments

variable (arguments : MarkedArguments marker)

def behindSecond : List Tree :=
  arguments.middle ++ arguments.third :: (arguments.behindThird ++ arguments.tag :: arguments.after)

/-- All that stands between the parentheses. -/
def trees : List Tree :=
  arguments.front ++ arguments.path :: (arguments.behindPath ++ arguments.second :: arguments.behindSecond)

def list : Tree :=
  .node (some .arguments) .arguments
    (.leaf none .mark ['('] :: arguments.trees ++ [.leaf none .mark [')']])

end MarkedArguments

/-- A marked call ends with the arguments that it takes to be one. -/
theorem exists_markedArguments {tree : Tree} (wellFormed : tree.WellFormed)
    (marked : tree.isMarked callees marker = true) :
    ∃ (role : Option Role) (callee : Tree) (between : List Tree) (arguments : MarkedArguments marker),
      tree = .node role .callExpression (callee :: between ++ [arguments.list]) ∧
        tree.argumentList? = some arguments.list := by
  have isCall := Tree.kind_of_isMarked marked
  rw [Tree.isMarked, Bool.and_eq_true] at marked
  have tagged := marked.2
  cases found : tree.argumentList? with
  | none => simp [Tree.givenArguments, found] at tagged
  | some list =>
      obtain ⟨role, callee, between, inner, same, -, -, isList⟩ := Tree.call_shape wellFormed isCall found
      have given : tree.givenArguments = inner.filter Tree.isArgument := by
        rw [Tree.givenArguments, found, isList]
        simp [Tree.children, Tree.isArgument, Tree.kind, Kind.isNamed]
      rw [given] at tagged
      split at tagged
      next path second third tag others inside =>
        obtain ⟨front, rest, rfl, frontPlain, isPath, inside⟩ := List.filter_eq_cons_iff.mp inside
        obtain ⟨behindPath, rest, rfl, -, isSecond, inside⟩ := List.filter_eq_cons_iff.mp inside
        obtain ⟨middle, rest, rfl, -, isThird, inside⟩ := List.filter_eq_cons_iff.mp inside
        obtain ⟨behindThird, after, rfl, -, isTag, -⟩ := List.filter_eq_cons_iff.mp inside
        refine ⟨role, callee, between, ⟨front, path, behindPath, second, middle, third, behindThird, tag,
          after, fun tree member => Bool.eq_false_iff.mpr (frontPlain tree member), isPath, isSecond,
          isThird, isTag, of_decide_eq_true tagged⟩, ?_, ?_⟩
        · rw [same, isList]
          rfl
        · rw [isList]
          rfl
      next => cases tagged

namespace MarkedArguments

variable (arguments : MarkedArguments marker)

theorem bytes_list : bytes arguments.list = 2 + bytesOfAll arguments.front + bytes arguments.path +
    bytesOfAll arguments.behindPath + bytes arguments.second + bytesOfAll arguments.middle +
    bytes arguments.third + bytesOfAll arguments.behindThird + bytes arguments.tag +
    bytesOfAll arguments.after := by
  have opening : bytes (.leaf none .mark ['(']) = 1 := rfl
  have closing : bytes (.leaf none .mark [')']) = 1 := rfl
  simp only [list, trees, behindSecond, bytes_node, bytesOfAll_cons, bytesOfAll_append, bytesOfAll_nil,
    List.cons_append, opening, closing]
  omega

/-- The second and the third argument take three bytes at least: a comma stands between them, or one of them
is a comment in the way of markup. -/
theorem three_le (builtBy : Rule.BuiltBy grammar IsBuilder arguments.list) :
    3 ≤ bytes arguments.second + bytesOfAll arguments.middle + bytes arguments.third := by
  have inside := builtBy.children
  have chain := isChain_children builtBy rfl
  obtain ⟨front, behind, same⟩ : ∃ front behind, arguments.list.children =
      front ++ arguments.second :: (arguments.middle ++ arguments.third :: behind) := by
    refine ⟨.leaf none .mark ['('] :: (arguments.front ++ arguments.path :: arguments.behindPath),
      arguments.behindThird ++ arguments.tag :: arguments.after ++ [.leaf none .mark [')']], ?_⟩
    simp [list, trees, behindSecond, Tree.children]
  rw [same] at inside chain
  have ofSecond := inside arguments.second (by simp)
  have ofThird := inside arguments.third (by simp)
  have second := bytes_pos ofSecond
  have third := bytes_pos ofThird
  cases middle : arguments.middle with
  | cons tree others =>
      have between := bytes_pos (inside tree (by simp [middle]))
      rw [bytesOfAll_cons]
      omega
  | nil =>
      rw [middle, List.nil_append, List.isChain_append] at chain
      have parted := (List.isChain_cons_cons.mp chain.2.1).1
      have markup : ∀ tree, Rule.BuiltBy grammar IsBuilder tree → tree.isArgument = true →
          isItem tree = false → 3 ≤ bytes tree := by
        intro tree isBuilt isArgument noItem
        rw [isItem, isArgument, Bool.true_and, Bool.not_eq_false'] at noItem
        refine Nat.le_trans ((gapShape isBuilt noItem).htmlComment ?_) (length_le_bytes tree)
        revert isArgument noItem
        rw [Tree.isArgument, Tree.isTrivia]
        cases tree.kind <;> simp [Kind.isNamed, Kind.isTrivia]
      rcases parted with isMarkup | isMarkup
      · have long := markup _ ofSecond arguments.isSecond isMarkup
        omega
      · have long := markup _ ofThird arguments.isThird isMarkup
        omega

end MarkedArguments

/-- The import takes fewer bytes than the call whose path it imports. -/
theorem bytes_importOf_lt {role : Option Role} {kind : Kind} {children : List Tree} (filled : marker ≠ [])
    (wellFormed : (Script.Tree.node role kind children).WellFormed)
    (builtBy : Rule.BuiltBy grammar IsBuilder (.node role kind children))
    (marked : (Script.Tree.node role kind children).isMarked callees marker = true)
    (each : ∀ child ∈ children, ∀ tree ∈ child.children,
      bytes (unwrapTree callees marker tree) ≤ bytes tree) :
    bytes (importOf (.node role kind (children.map (unwrapTree callees marker)))) <
      bytesOfAll children := by
  obtain ⟨_, callee, between, arguments, same, found⟩ := exists_markedArguments wellFormed marked
  obtain ⟨_, _, rfl⟩ := Script.Tree.node.inj same
  have isChild : arguments.list ∈ callee :: between ++ [arguments.list] :=
    List.mem_append_right _ (List.mem_singleton_self _)
  have inside : ∀ tree ∈ arguments.trees, bytes (unwrapTree callees marker tree) ≤ bytes tree :=
    fun tree member => each _ isChild tree
      (List.mem_append_left _ (List.mem_cons_of_mem _ member))
  have keeps := keeps_unwrapTree callees marker
  -- What is kept takes no more bytes than before.
  have kept : bytesOfAll (keptTrees (arguments.trees.map (unwrapTree callees marker))) ≤
      bytesOfAll arguments.front + bytes arguments.path := by
    rw [keptTrees_map keeps]
    refine Nat.le_trans (bytesOfAll_map_le fun tree member => inside tree (mem_of_mem_keptTrees member)) ?_
    rw [MarkedArguments.trees, keptTrees_eq arguments.frontPlain arguments.isPath, bytesOfAll_append,
      bytesOfAll_cons]
    exact Nat.le_refl _
  have trail : bytesOfAll (trailTrees (arguments.trees.map (unwrapTree callees marker))) ≤
      bytesOfAll arguments.after := by
    rw [trailTrees_map keeps]
    refine Nat.le_trans (bytesOfAll_map_le fun tree member => inside tree (mem_of_mem_trailTrees member)) ?_
    apply bytesOfAll_le_of_suffix
    have split : arguments.trees = arguments.front ++ arguments.path :: (arguments.behindPath ++
        arguments.second :: (arguments.middle ++ arguments.third :: arguments.behindThird)) ++
          arguments.tag :: arguments.after := by
      simp [MarkedArguments.trees, MarkedArguments.behindSecond]
    rw [split]
    exact trailTrees_suffix arguments.isTag
  have list := builtBy.children _ isChild
  have isTag : arguments.tag ∈ arguments.list.children := by
    simp [MarkedArguments.list, MarkedArguments.trees, MarkedArguments.behindSecond, Tree.children]
  have tag := Nat.le_trans (length_literal (list.children _ isTag) arguments.tagged filled)
    (length_le_bytes arguments.tag)
  have name := bytes_pos (builtBy.children callee List.mem_cons_self)
  have three := arguments.three_le list
  have whole : bytesOfAll (callee :: between ++ [arguments.list]) =
      bytes callee + bytesOfAll between + bytes arguments.list := by
    simp only [List.cons_append, bytesOfAll_cons, bytesOfAll_append, bytesOfAll_nil]
    omega
  have opening : Text.utf8Length "import(".toList = 7 := rfl
  have closing : Text.utf8Length [')'] = 1 := rfl
  rw [whole, arguments.bytes_list, bytes, text_importOf,
    betweenParentheses_map_unwrapTree found]
  simp only [Text.utf8Length_append, opening, closing]
  change 7 + bytesOfAll _ + bytesOfAll _ + 1 < _
  split
  next => omega
  next =>
    rw [bytesOfAll_nil]
    omega

/-- True if unwrapping does not lengthen a tree, and shortens it if there is a marked call in it. -/
def Shrinks (callees : List Text) (marker : Text) (tree : Tree) : Prop :=
  bytes (unwrapTree callees marker tree) ≤ bytes tree ∧
    (tree.markedCount callees marker ≠ 0 → bytes (unwrapTree callees marker tree) < bytes tree)

theorem bytesOfAll_shrinks {trees : List Tree} (each : ∀ tree ∈ trees, Shrinks callees marker tree) :
    bytesOfAll (trees.map (unwrapTree callees marker)) ≤ bytesOfAll trees ∧
      (Tree.markedCount.among callees marker trees ≠ 0 →
        bytesOfAll (trees.map (unwrapTree callees marker)) < bytesOfAll trees) := by
  refine ⟨bytesOfAll_map_le fun tree member => (each tree member).1, fun marked => ?_⟩
  obtain ⟨tree, member, inside⟩ : ∃ tree ∈ trees, tree.markedCount callees marker ≠ 0 := by
    rw [Ne, markedCountAmong_eq_zero_iff] at marked
    simpa using marked
  exact bytesOfAll_map_lt (fun tree member => (each tree member).1) member ((each tree member).2 inside)

theorem shrinks {tree : Tree} (filled : marker ≠ []) (wellFormed : tree.WellFormed)
    (builtBy : Rule.BuiltBy grammar IsBuilder tree) : Shrinks callees marker tree := by
  -- The path of a marked call is a child of a child of the call.
  suffices both : Shrinks callees marker tree ∧ ∀ child ∈ tree.children, Shrinks callees marker child from
    both.1
  induction tree using Tree.childInduction with
  | leaf role kind letters => exact ⟨⟨Nat.le_refl _, fun marked => absurd rfl marked⟩, nofun⟩
  | node role kind children childHypothesis =>
      have each : ∀ child ∈ children, Shrinks callees marker child ∧
          ∀ tree ∈ child.children, Shrinks callees marker tree := fun child member =>
        childHypothesis child member (wellFormed.children child member) (builtBy.children child member)
      refine ⟨?_, fun child member => (each child member).1⟩
      cases marked : (Script.Tree.node role kind children).isMarked callees marker with
      | true =>
          have shorter := bytes_importOf_lt filled wellFormed builtBy marked
            fun child member tree isIn => ((each child member).2 tree isIn).1
          rw [Shrinks, unwrapTree_marked marked, bytes_node role kind children]
          exact ⟨Nat.le_of_lt shorter, fun _ => shorter⟩
      | false =>
          have inside := bytesOfAll_shrinks fun child member => (each child member).1
          rw [Shrinks, unwrapTree_unmarked marked, bytes_node, bytes_node, Tree.markedCount, marked,
            if_neg Bool.false_ne_true, Nat.zero_add]
          exact inside

/-- Removal gives a text where it rewrites a call, and nowhere else. -/
theorem isSome_removeTree (source : Text) (tree : Tree) (directory : Path)
    (instrumentation : Instrumentation) :
    (removeTree source tree directory instrumentation).text.isSome = true ↔
      0 < (removeTree source tree directory instrumentation).rewritten := by
  obtain ⟨nothing, unchanged⟩ | ⟨deletion, text, -⟩ :=
    removeTree_cases source tree directory instrumentation rfl rfl
  · rw [unchanged]
    exact iff_of_false Bool.false_ne_true (Nat.lt_irrefl 0)
  · refine iff_of_true (by rw [text]; rfl) (Nat.pos_of_ne_zero fun none => ?_)
    rw [removeTree_rewritten, ← length_markedCalls, List.length_eq_zero_iff] at none
    simp only [removeTree, none] at text
    cases text

/-- What removal leaves of a script is shorter. -/
theorem remove_shrinks (workingDirectory file : Path) {instrumentation : Instrumentation} {source : Text}
    {tree : Tree} (filled : instrumentation.marker ≠ []) (parsed : parse? source = some tree) :
    ∃ outcome, remove? workingDirectory source file instrumentation = some outcome ∧
      (outcome.text.isSome = true ↔ 0 < outcome.rewritten) ∧
      ∀ text, outcome.text = some text → text.utf8Length < source.utf8Length := by
  obtain ⟨statements, outcome, rfl, removed, -, kept, deleted⟩ :=
    remove_statements workingDirectory file instrumentation parsed
  obtain ⟨same, wellFormed, -⟩ := parse?_sound parsed
  have isOutcome := removed
  rw [remove?, removeBy?, parsed, Option.map_some, Option.some.injEq] at isOutcome
  have isSome := isSome_removeTree source (.node none .program statements)
    (directoryOf workingDirectory file) instrumentation
  have rewritten := removeTree_rewritten source (.node none .program statements)
    (directoryOf workingDirectory file) instrumentation
  rw [isOutcome] at isSome rewritten
  refine ⟨outcome, removed, isSome, fun text isText => ?_⟩
  have counted := isSome.mp (by rw [isText]; rfl)
  have left : outcome.textOr source = text := by
    rw [Outcome.textOr, isText, Option.getD_some]
  have whole : source.utf8Length = bytesOfAll statements := by
    rw [← same]
    rfl
  rw [left] at kept deleted
  rw [rewritten] at counted
  rw [whole]
  generalize (instrumentation.localNames _).2 = callees at *
  have each : ∀ tree ∈ statements, Shrinks callees instrumentation.marker tree := fun tree member =>
    shrinks filled (wellFormed.children tree member) (parse?_builtBy parsed tree member)
  cases isRemoved : outcome.importRemoved with
  | false =>
      have program : (Script.Tree.node none .program statements).isMarked callees
          instrumentation.marker = false :=
        Tree.isMarked_eq_false (by simp [Tree.kind])
      rw [Tree.markedCount, program, if_neg Bool.false_ne_true, Nat.zero_add] at counted
      rw [kept isRemoved]
      exact (bytesOfAll_shrinks each).2 (Nat.ne_of_gt counted)
  | true =>
      obtain ⟨declaration, before, after, first, front, behind, second, rfl, -, -, inFront, isBehind, -,
        same⟩ := deleted isRemoved
      obtain ⟨ofBefore, ofOthers⟩ := List.forall_mem_append.mp each
      have before := (bytesOfAll_shrinks ofBefore).1
      have after := (bytesOfAll_shrinks (List.forall_mem_cons.mp ofOthers).2).1
      have declared := bytes_pos (parse?_builtBy parsed declaration (by simp [Tree.children]))
      rw [bytesOfAll, inFront, Text.utf8Length_append] at before
      rw [bytesOfAll, isBehind, Text.utf8Length_append] at after
      rw [same, Text.utf8Length_append, bytesOfAll_append, bytesOfAll_cons]
      omega

end ImportMeter.Instrument
