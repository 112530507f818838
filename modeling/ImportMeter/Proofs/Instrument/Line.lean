/-
This file proves that the line of an import declaration cuts no marked call, so the line and the calls
may be dealt with one by one.
-/
import ImportMeter.Proofs.Instrument.Unwrap

namespace ImportMeter.Instrument

open Script

variable {callees : List Text} {marker : Text}

section

variable {source : Text}

/-- A marked call begins with the name that it calls and ends with a parenthesis. -/
theorem text_of_marked {tree : Tree} {start : Nat} {marked : MarkedCall}
    (found : MarkedCall.ofPlace? callees marker ⟨tree, [], start⟩ = some marked)
    (wellFormed : tree.WellFormed) :
    ∃ first middle, tree.text = first :: middle ++ [')'] ∧ isBlank first = false := by
  obtain ⟨_, isCall, isList, _⟩ := MarkedCall.ofPlace?_eq_some found
  have isSome := MarkedCall.isSome_ofPlace? callees marker ⟨tree, [], start⟩
  rw [found, Option.isSome_some, eq_comm, Tree.isMarked, Bool.and_eq_true, Bool.and_eq_true] at isSome
  have list := map_focus_argumentList? ⟨tree, [], start⟩
  rw [isList, Option.map_some, eq_comm] at list
  obtain ⟨role, callee, middle, inner, rfl, isCallee, _, listEq⟩ :=
    Tree.call_shape wellFormed isCall list
  obtain ⟨name, called, _⟩ := (Option.any_eq_true _ _).mp isSome.1.2
  have calleeWellFormed := wellFormed.children callee (by simp)
  obtain rfl := Tree.callee_shape calleeWellFormed isCallee called
  obtain ⟨first, rest, rfl, notBlank⟩ := calleeWellFormed.leafShape.name rfl
  refine ⟨first, rest ++ Tree.textOfAll middle ++ '(' :: Tree.textOfAll inner, ?_, notBlank⟩
  rw [listEq]
  simp

/-- Where a pending edit starts there is no blank, and it ends behind a parenthesis. -/
def Marks (source : Text) (edit : Edit) : Prop :=
  (∃ letter, source[edit.range.start]? = some letter ∧ isBlank letter = false) ∧
    source[edit.range.stop - 1]? = some ')' ∧ edit.range.start < edit.range.stop

theorem pending_marks {tree : Tree} {start : Nat} (wellFormed : tree.WellFormed)
    (stands : Text.StandsAt source start tree.text) :
    ∀ edit ∈ pending source callees marker tree start, Marks source edit := by
  induction tree using Tree.childInduction generalizing start with
  | leaf => intro edit member; cases member
  | node role kind children childHypothesis =>
      have among : ∀ (trees : List Tree) (start : Nat), (∀ tree ∈ trees, tree ∈ children) →
          Text.StandsAt source start (Tree.textOfAll trees) →
          ∀ edit ∈ pending.among source callees marker trees start, Marks source edit := by
        intro trees
        induction trees with
        | nil => intro _ _ _ edit member; cases member
        | cons tree rest restHypothesis =>
            intro start inside stands
            have member := inside tree List.mem_cons_self
            rw [Tree.textOfAll_cons] at stands
            have restStands := stands.right
            rw [← Tree.width_eq] at restStands
            exact List.forall_mem_append.mpr
              ⟨childHypothesis tree member (wellFormed.children tree member) stands.left,
                restHypothesis (start + tree.width)
                  (fun other member => inside other (List.mem_cons_of_mem tree member)) restStands⟩
      cases found : MarkedCall.ofPlace? callees marker ⟨.node role kind children, [], start⟩ with
      | none =>
          rw [pending_unmarked found]
          exact among children start (fun _ member => member) stands
      | some marked =>
          obtain ⟨first, middle, same, notBlank⟩ := text_of_marked found wellFormed
          obtain ⟨before, behind, rfl, rfl⟩ := stands
          rw [pending_marked found, range_of_marked found, Tree.width_eq, same]
          intro edit member
          rw [List.mem_singleton.mp member]
          refine ⟨⟨first, ?_, notBlank⟩, ?_, ?_⟩
          · simp
          · simp
          · simp

/-- The characters of a run behind a position pass the test of the run. -/
theorem run_behind (source : Text) (test : Char → Bool) {position index : Nat} {letter : Char}
    (low : position ≤ index)
    (high : index < position + ((source.drop position).takeWhile test).length)
    (found : source[index]? = some letter) : test letter = true := by
  have split : (source.drop position).takeWhile test ++ (source.drop position).dropWhile test =
      source.drop position := List.takeWhile_append_dropWhile
  have found : (source.drop position)[index - position]? = some letter := by
    rw [List.getElem?_drop, Nat.add_sub_cancel' low]
    exact found
  rw [← split, List.getElem?_append_left (by omega)] at found
  exact List.all_eq_true.mp List.all_takeWhile letter (List.mem_of_getElem? found)

/-- So do the characters of a run in front of a position. -/
theorem run_in_front (source : Text) (test : Char → Bool) {position index : Nat} {letter : Char}
    (inside : position ≤ source.length)
    (low : position - ((source.take position).reverse.takeWhile test).length ≤ index)
    (high : index < position) (found : source[index]? = some letter) : test letter = true := by
  have length : (source.take position).length = position := by
    rw [List.length_take]
    omega
  have mirrored : (source.take position).reverse[position - 1 - index]? = some letter := by
    rw [List.getElem?_reverse (by omega), length, List.getElem?_take_of_lt (by omega)]
    rw [show position - 1 - (position - 1 - index) = index by omega]
    exact found
  refine run_behind (source.take position).reverse test (Nat.zero_le _) ?_ mirrored
  rw [List.drop_zero]
  omega

theorem isBlank_of_isSpace {letter : Char} (space : isSpace letter = true) :
    isBlank letter = true := by
  simp only [isSpace, Bool.or_eq_true, decide_eq_true_eq] at space
  rcases space with rfl | rfl
  · decide
  · decide

/-- A line range is a statement with blanks around it. -/
theorem lineRange_spec {statement : Range} (inside : statement.stop ≤ source.length)
    (proper : statement.start ≤ statement.stop) :
    (lineRange source statement).start ≤ statement.start ∧
      statement.stop ≤ (lineRange source statement).stop ∧
      (lineRange source statement).stop ≤ source.length ∧
      (∀ position letter, (lineRange source statement).start ≤ position →
        position < statement.start → source[position]? = some letter → isBlank letter = true) ∧
      (∀ position letter, statement.stop ≤ position →
        position < (lineRange source statement).stop → source[position]? = some letter →
          isBlank letter = true) := by
  have behind : ((source.drop statement.stop).takeWhile
      fun letter => isSpace letter || letter = '\r').length ≤ source.length - statement.stop := by
    rw [← List.length_drop]
    exact (List.takeWhile_sublist _).length_le
  simp only [lineRange]
  refine ⟨?_, ?_, ?_, ?_, ?_⟩
  · split <;> omega
  · split <;> omega
  · split
    next newline =>
      obtain ⟨within, _⟩ := List.getElem?_eq_some_iff.mp newline
      omega
    next => omega
  · intro position letter low high found
    refine isBlank_of_isSpace (run_in_front source isSpace (Nat.le_trans proper inside) ?_ high found)
    split at low <;> omega
  · intro position letter low high found
    by_cases run : position < statement.stop + ((source.drop statement.stop).takeWhile
        fun letter => isSpace letter || letter = '\r').length
    · have passes := run_behind source _ low run found
      rw [Bool.or_eq_true, decide_eq_true_eq] at passes
      rcases passes with space | rfl
      · exact isBlank_of_isSpace space
      · decide
    · split at high
      next newline =>
        obtain rfl : position = _ := Nat.le_antisymm (Nat.le_of_lt_succ high) (Nat.not_lt.mp run)
        rw [newline] at found
        cases found
        decide
      next => exact absurd high run

/-- An edit that starts at no blank starts in front of some blanks or behind them. -/
theorem Marks.start_ge {edit : Edit} {low high : Nat} (marks : Marks source edit)
    (blank : ∀ position letter, low ≤ position → position < high →
      source[position]? = some letter → isBlank letter = true)
    (above : low ≤ edit.range.start) : high ≤ edit.range.start := by
  obtain ⟨⟨letter, found, notBlank⟩, _⟩ := marks
  by_cases within : edit.range.start < high
  · have isBlank := blank _ letter above within found
    rw [notBlank] at isBlank
    cases isBlank
  · exact Nat.not_lt.mp within

/-- An edit that ends behind a parenthesis ends in front of some blanks or behind them. -/
theorem Marks.stop_le {edit : Edit} {low high : Nat} (marks : Marks source edit)
    (blank : ∀ position letter, low ≤ position → position < high →
      source[position]? = some letter → isBlank letter = true)
    (below : edit.range.stop ≤ high) : edit.range.stop ≤ low := by
  obtain ⟨_, found, solid⟩ := marks
  by_cases within : low ≤ edit.range.stop - 1
  · have isBlank := blank _ ')' within (by omega) found
    exact absurd isBlank (by decide)
  · omega

theorem pendingAmong_marks {trees : List Tree} {start : Nat}
    (wellFormed : ∀ tree ∈ trees, tree.WellFormed)
    (stands : Text.StandsAt source start (Tree.textOfAll trees)) :
    ∀ edit ∈ pending.among source callees marker trees start, Marks source edit := by
  induction trees generalizing start with
  | nil => intro edit member; cases member
  | cons tree rest inductionHypothesis =>
      rw [Tree.textOfAll_cons] at stands
      have restStands := stands.right
      rw [← Tree.width_eq] at restStands
      exact List.forall_mem_append.mpr
        ⟨pending_marks (wellFormed tree List.mem_cons_self) stands.left,
          inductionHypothesis (fun other member => wellFormed other (List.mem_cons_of_mem tree member))
            restStands⟩

end

/-- A script around one of its import declarations. -/
structure Around where
  before : List Tree
  declaration : Tree
  after : List Tree
  isImport : declaration.kind = .importStatement
  wellFormed : (Script.Tree.node none .program (before ++ declaration :: after)).WellFormed

namespace Around

variable (around : Around)

def tree : Tree := .node none .program (around.before ++ around.declaration :: around.after)

def text : Text :=
  Tree.textOfAll around.before ++ (around.declaration.text ++ Tree.textOfAll around.after)

/-- Where the declaration stands. -/
def statement : Range :=
  ⟨Tree.widthOfAll around.before, Tree.widthOfAll around.before + around.declaration.width⟩

/-- What goes when the declaration goes. -/
def line : Range := lineRange around.text around.statement

theorem text_tree : around.tree.text = around.text := by
  rw [tree, Tree.text_node, Tree.textOfAll_append, Tree.textOfAll_cons, text]

theorem length_text :
    around.text.length = around.statement.stop + Tree.widthOfAll around.after := by
  simp only [text, statement, List.length_append, Tree.widthOfAll_eq, Tree.width_eq,
    Nat.add_assoc]

theorem before_stands : Text.StandsAt around.text 0 (Tree.textOfAll around.before) :=
  (Text.StandsAt.whole around.text).left

theorem after_stands :
    Text.StandsAt around.text around.statement.stop (Tree.textOfAll around.after) := by
  have last := (Text.StandsAt.whole around.text).right.right
  rwa [Nat.zero_add, ← Tree.widthOfAll_eq, ← Tree.width_eq] at last

theorem stop_le : around.statement.stop ≤ around.text.length := by
  rw [length_text]
  exact Nat.le_add_right _ _

/-- The line is the declaration with blanks around it. -/
theorem line_spec : around.line.start ≤ around.statement.start ∧
    around.statement.stop ≤ around.line.stop ∧ around.line.stop ≤ around.text.length ∧
    (∀ position letter, around.line.start ≤ position → position < around.statement.start →
      around.text[position]? = some letter → isBlank letter = true) ∧
    (∀ position letter, around.statement.stop ≤ position → position < around.line.stop →
      around.text[position]? = some letter → isBlank letter = true) :=
  lineRange_spec around.stop_le (Nat.le_add_right _ _)

/-- The edits in front of the declaration end in front of its line. -/
theorem before_inOrder : Edit.InOrder 0 around.line.start
    (pending.among around.text callees marker around.before 0) := by
  obtain ⟨_, _, _, blank, _⟩ := around.line_spec
  have inOrder := pendingAmong_inOrder around.text callees marker around.before 0
  refine inOrder.lower (fun edit member => ?_) (Nat.zero_le _)
  have marks := pendingAmong_marks
    (fun child member => around.wellFormed.children child (List.mem_append_left _ member))
    around.before_stands edit member
  have bounds := inOrder.bounds edit member
  rw [Nat.zero_add] at bounds
  exact marks.stop_le blank bounds.2.2

/-- The edits behind the declaration start behind its line. -/
theorem after_inOrder : Edit.InOrder around.line.stop around.text.length
    (pending.among around.text callees marker around.after around.statement.stop) := by
  obtain ⟨_, _, within, _, blank⟩ := around.line_spec
  have inOrder := pendingAmong_inOrder around.text callees marker around.after
    around.statement.stop
  rw [← length_text] at inOrder
  refine inOrder.raise (fun edit member => ?_) within
  have marks := pendingAmong_marks
    (fun child member => around.wellFormed.children child (by simp [member]))
    around.after_stands edit member
  exact marks.start_ge blank (inOrder.bounds edit member).1

/-- The edits in the declaration lie within its line. -/
theorem declaration_inOrder : Edit.InOrder (around.line.start + 1) around.line.stop
    (pending around.text callees marker around.declaration around.statement.start) := by
  obtain ⟨low, high, _, _, _⟩ := around.line_spec
  have wellFormed := around.wellFormed.children around.declaration (by simp)
  have isNode := wellFormed.eq_node (by rw [around.isImport]; rfl)
  rw [around.isImport] at isNode
  rw [isNode] at wellFormed
  obtain ⟨rest, children⟩ := wellFormed.nodeShape.importStatement rfl
  rw [children] at isNode
  have unmarked : MarkedCall.ofPlace? callees marker
      ⟨.node around.declaration.role? .importStatement
        (.leaf none .mark Word.importWord :: rest), [], around.statement.start⟩ = none :=
    MarkedCall.ofPlace?_eq_none (by simp [Tree.kind])
  have width : around.statement.stop = around.statement.start + (6 + Tree.widthOfAll rest) := by
    rw [statement, isNode]
    rfl
  rw [isNode, pending_unmarked unmarked, pending.among, pending, List.nil_append, Tree.width_leaf]
  have inOrder := pendingAmong_inOrder around.text callees marker rest
    (around.statement.start + Word.importWord.length)
  refine inOrder.widen ?_ ?_
  · have low : around.line.start ≤ around.statement.start := low
    have six : Word.importWord.length = 6 := rfl
    omega
  · have high : around.statement.stop ≤ around.line.stop := high
    have six : Word.importWord.length = 6 := rfl
    omega

theorem pending_eq : pending around.text callees marker around.tree 0 =
    pending.among around.text callees marker around.before 0 ++
      (pending around.text callees marker around.declaration around.statement.start ++
        pending.among around.text callees marker around.after around.statement.stop) := by
  have unmarked : MarkedCall.ofPlace? callees marker
      ⟨.node none .program (around.before ++ around.declaration :: around.after), [], 0⟩ = none :=
    MarkedCall.ofPlace?_eq_none (by simp [Tree.kind])
  rw [tree, pending_unmarked unmarked, pendingAmong_append, Nat.zero_add, pending.among]
  rfl

/-- With the line of the declaration deleted, what is left are the edited parts in front of the line and
behind it. -/
theorem applyAll_eq : Edit.applyAll around.text
      (pending around.text callees marker around.tree 0 ++ [⟨around.line, []⟩]) =
    Edit.applySorted around.text around.line.start 0
        (pending.among around.text callees marker around.before 0) ++
      Edit.applySorted around.text around.text.length around.line.stop
        (pending.among around.text callees marker around.after around.statement.stop) := by
  have inside : ∀ edit ∈ pending around.text callees marker around.tree 0 ++ [⟨around.line, []⟩],
      (⟨0, around.text.length⟩ : Range).contains edit.range = true := by
    intro edit member
    refine Range.contains_iff.mpr ⟨Nat.zero_le _, ?_⟩
    rcases List.mem_append.mp member with inTree | isDeletion
    · have bounds := (pending_inOrder around.text callees marker around.tree 0).bounds edit inTree
      rw [Tree.width_eq, around.text_tree, Nat.zero_add] at bounds
      exact bounds.2.2
    · rw [List.mem_singleton.mp isDeletion]
      exact around.line_spec.2.2.1
  rw [Edit.applyAll, Edit.splice, List.filter_eq_self.mpr inside, around.pending_eq]
  exact Edit.applySorted_deletion around.before_inOrder around.declaration_inOrder
    (pending_solid (around.wellFormed.children around.declaration (by simp))) around.after_inOrder

/-- The line is not empty. -/
theorem line_solid : around.line.start < around.line.stop :=
  (around.declaration_inOrder : Edit.InOrder (around.line.start + 1) around.line.stop
    (pending around.text [] [] around.declaration around.statement.start)).le

/-- No edit stands across the ends of the line. -/
theorem clean : ∀ edit ∈ pending around.text callees marker around.tree 0,
    (edit.range.stop ≤ around.line.start ∨ around.line.start ≤ edit.range.start) ∧
      (edit.range.stop ≤ around.line.stop ∨ around.line.stop ≤ edit.range.start) := by
  obtain ⟨low, high, _, _, _⟩ := around.line_spec
  have proper : around.statement.start ≤ around.statement.stop := Nat.le_add_right _ _
  intro edit member
  rw [pending_eq] at member
  simp only [List.mem_append] at member
  rcases member with inBefore | inDeclaration | inAfter
  · have bounds := around.before_inOrder.bounds edit inBefore
    omega
  · have bounds := around.declaration_inOrder.bounds edit inDeclaration
    omega
  · have bounds := around.after_inOrder.bounds edit inAfter
    omega

/-- The edits in front of the line are those in front of the declaration. -/
theorem filter_front : (pending around.text callees marker around.tree 0).filter
      (fun edit => (⟨0, around.line.start⟩ : Range).contains edit.range) =
    pending.among around.text callees marker around.before 0 := by
  have extent := around.line_solid
  rw [pending_eq, List.filter_append, List.filter_eq_self.mpr, List.filter_eq_nil_iff.mpr,
    List.append_nil]
  · intro edit member
    simp only [Range.contains_iff]
    rcases List.mem_append.mp member with inDeclaration | inAfter
    · have bounds := around.declaration_inOrder.bounds edit inDeclaration
      omega
    · have bounds := around.after_inOrder.bounds edit inAfter
      omega
  · intro edit member
    exact Range.contains_iff.mpr
      ⟨Nat.zero_le _, (around.before_inOrder.bounds edit member).2.2⟩

/-- The edits behind the line are those behind the declaration. -/
theorem filter_behind : (pending around.text callees marker around.tree 0).filter
      (fun edit => (⟨around.line.stop, around.text.length⟩ : Range).contains edit.range) =
    pending.among around.text callees marker around.after around.statement.stop := by
  have extent := around.line_solid
  rw [pending_eq, ← List.append_assoc, List.filter_append, List.filter_eq_nil_iff.mpr,
    List.nil_append, List.filter_eq_self.mpr]
  · intro edit member
    have bounds := around.after_inOrder.bounds edit member
    exact Range.contains_iff.mpr ⟨bounds.1, bounds.2.2⟩
  · intro edit member
    simp only [Range.contains_iff]
    rcases List.mem_append.mp member with inBefore | inDeclaration
    · have bounds := around.before_inOrder.bounds edit inBefore
      omega
    · have bounds := around.declaration_inOrder.bounds edit inDeclaration
      have notEmpty := pending_solid
        (around.wellFormed.children around.declaration (by simp)) edit inDeclaration
      omega

end Around

/-- The import of the entry point is one of the declarations of the script. -/
theorem exists_around {statements : List Tree} {directory target : Path} {binding : ImportBinding}
    (wellFormed : (Script.Tree.node none .program statements).WellFormed)
    (found : findBinding? (.node none .program statements) directory target = some binding) :
    ∃ around : Around, around.tree = .node none .program statements ∧
      around.statement = binding.statement.range := by
  obtain ⟨place, member, isBinding⟩ := List.mem_filterMap.mp (List.mem_of_find?_eq_some found)
  have child : place ∈ (Place.top (.node none .program statements)).children :=
    (List.mem_filter.mp member).1
  rw [ImportBinding.ofPlace?] at isBinding
  split at isBinding
  next isImport =>
    obtain ⟨source, _, rfl⟩ := Option.map_eq_some_iff.mp isBinding
    obtain ⟨role, kind, before, after, same, start⟩ := Place.exists_split_of_mem child
    obtain ⟨_, _, rfl⟩ := Script.Tree.node.inj same
    refine ⟨⟨before, place.focus, after, isImport, wellFormed⟩, rfl, ?_⟩
    rw [Place.range, Place.stop, start, show (Place.top _).start = 0 from rfl, Nat.zero_add]
    rfl
  next => cases isBinding

end ImportMeter.Instrument
