/-
This file shows that the names under which a script knows the entry point depend on its import
declarations alone, not on where these stand, and that rewriting calls leaves the declarations as they
are.
-/
import ImportMeter.Proofs.Script.Rewriting
import ImportMeter.Instrument.Basic

namespace ImportMeter.Instrument

open Script

/-- What an import declaration says: its source, the local name of its default import and how many names
it binds. -/
structure Declared where
  source : Text
  defaultLocal : Option Text
  specifierCount : Nat

def declaredBy (binding : ImportBinding) : Declared :=
  ⟨binding.source, binding.defaultLocal, binding.specifierCount⟩

/-- The parts of the clause of an import declaration. -/
def clauseOf (children : List Tree) : List Tree :=
  ((children.find? (·.kind = .importClause)).map Tree.children).getD []

/-- What a tree declares, if it is an import declaration. -/
def declared? (tree : Tree) : Option Declared :=
  if tree.kind = .importStatement then
    ((tree.child? .source).bind stringValue?).map fun source =>
      ⟨source, (((clauseOf tree.children).filter (·.kind = .identifier)).getLast?).map Tree.text,
        ((clauseOf tree.children).map ImportBinding.countOf).foldr (· + ·) 0⟩
  else none

/-- True if a declaration imports the target by default. -/
def Declared.imports (declared : Declared) (directory target : Path) : Bool :=
  declared.defaultLocal.isSome &&
    (directory.join ⟨declared.source⟩).normalize = target.normalize

theorem declaredBy_ofPlace? (place : Place) :
    (ImportBinding.ofPlace? place).map declaredBy = declared? place.focus := by
  have clause : (place.children.find? (·.kind = .importClause)).map Place.focus =
      place.focus.children.find? (·.kind = .importClause) := by
    rcases place with ⟨tree, above, start⟩
    cases tree with
    | leaf => rfl
    | node role kind children =>
        have focuses := Place.map_focus_childPlaces role kind above [] start children
        rw [Place.children_eq]
        refine Eq.trans ?_ (congrArg (List.find? fun tree => Decidable.decide (tree.kind = .importClause)) focuses)
        rw [List.find?_map]
        rfl
  have parts : clauseOf place.focus.children =
      ((place.children.find? (·.kind = .importClause)).map (·.focus.children)).getD [] := by
    rw [clauseOf, ← clause, Option.map_map]
    rfl
  rw [ImportBinding.ofPlace?, declared?, ← Place.map_focus_child?, parts]
  by_cases isImport : place.kind = .importStatement
  · have isTree : place.focus.kind = .importStatement := isImport
    rw [if_pos isImport, if_pos isTree, Option.map_map, Option.bind_map]
    rfl
  · have notTree : ¬ place.focus.kind = .importStatement := isImport
    rw [if_neg isImport, if_neg notTree]
    rfl

/-- The import that a script is found to have is the first of its declarations that imports the target. -/
theorem declaredBy_findBinding? (statements : List Tree) (directory target : Path) :
    (findBinding? (.node none .program statements) directory target).map declaredBy =
      (statements.filterMap declared?).find? (·.imports directory target) := by
  have imports : (importsOf (.node none .program statements)).map declaredBy =
      statements.filterMap declared? := by
    have focuses := Place.map_focus_childPlaces none .program [] [] 0 statements
    rw [importsOf, List.map_filterMap, Place.namedChildren, Place.top, Place.children_eq,
      List.filterMap_filter]
    refine Eq.trans ?_ (congrArg (List.filterMap declared?) focuses)
    rw [List.filterMap_map]
    refine congrArg (fun read => List.filterMap read _) (funext fun place => ?_)
    rw [Function.comp_apply, ← declaredBy_ofPlace?]
    split
    next => rfl
    next unnamed =>
      have notImport : place.kind ≠ .importStatement := fun isImport => unnamed (by rw [isImport]; rfl)
      rw [ImportBinding.ofPlace?, if_neg notImport]
      rfl
  rw [← imports, List.find?_map, findBinding?]
  rfl

/-- The import of the target is one of the statements, and no statement in front of it imports the target. -/
theorem findBinding?_split {statements : List Tree} {directory target : Path}
    {binding : ImportBinding}
    (found : findBinding? (.node none .program statements) directory target = some binding) :
    ∃ before after, statements = before ++ binding.statement.focus :: after ∧
      binding.statement.start = Tree.widthOfAll before ∧
      binding.statement.focus.kind = .importStatement ∧
      declared? binding.statement.focus = some (declaredBy binding) ∧
      (declaredBy binding).imports directory target = true ∧
      ∀ tree ∈ before, (declared? tree).any (·.imports directory target) = false := by
  rw [findBinding?, importsOf, List.find?_filterMap] at found
  obtain ⟨place, isFirst, isBinding⟩ := Option.bind_eq_some_iff.mp found
  rw [Place.namedChildren, Place.top, Place.children_eq, List.find?_filter,
    List.find?_eq_some_iff_append] at isFirst
  obtain ⟨imports, front, behind, split, others⟩ := isFirst
  obtain ⟨same, start⟩ := Place.start_of_split split
  have isImport : place.kind = .importStatement := by
    rw [ImportBinding.ofPlace?] at isBinding
    split at isBinding
    next isImport => exact isImport
    next => cases isBinding
  have isPlace : binding.statement = place := by
    rw [ImportBinding.ofPlace?, if_pos isImport] at isBinding
    obtain ⟨_, _, rfl⟩ := Option.map_eq_some_iff.mp isBinding
    rfl
  have declares := declaredBy_ofPlace? place
  rw [isBinding, Option.map_some] at declares
  rw [isPlace]
  rw [Nat.zero_add] at start
  refine ⟨front.map Place.focus, behind.map Place.focus, same, start, isImport, declares.symm, ?_, ?_⟩
  · rw [isBinding, Option.any_some] at imports
    exact (of_decide_eq_true imports).2
  · intro tree member
    obtain ⟨other, inFront, rfl⟩ := List.mem_map.mp member
    have notFirst := others other inFront
    rw [← declaredBy_ofPlace?, Option.any_map]
    by_cases isImport : other.kind = .importStatement
    · rw [isImport] at notFirst
      simp only [Bool.not_eq_true', decide_eq_false_iff_not, not_and, Bool.not_eq_true] at notFirst
      exact notFirst rfl
    · rw [ImportBinding.ofPlace?, if_neg isImport]
      rfl

theorem declared?_node (role : Option Role) (children : List Tree) :
    declared? (.node role .importStatement children) =
      (((Script.Tree.node role .importStatement children).child? .source).bind stringValue?).map
        fun source => ⟨source,
          (((clauseOf children).filter (·.kind = .identifier)).getLast?).map Tree.text,
          ((clauseOf children).map ImportBinding.countOf).foldr (· + ·) 0⟩ :=
  rfl

theorem countOf_rewrite {rewrite : Tree → Tree} (descends : Tree.Descends rewrite) (tree : Tree) :
    ImportBinding.countOf (rewrite tree) = ImportBinding.countOf tree := by
  rw [ImportBinding.countOf, ImportBinding.countOf, descends.kind]
  split
  next => rfl
  next => rfl
  next isNamed =>
    rw [descends.children (by rw [isNamed]; decide), List.filter_map, List.length_map,
      descends.kind_comp]
  next => rfl

theorem clauseOf_rewrite {rewrite : Tree → Tree} (descends : Tree.Descends rewrite)
    (children : List Tree) :
    clauseOf (children.map rewrite) = (clauseOf children).map rewrite := by
  rw [clauseOf, clauseOf, List.find?_map, descends.kind_comp]
  cases found : children.find? (·.kind = .importClause) with
  | none => rfl
  | some clause =>
      have isFound := List.find?_some found
      have isKind : clause.kind = .importClause := of_decide_eq_true isFound
      exact descends.children (by rw [isKind]; decide)

theorem wellFormed_clauseOf {children : List Tree} (wellFormed : ∀ child ∈ children, child.WellFormed) :
    ∀ part ∈ clauseOf children, part.WellFormed := by
  rw [clauseOf]
  cases found : children.find? (·.kind = .importClause) with
  | none => exact nofun
  | some clause =>
      have clauseWellFormed := wellFormed clause (List.mem_of_find?_eq_some found)
      have isFound := List.find?_some found
      have isKind : clause.kind = .importClause := of_decide_eq_true isFound
      rw [clauseWellFormed.eq_node (by rw [isKind]; rfl)] at clauseWellFormed
      exact clauseWellFormed.children

/-- Rewriting calls changes no import declaration. -/
theorem declared?_rewrite {rewrite : Tree → Tree} (descends : Tree.Descends rewrite) {tree : Tree}
    (wellFormed : tree.WellFormed) : declared? (rewrite tree) = declared? tree := by
  by_cases isImport : tree.kind = .importStatement
  · obtain ⟨role, children, rfl⟩ : ∃ role children, tree = .node role .importStatement children := by
      have isNode := wellFormed.eq_node (by rw [isImport]; rfl)
      rw [isImport] at isNode
      exact ⟨_, _, isNode⟩
    have source : ((Script.Tree.node role .importStatement
          (children.map rewrite)).child? .source).bind stringValue? =
        ((Script.Tree.node role .importStatement children).child? .source).bind stringValue? := by
      rw [descends.child?_map]
      cases child : (Script.Tree.node role .importStatement children).child? .source with
      | none => rfl
      | some source =>
          exact descends.stringValue? (wellFormed.children source (List.mem_of_find?_eq_some child))
    have counts : ImportBinding.countOf ∘ rewrite = ImportBinding.countOf :=
      funext (countOf_rewrite descends)
    rw [descends.node role .importStatement children (by decide), declared?_node, declared?_node,
      source, clauseOf_rewrite descends,
      descends.identifiers_map (wellFormed_clauseOf wellFormed.children), List.map_map, counts]
  · rw [declared?, declared?, descends.kind, if_neg isImport, if_neg isImport]

theorem filterMap_declared?_rewrite {rewrite : Tree → Tree} (descends : Tree.Descends rewrite)
    {trees : List Tree} (wellFormed : ∀ tree ∈ trees, tree.WellFormed) :
    (trees.map rewrite).filterMap declared? = trees.filterMap declared? := by
  induction trees with
  | nil => rfl
  | cons tree rest inductionHypothesis =>
      rw [List.map_cons, List.filterMap_cons, List.filterMap_cons,
        declared?_rewrite descends (wellFormed tree List.mem_cons_self),
        inductionHypothesis fun other member => wellFormed other (List.mem_cons_of_mem tree member)]

/-- The trees of a script other than white space and comments. -/
def withoutTrivia (trees : List Tree) : List Tree :=
  trees.filter fun tree => !tree.isTrivia

/-- White space and comments are no import declarations. -/
theorem filterMap_declared?_withoutTrivia (trees : List Tree) :
    (withoutTrivia trees).filterMap declared? = trees.filterMap declared? := by
  rw [withoutTrivia, List.filterMap_filter]
  refine congrArg (fun read => List.filterMap read trees) (funext fun tree => ?_)
  split
  next => rfl
  next trivia =>
    have notImport : tree.kind ≠ .importStatement := by
      intro isImport
      rw [Tree.isTrivia, isImport] at trivia
      exact trivia rfl
    rw [declared?, if_neg notImport]

/-- The names of the entry point are its own and that of its import. -/
theorem mem_localNames {instrumentation : Instrumentation} {binding : Option ImportBinding}
    {name : Text} : name ∈ (instrumentation.localNames binding).2 ↔
      name = instrumentation.entryName ∨ binding.bind (·.defaultLocal) = some name := by
  rw [Instrumentation.localNames]
  cases bound : binding.bind (·.defaultLocal) with
  | none => simp
  | some localName =>
      by_cases same : localName = instrumentation.entryName
      · simp [same, eq_comm]
      · simp [same, eq_comm, or_comm]

end ImportMeter.Instrument
