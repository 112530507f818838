/-
This file inverts the rule of export statements, and compares what a module exports with what is listed: a
name that a pattern binds and the name of a whole module are lost, and all others are listed in order.
-/
import ImportMeter.Proofs.Script.Derivation
import ImportMeter.Proofs.Script.Exported

namespace ImportMeter.Script

open ImportMeter.Script.Tree
open Rule (Derives Gives derives_all derives_any derives_node derives_part derives_ref derives_token
  derives_unless derives_within takes_mark takes_word)

/-! ### Trees behind a gap -/

/-- True for trees with something other than white space and comments, in front of which only these
stand. -/
def Opens (trees : List Tree) : Prop :=
  ∃ gap tree others, IsGap gap ∧ tree.isTrivia = false ∧ trees = gap ++ tree :: others

theorem Opens.append {trees : List Tree} (opens : Opens trees) (more : List Tree) :
    Opens (trees ++ more) := by
  obtain ⟨gap, tree, others, isGap, solid, rfl⟩ := opens
  exact ⟨gap, tree, others ++ more, isGap, solid, List.append_assoc _ _ _⟩

section

variable {rule : Phrase} {rules : List Phrase} {trees : List Tree} {kind : Kind} {lexeme : Lexeme}

theorem derives_opens (solid : kind.isTrivia = false)
    (derives : Derives grammar (.all (.token kind lexeme :: rules)) trees) : Opens trees := by
  obtain ⟨parts, each, rfl⟩ := derives_all.mp derives
  obtain _ | ⟨ofFirst, _⟩ := each
  obtain ⟨gap, letters, isGap, _, rfl⟩ := derives_token.mp ofFirst
  have isSolid : Tree.isTrivia (.leaf none kind letters) = false := solid
  rw [List.flatten_cons]
  exact Opens.append ⟨gap, _, [], isGap, isSolid, rfl⟩ _

/-- A node stands behind the gap in front of its first token. -/
theorem derives_node_opens (opens : ∀ inner, Derives grammar rule inner → Opens inner)
    (derives : Derives grammar (.node kind rule) trees) :
    ∃ gap first others, IsGap gap ∧ first.isTrivia = false ∧
      Derives grammar rule (gap ++ first :: others) ∧
      trees = gap ++ [.node none kind (first :: others)] := by
  obtain ⟨inner, ofInner, rfl⟩ := derives_node.mp derives
  obtain ⟨gap, first, others, isGap, solid, rfl⟩ := opens inner ofInner
  refine ⟨gap, first, others, isGap, solid, ofInner, ?_⟩
  rw [gather, takeWhile_isTrivia isGap solid, dropWhile_isTrivia isGap solid]

theorem derives_mark {letters : Text} (derives : Derives grammar (Phrase.mark letters) trees) :
    ∃ gap, IsGap gap ∧ trees = gap ++ [.leaf none .mark letters] := by
  obtain ⟨gap, taken, isGap, takes, rfl⟩ := derives_token.mp derives
  exact ⟨gap, isGap, by rw [takes_mark takes]⟩

theorem derives_word {letters : Text} (derives : Derives grammar (Phrase.word letters) trees) :
    ∃ gap, IsGap gap ∧ trees = gap ++ [.leaf none .mark letters] := by
  obtain ⟨gap, taken, isGap, takes, rfl⟩ := derives_token.mp derives
  exact ⟨gap, isGap, by rw [takes_word takes]⟩

end

/-! ### The tokens of an export statement -/

/-- True for a tree that is not looked at for the names of an export statement. -/
structure IsInert (tree : Tree) : Prop where
  role : tree.role? ≠ some .declaration
  word : isDefaultWord tree = false
  kind : tree.kind ≠ .exportClause

theorem IsGap.isInert {gap : List Tree} (isGap : IsGap gap) : ∀ tree ∈ gap, IsInert tree := by
  intro tree member
  obtain ⟨kind, letters, rfl, trivia, -, -⟩ := isGap tree member
  refine ⟨nofun, ?_, ?_⟩
  · cases kind <;> first | rfl | cases trivia
  · rintro isClause
    rw [show kind = .exportClause from isClause] at trivia
    cases trivia

/-- The names under which trees behind the word `export` are listed. -/
def listedNames (trees : List Tree) : List Text :=
  (exportsOfStatement (.node none .exportStatement trees)).map Export.name

/-- What is looked at for the names of an export statement. -/
theorem listedNames_eq (trees : List Tree) : listedNames trees =
    if trees.any isDefaultWord then [Word.defaultWord]
    else match trees.find? fun tree => tree.role? = some .declaration with
      | some declaration => declaredNames declaration
      | none =>
        match trees.find? fun tree => tree.kind = .exportClause with
        | some clause =>
          (clause.children.filter (·.kind = .exportSpecifier)).filterMap exportedName?
        | none => [] := by
  by_cases isDefault : trees.any isDefaultWord = true
  · rw [if_pos isDefault, listedNames, exportsOfStatement, if_pos (by exact isDefault)]
    rfl
  · rw [if_neg isDefault, listedNames, exportsOfStatement, if_neg (by exact isDefault), child?]
    change List.map Export.name (match trees.find? fun tree => tree.role? = some .declaration with
      | some declaration => _
      | none => match trees.find? fun tree => tree.kind = .exportClause with
        | some clause => _
        | none => []) = _
    cases trees.find? fun tree => tree.role? = some .declaration with
    | some declaration =>
        simp only [List.map_map]
        exact List.map_id _
    | none =>
        cases trees.find? fun tree => tree.kind = .exportClause with
        | none => rfl
        | some clause =>
            simp only [List.map_filterMap, Option.map_map]
            exact List.filterMap_congr fun specifier _ => Option.map_id'

theorem listedNames_append {front : List Tree} (inert : ∀ tree ∈ front, IsInert tree) (more : List Tree) :
    listedNames (front ++ more) = listedNames more := by
  have declaration : (front ++ more).find? (fun tree => tree.role? = some .declaration) =
      more.find? fun tree => tree.role? = some .declaration := by
    rw [List.find?_append, List.find?_eq_none.mpr fun tree member => by
      rw [decide_eq_true_eq]; exact (inert tree member).role, Option.none_or]
  have clause : (front ++ more).find? (fun tree => tree.kind = .exportClause) =
      more.find? fun tree => tree.kind = .exportClause := by
    rw [List.find?_append, List.find?_eq_none.mpr fun tree member => by
      rw [decide_eq_true_eq]; exact (inert tree member).kind, Option.none_or]
  have word : (front ++ more).any isDefaultWord = more.any isDefaultWord := by
    rw [List.any_append, List.any_eq_false.mpr fun tree member => by
      rw [(inert tree member).word]; exact Bool.false_ne_true, Bool.false_or]
  rw [listedNames_eq, listedNames_eq, declaration, clause, word]

theorem children_node (role : Option Role) (kind : Kind) (children : List Tree) :
    (Tree.node role kind children).children = children := rfl

theorem isDefaultWord_mark (role : Option Role) (letters : Text) :
    isDefaultWord (.leaf role .mark letters) = decide (letters = Word.defaultWord) := by
  by_cases same : letters = Word.defaultWord
  · rw [decide_eq_true same, same]
    rfl
  · rw [decide_eq_false same]
    unfold isDefaultWord
    split
    next isWord => exact absurd (Tree.leaf.inj isWord).2.2 same
    next => rfl

theorem isInert_mark {letters : Text} (other : letters ≠ Word.defaultWord) :
    IsInert (.leaf none .mark letters) := by
  refine ⟨nofun, ?_, nofun⟩
  rw [isDefaultWord_mark, decide_eq_false other]

theorem isInert_node {role : Option Role} {kind : Kind} {children : List Tree}
    (otherRole : role ≠ some .declaration) (otherKind : kind ≠ .exportClause) :
    IsInert (.node role kind children) := ⟨otherRole, rfl, otherKind⟩

/-! ### What stands in front of a name -/

/-- True for what may stand in front of the name in a declaration: white space and comments, words and
marks, and decorators. -/
structure IsModifier (tree : Tree) : Prop where
  role : tree.role? = none
  kind : tree.kind ≠ .identifier
  trivia : tree.isTrivia = true → IsGap [tree]

theorem IsGap.isModifier {gap : List Tree} (isGap : IsGap gap) : ∀ tree ∈ gap, IsModifier tree := by
  intro tree member
  obtain ⟨kind, letters, rfl, shape⟩ := isGap tree member
  refine ⟨rfl, ?_, fun _ => .single shape⟩
  rintro isName
  have trivia := shape.isTrivia
  rw [show kind = .identifier from isName] at trivia
  cases trivia

theorem isModifier_mark (letters : Text) : IsModifier (.leaf none .mark letters) :=
  ⟨rfl, nofun, nofun⟩

theorem Opens.behind {front trees : List Tree} (modifiers : ∀ tree ∈ front, IsModifier tree)
    (opens : Opens trees) : Opens (front ++ trees) := by
  induction front with
  | nil => exact opens
  | cons tree front inductionHypothesis =>
      obtain ⟨ofFirst, ofOthers⟩ := List.forall_mem_cons.mp modifiers
      obtain ⟨gap, first, others, isGap, solid, same⟩ := inductionHypothesis ofOthers
      cases trivia : tree.isTrivia with
      | false => exact ⟨[], tree, front ++ trees, .nil, trivia, rfl⟩
      | true =>
          refine ⟨tree :: gap, first, others, (ofFirst.trivia trivia).append isGap, solid, ?_⟩
          rw [List.cons_append, same, List.cons_append]

section

variable {trees : List Tree}

theorem gives_decorators : Gives grammar (fun tree => IsModifier tree ∧ IsInert tree ∧
    (tree.isTrivia = true ∨ tree.kind = .decorator)) Phrase.decorators := by
  refine .many (.ref fun trees derives => ?_)
  obtain ⟨gap, first, others, isGap, _, _, rfl⟩ :=
    derives_node_opens (fun _ inner => derives_opens rfl inner) derives
  refine List.forall_mem_append.mpr ⟨fun tree member => ?_, List.forall_mem_singleton.mpr ?_⟩
  · exact ⟨isGap.isModifier tree member, isGap.isInert tree member, .inl (isGap.isTrivia tree member)⟩
  · exact ⟨⟨rfl, nofun, nofun⟩, isInert_node nofun nofun, .inr rfl⟩

theorem gives_optional {holds : Tree → Prop} {rule : Phrase} (gives : Gives grammar holds rule) :
    Gives grammar holds (Phrase.optional rule) := .anyCons gives (.anyCons .allNil .anyNil)

theorem gives_modifier (letters : Text) : Gives grammar IsModifier (Phrase.word letters) :=
  .token (fun _ isGap => isGap.isModifier) fun letters _ => isModifier_mark letters

theorem gives_functionStart : Gives grammar IsModifier Phrase.functionStart :=
  .allCons (gives_optional (.allCons (gives_modifier _) (.allCons (.unbroken true) .allNil)))
    (.allCons (gives_modifier _) .allNil)

theorem gives_classStart : Gives grammar IsModifier Phrase.classStart :=
  .allCons (fun trees derives tree member => (gives_decorators trees derives tree member).1)
    (.allCons (gives_modifier _) .allNil)

/-! ### Names -/

theorem derives_string (derives : Derives grammar (.ref .string) trees) :
    ∃ gap children, IsGap gap ∧ trees = gap ++ [.node none .string children] := by
  obtain ⟨quoted, member, derives⟩ := derives_any.mp (derives_ref.mp derives)
  have isNode : ∃ rules quote, quoted = .node .string (.all (.token .mark quote :: rules)) := by
    rcases List.mem_pair.mp member with rfl | rfl
    · exact ⟨_, _, rfl⟩
    · exact ⟨_, _, rfl⟩
  obtain ⟨rules, quote, rfl⟩ := isNode
  obtain ⟨gap, first, others, isGap, _, _, rfl⟩ :=
    derives_node_opens (fun _ inner => derives_opens rfl inner) derives
  exact ⟨gap, _, isGap, rfl⟩

/-- A name in a list of names stands behind a gap. -/
theorem derives_moduleExportName (derives : Derives grammar (.ref .moduleExportName) trees) :
    ∃ gap name, IsGap gap ∧ name.isTrivia = false ∧ trees = gap ++ [name] := by
  obtain ⟨rule, member, derives⟩ := derives_any.mp (derives_ref.mp derives)
  rcases List.mem_pair.mp member with rfl | rfl
  · obtain ⟨gap, letters, isGap, _, rfl⟩ := derives_token.mp derives
    exact ⟨gap, _, isGap, rfl, rfl⟩
  · obtain ⟨gap, children, isGap, rfl⟩ := derives_string derives
    exact ⟨gap, _, isGap, rfl, rfl⟩

theorem derives_part_moduleExportName {role : Role}
    (derives : Derives grammar (.part role (.ref .moduleExportName)) trees) :
    ∃ gap name, IsGap gap ∧ name.isTrivia = false ∧ name.role? = some role ∧ trees = gap ++ [name] := by
  obtain ⟨inner, ofInner, rfl⟩ := derives_part.mp derives
  obtain ⟨gap, name, isGap, solid, rfl⟩ := derives_moduleExportName ofInner
  refine ⟨gap, name.withRole role, isGap, ?_, role?_withRole name role, markLast_append role gap name⟩
  rw [Tree.isTrivia, kind_withRole]
  exact solid

/-- True for a specifier that exports under its last name. -/
def ExportsLast (specifier : Tree) : Prop :=
  ∃ name, specifier.children.getLast? = some name ∧
    exportedName? specifier = some ((stringValue? name).getD name.text)

theorem derives_exportSpecifier (derives : Derives grammar Phrase.exportSpecifier trees) :
    ∃ gap specifier, IsGap gap ∧ ExportsLast specifier ∧ trees = gap ++ [specifier] := by
  obtain ⟨inner, ofInner, rfl⟩ := derives_node.mp derives
  obtain ⟨rule, member, ofRule⟩ := derives_any.mp ofInner
  rcases List.mem_pair.mp member with rfl | rfl
  · obtain ⟨_, each, rfl⟩ := derives_all.mp ofRule
    obtain _ | ⟨ofName, _ | ⟨ofWord, _ | ⟨ofOther, ⟨⟩⟩⟩⟩ := each
    obtain ⟨gap, name, isGap, solid, nameRole, rfl⟩ := derives_part_moduleExportName ofName
    obtain ⟨middle, middleGap, rfl⟩ := derives_word ofWord
    obtain ⟨behind, other, behindGap, _, otherRole, rfl⟩ := derives_part_moduleExportName ofOther
    have inFront : ∀ tree ∈ name :: (middle ++ .leaf none .mark Word.asWord :: behind),
        tree.role? ≠ some .alias := by
      refine List.forall_mem_cons.mpr ⟨by rw [nameRole]; nofun, List.forall_mem_append.mpr
        ⟨fun tree isIn => ?_, List.forall_mem_cons.mpr ⟨nofun, fun tree isIn => ?_⟩⟩⟩
      · rw [(middleGap.isModifier tree isIn).role]
        nofun
      · rw [(behindGap.isModifier tree isIn).role]
        nofun
    have same : [gap ++ [name], middle ++ [.leaf none .mark Word.asWord], behind ++ [other]].flatten =
        gap ++ name :: ((middle ++ .leaf none .mark Word.asWord :: behind) ++ [other]) := by simp
    rw [same, gather, takeWhile_isTrivia isGap solid, dropWhile_isTrivia isGap solid]
    refine ⟨gap, _, isGap, ⟨other, ?_, ?_⟩, rfl⟩
    · rw [children_node, ← List.cons_append, List.getLast?_concat]
    · have isOther : (Tree.node none .exportSpecifier
          (name :: ((middle ++ .leaf none .mark Word.asWord :: behind) ++ [other]))).child? .alias =
          some other := by
        rw [child?, children_node, List.find?_eq_some_iff_append]
        refine ⟨decide_eq_true otherRole, name :: (middle ++ .leaf none .mark Word.asWord :: behind), [],
          rfl, fun tree isIn => ?_⟩
        rw [decide_eq_false (inFront tree isIn)]
        rfl
      rw [exportedName?, isOther]
      rfl
  · obtain ⟨gap, name, isGap, solid, nameRole, rfl⟩ := derives_part_moduleExportName ofRule
    refine ⟨gap, .node none .exportSpecifier [name], isGap, ⟨name, rfl, ?_⟩, ?_⟩
    · simp [exportedName?, child?, children_node, nameRole]
    · rw [gather, takeWhile_isTrivia isGap solid, dropWhile_isTrivia isGap solid]

/-! ### Lists -/

section

variable {kind : Kind} {holds : Tree → Prop} {rule : Phrase} {lexeme : Lexeme}

/-- White space and comments are of no other kind. -/
theorem forall_gap (solid : kind.isTrivia = false) (gap : List Tree) (isGap : IsGap gap) :
    ∀ tree ∈ gap, tree.kind = kind → holds tree := by
  intro tree member isKind
  have trivia := isGap.isTrivia tree member
  rw [Tree.isTrivia, isKind, solid] at trivia
  cases trivia

theorem gives_mark (solid : kind.isTrivia = false) (other : kind ≠ .mark) :
    Gives grammar (fun tree => tree.kind = kind → holds tree) (.token .mark lexeme) :=
  .token (forall_gap solid) fun _ _ isKind => absurd isKind.symm other

/-- What holds of the trees of a kind in each phrase holds of those in phrases with commas between them. -/
theorem gives_separated (solid : kind.isTrivia = false) (other : kind ≠ .mark)
    (each : Gives grammar (fun tree => tree.kind = kind → holds tree) rule) :
    Gives grammar (fun tree => tree.kind = kind → holds tree) (Phrase.separated rule) :=
  .allCons each (.allCons (.many (.allCons (gives_mark solid other) (.allCons each .allNil))) .allNil)

end

/-- The specifiers in a list of names export under their last names. -/
theorem derives_exportClause (derives : Derives grammar Phrase.exportClause trees) :
    ∃ gap children, IsGap gap ∧ trees = gap ++ [.node none .exportClause children] ∧
      ∀ tree ∈ children, tree.kind = .exportSpecifier → ExportsLast tree := by
  obtain ⟨gap, first, others, isGap, _, inner, rfl⟩ :=
    derives_node_opens (fun _ inner => derives_opens rfl inner) derives
  have mark (letters : Text) : Gives grammar (fun tree => tree.kind = .exportSpecifier → ExportsLast tree)
      (Phrase.mark letters) := gives_mark rfl nofun
  have specifier : Gives grammar (fun tree => tree.kind = .exportSpecifier → ExportsLast tree)
      Phrase.exportSpecifier := by
    intro trees derives
    obtain ⟨gap, specifier, isGap, exportsLast, rfl⟩ := derives_exportSpecifier derives
    exact List.forall_mem_append.mpr
      ⟨forall_gap rfl gap isGap, List.forall_mem_singleton.mpr fun _ => exportsLast⟩
  have list : Gives grammar (fun tree => tree.kind = .exportSpecifier → ExportsLast tree)
      (Phrase.listed Phrase.exportSpecifier) :=
    gives_optional (.allCons (gives_separated rfl nofun specifier)
      (.allCons (gives_optional (mark _)) .allNil))
  have among := Gives.allCons (mark _) (.allCons list (.allCons (mark _) .allNil)) _ inner
  exact ⟨gap, _, isGap, rfl, (List.forall_mem_append.mp among).2⟩

/-! ### Declarations -/

/-- True for a declaration under whose names it is listed. -/
def IsListed (declaration : Tree) : Prop :=
  declaredNames declaration = (Exported.ofDeclaration declaration).filterMap Exported.listed?

theorem IsListed.withRole {declaration : Tree} (isListed : IsListed declaration) (role : Option Role) :
    IsListed (declaration.withRole role) := by
  cases declaration <;> exact isListed

/-- The kinds of declarations. -/
def declarationKinds : List Kind :=
  [.functionDeclaration, .generatorFunctionDeclaration, .classDeclaration, .lexicalDeclaration,
    .variableDeclaration]

/-- True for a declaration behind a gap that is listed under its names. -/
def IsDeclared (trees : List Tree) : Prop :=
  ∃ gap kind children, IsGap gap ∧ kind ∈ declarationKinds ∧ IsListed (.node none kind children) ∧
    trees = gap ++ [.node none kind children]

/-- A declaration with a name of its own is listed under it. -/
theorem isListed_named {role : Option Role} {kind : Kind} {gap children front tail : List Tree} {letters : Text}
    (isGap : IsGap gap) (modifiers : ∀ tree ∈ front, IsModifier tree)
    (same : gap ++ children = front ++ .leaf (some .name) .identifier letters :: tail)
    (single : kind ≠ .lexicalDeclaration ∧ kind ≠ .variableDeclaration) :
    IsListed (.node role kind children) := by
  have found (test : Tree → Bool) (skips : ∀ tree, IsModifier tree → test tree = false)
      (finds : test (.leaf (some .name) .identifier letters) = true) :
      children.find? test = some (.leaf (some .name) .identifier letters) := by
    have inGap : gap.find? test = none := by
      rw [List.find?_eq_none]
      intro tree member
      rw [skips tree (isGap.isModifier tree member)]
      exact Bool.false_ne_true
    have whole : (gap ++ children).find? test = some (.leaf (some .name) .identifier letters) := by
      rw [same, List.find?_eq_some_iff_append]
      refine ⟨finds, front, tail, rfl, fun tree member => ?_⟩
      rw [skips tree (modifiers tree member)]
      rfl
    rwa [List.find?_append, inGap, Option.none_or] at whole
  have byRole : (Tree.node role kind children).child? .name = some (.leaf (some .name) .identifier letters) := by
    refine found _ (fun tree modifier => ?_) rfl
    rw [modifier.role]
    rfl
  have byKind : children.find? (fun tree => tree.kind = .identifier) =
      some (.leaf (some .name) .identifier letters) :=
    found _ (fun tree modifier => decide_eq_false modifier.kind) rfl
  have listed : declaredNames (.node role kind children) = [letters] := by
    unfold declaredNames
    split
    next isLexical => exact absurd isLexical single.1
    next isVariable => exact absurd isVariable single.2
    next => rw [byRole]; rfl
  have ofDeclaration : Exported.ofDeclaration (.node role kind children) =
      [.named (.leaf (some .name) .identifier letters)] := by
    unfold Exported.ofDeclaration
    split
    next isLexical => exact absurd isLexical single.1
    next isVariable => exact absurd isVariable single.2
    next => rw [children_node, byKind]; rfl
  rw [IsListed, listed, ofDeclaration]
  rfl

theorem derives_part_token {role : Role} {kind : Kind} {lexeme : Lexeme}
    (derives : Derives grammar (.part role (.token kind lexeme)) trees) :
    ∃ gap letters, IsGap gap ∧ trees = gap ++ [.leaf (some role) kind letters] := by
  obtain ⟨inner, ofInner, rfl⟩ := derives_part.mp derives
  obtain ⟨gap, letters, isGap, _, rfl⟩ := derives_token.mp ofInner
  exact ⟨gap, letters, isGap, markLast_append role gap _⟩

/-- A declaration of a function or a class is listed under its name. -/
theorem derives_named {kind : Kind} {rule : Phrase} (isKind : kind ∈ declarationKinds)
    (single : kind ≠ .lexicalDeclaration ∧ kind ≠ .variableDeclaration)
    (shape : ∀ inner, Derives grammar rule inner → ∃ front letters tail,
      (∀ tree ∈ front, IsModifier tree) ∧ inner = front ++ .leaf (some .name) .identifier letters :: tail)
    (derives : Derives grammar (.node kind rule) trees) : IsDeclared trees := by
  have opens : ∀ inner, Derives grammar rule inner → Opens inner := by
    intro inner ofInner
    obtain ⟨front, letters, tail, modifiers, rfl⟩ := shape inner ofInner
    exact .behind modifiers ⟨[], _, tail, .nil, rfl, rfl⟩
  obtain ⟨gap, first, others, isGap, _, ofInner, rfl⟩ := derives_node_opens opens derives
  obtain ⟨front, letters, tail, modifiers, same⟩ := shape _ ofInner
  exact ⟨gap, kind, _, isGap, isKind, isListed_named isGap modifiers same single, rfl⟩

/-- The name of a function or a class stands behind its modifiers. -/
theorem derives_start {start : Phrase} {rules : List Phrase} {lexeme : Lexeme}
    (modifiers : Gives grammar IsModifier start)
    (derives : Derives grammar (.all (start :: .part .name (.token .identifier lexeme) :: rules)) trees) :
    ∃ front letters tail, (∀ tree ∈ front, IsModifier tree) ∧
      trees = front ++ .leaf (some .name) .identifier letters :: tail := by
  obtain ⟨_, parts, rfl⟩ := derives_all.mp derives
  obtain _ | ⟨ofStart, _ | ⟨ofName, ofOthers⟩⟩ := parts
  obtain ⟨gap, letters, isGap, rfl⟩ := derives_part_token ofName
  rename_i front others
  refine ⟨front ++ gap, letters, others.flatten,
    List.forall_mem_append.mpr ⟨modifiers front ofStart, isGap.isModifier⟩, ?_⟩
  rw [List.flatten_cons, List.flatten_cons, List.append_assoc, List.append_assoc]
  rfl

/-- The mark of a generator is one more modifier. -/
theorem derives_startMark {start mark : Phrase} {rules : List Phrase} {lexeme : Lexeme}
    (ofStart : Gives grammar IsModifier start) (ofMark : Gives grammar IsModifier mark)
    (derives : Derives grammar (.all (start :: mark :: .part .name (.token .identifier lexeme) :: rules))
      trees) :
    ∃ front letters tail, (∀ tree ∈ front, IsModifier tree) ∧
      trees = front ++ .leaf (some .name) .identifier letters :: tail := by
  obtain ⟨_, parts, rfl⟩ := derives_all.mp derives
  obtain _ | ⟨isStart, others⟩ := parts
  obtain ⟨front, letters, tail, modifiers, same⟩ := derives_start ofMark (derives_all.mpr ⟨_, others, rfl⟩)
  refine ⟨_ ++ front, letters, tail, List.forall_mem_append.mpr ⟨ofStart _ isStart, modifiers⟩, ?_⟩
  rw [List.flatten_cons, same, List.append_assoc]

/-! ### Variables -/

/-- True for a declarator with what it declares in front. -/
def NamesFirst (declarator : Tree) : Prop :=
  ∃ target rest, declarator.children = target :: rest ∧ target.role? = some .name

theorem derives_target {lexeme : Lexeme}
    (derives : Derives grammar (.any [.ref .destructuring, .token .identifier lexeme]) trees) :
    ∃ gap target, IsGap gap ∧ target.isTrivia = false ∧ trees = gap ++ [target] := by
  obtain ⟨rule, member, ofRule⟩ := derives_any.mp derives
  rcases List.mem_pair.mp member with rfl | rfl
  · obtain ⟨pattern, isPattern, ofPattern⟩ := derives_any.mp (derives_within.mp (derives_ref.mp ofRule))
    rcases List.mem_pair.mp isPattern with rfl | rfl
    all_goals
      obtain ⟨gap, first, others, isGap, _, _, rfl⟩ :=
        derives_node_opens (fun _ inner => derives_opens rfl inner) ofPattern
      exact ⟨gap, _, isGap, rfl, rfl⟩
  · obtain ⟨gap, letters, isGap, _, rfl⟩ := derives_token.mp ofRule
    exact ⟨gap, _, isGap, rfl, rfl⟩

theorem gives_declarator (lexeme : Lexeme) :
    Gives grammar (fun tree => tree.kind = .variableDeclarator → NamesFirst tree)
      (Phrase.declarator (.any [.ref .destructuring, .token .identifier lexeme])) := by
  intro trees derives
  obtain ⟨inner, ofInner, rfl⟩ := derives_node.mp derives
  obtain ⟨_, parts, rfl⟩ := derives_all.mp ofInner
  obtain _ | ⟨ofPart, ofOthers⟩ := parts
  obtain ⟨_, ofTarget, rfl⟩ := derives_part.mp ofPart
  obtain ⟨gap, target, isGap, solid, rfl⟩ := derives_target ofTarget
  have isSolid : (target.withRole (some .name)).isTrivia = false := by
    rw [Tree.isTrivia, kind_withRole]
    exact solid
  rw [markLast_append, List.flatten_cons, List.append_assoc, gather, List.singleton_append,
    takeWhile_isTrivia isGap isSolid, dropWhile_isTrivia isGap isSolid]
  exact List.forall_mem_append.mpr ⟨forall_gap rfl gap isGap, List.forall_mem_singleton.mpr fun _ =>
    ⟨_, _, rfl, role?_withRole target _⟩⟩

/-- Variables with names are listed, and those in patterns are not. -/
theorem isListed_variables {role : Option Role} {kind : Kind} {children : List Tree}
    (isKind : kind = .lexicalDeclaration ∨ kind = .variableDeclaration)
    (declarators : ∀ tree ∈ children, tree.kind = .variableDeclarator → NamesFirst tree) :
    IsListed (.node role kind children) := by
  have each : ∀ declarator ∈ children.filter (·.kind = .variableDeclarator),
      (((declarator.child? .name).filter (·.kind = .identifier)).map Tree.text).toList =
        (declarator.children.head?.toList.flatMap fun target =>
          if target.kind = .identifier then [Exported.named target]
          else (boundIn target).map .bound).filterMap Exported.listed? := by
    intro declarator member
    obtain ⟨isChild, isDeclarator⟩ := List.mem_filter.mp member
    obtain ⟨target, rest, same, isName⟩ := declarators declarator isChild (of_decide_eq_true isDeclarator)
    have found : declarator.child? .name = some target := by
      simp [child?, same, isName]
    rw [found, same, List.head?_cons, Option.toList_some, List.flatMap_singleton]
    by_cases isIdentifier : target.kind = .identifier
    · have notString : stringValue? target = none := if_neg (by rw [isIdentifier]; nofun)
      simp [Option.filter, isIdentifier, Exported.listed?, notString]
    · have noneListed : ((boundIn target).map Exported.bound).filterMap Exported.listed? = [] := by
        rw [List.filterMap_map]
        exact List.filterMap_eq_nil_iff.mpr fun _ _ => rfl
      simp [Option.filter, isIdentifier, noneListed]
  have names : declaredNames (.node role kind children) =
      (children.filter (·.kind = .variableDeclarator)).filterMap fun declarator =>
        ((declarator.child? .name).filter (·.kind = .identifier)).map Tree.text := by
    rcases isKind with rfl | rfl <;> rfl
  have exported : Exported.ofDeclaration (.node role kind children) =
      (children.filter (·.kind = .variableDeclarator)).flatMap fun declarator =>
        declarator.children.head?.toList.flatMap fun target =>
          if target.kind = .identifier then [Exported.named target] else (boundIn target).map .bound := by
    rcases isKind with rfl | rfl <;> rfl
  rw [IsListed, names, exported, List.filterMap_flatMap, List.filterMap_eq_flatMap_toList]
  exact List.flatMap_congr each

/-- A declaration of variables is listed under the names that are no patterns. -/
theorem derives_variables {kind : Kind} {rule : Phrase}
    (isKind : kind = .lexicalDeclaration ∨ kind = .variableDeclaration)
    (opens : ∀ inner, Derives grammar rule inner → Opens inner)
    (declarators : Gives grammar (fun tree => tree.kind = .variableDeclarator → NamesFirst tree) rule)
    (derives : Derives grammar (.node kind rule) trees) : IsDeclared trees := by
  obtain ⟨gap, first, others, isGap, _, ofInner, rfl⟩ := derives_node_opens opens derives
  have among := (List.forall_mem_append.mp (declarators _ ofInner)).2
  have isDeclaration : kind ∈ declarationKinds := by rcases isKind with rfl | rfl <;> decide
  exact ⟨gap, kind, _, isGap, isDeclaration, isListed_variables isKind among, rfl⟩

theorem derives_functionDeclaration (derives : Derives grammar Phrase.functionDeclaration trees) :
    IsDeclared trees := by
  have generator : Gives grammar IsModifier (Phrase.mark ['*']) :=
    .token (fun _ isGap => isGap.isModifier) fun letters _ => isModifier_mark letters
  obtain ⟨rule, member, ofRule⟩ := derives_any.mp derives
  rcases List.mem_pair.mp member with rfl | rfl
  · exact derives_named (by decide) (by decide)
      (fun _ inner => derives_start gives_functionStart inner) ofRule
  · exact derives_named (by decide) (by decide)
      (fun _ inner => derives_startMark gives_functionStart generator inner) ofRule

theorem derives_classDeclaration (derives : Derives grammar Phrase.classDeclaration trees) :
    IsDeclared trees :=
  derives_named (by decide) (by decide) (fun _ inner => derives_start gives_classStart inner) derives

/-- A word or a mark is no declarator. -/
theorem gives_token (lexeme : Lexeme) :
    Gives grammar (fun tree => tree.kind = .variableDeclarator → NamesFirst tree) (.token .mark lexeme) :=
  gives_mark rfl nofun

theorem gives_semicolon :
    Gives grammar (fun tree => tree.kind = .variableDeclarator → NamesFirst tree) .semicolon :=
  .semicolon (forall_gap rfl) nofun

theorem gives_declarators (lexeme : Lexeme) :
    Gives grammar (fun tree => tree.kind = .variableDeclarator → NamesFirst tree)
      (Phrase.separated (Phrase.declarator (.any [.ref .destructuring, .token .identifier lexeme]))) :=
  gives_separated rfl nofun (gives_declarator lexeme)

theorem derives_lexicalDeclaration (derives : Derives grammar (.ref .lexicalDeclaration) trees) :
    IsDeclared trees := by
  refine derives_variables (.inl rfl) (fun inner ofInner => ?_) ?_ (derives_ref.mp derives)
  · obtain ⟨_, parts, rfl⟩ := derives_all.mp ofInner
    obtain _ | ⟨ofFirst, _⟩ := parts
    obtain ⟨rule, member, ofRule⟩ := derives_any.mp ofFirst
    rw [List.flatten_cons]
    rcases List.mem_pair.mp member with rfl | rfl
    · exact (derives_opens rfl ofRule).append _
    · exact (derives_opens rfl ofRule).append _
  · refine .allCons (.anyCons ?_ (.anyCons ?_ .anyNil)) (.allCons gives_semicolon .allNil)
    · exact .allCons (gives_token _) (.allCons (.unbroken true) (.allCons (gives_declarators _) .allNil))
    · exact .allCons (gives_token _) (.allCons (gives_declarators _) .allNil)

theorem derives_variableDeclaration (derives : Derives grammar (.ref .variableDeclaration) trees) :
    IsDeclared trees :=
  derives_variables (.inr rfl) (fun _ inner => derives_opens rfl inner)
    (.allCons (gives_token _) (.allCons (gives_declarators _) (.allCons gives_semicolon .allNil)))
    (derives_ref.mp derives)

theorem derives_declaration (derives : Derives grammar (.ref .declaration) trees) : IsDeclared trees := by
  obtain ⟨rule, member, ofRule⟩ := derives_any.mp (derives_ref.mp derives)
  simp only [List.mem_cons, List.not_mem_nil, or_false] at member
  rcases member with rfl | rfl | rfl
  · obtain ⟨_, parts, rfl⟩ := derives_all.mp ofRule
    obtain _ | ⟨ofNamed, _ | ⟨ofUnless, ⟨⟩⟩⟩ := parts
    obtain rfl := derives_unless.mp ofUnless
    rw [List.flatten_cons, List.flatten_cons, List.flatten_nil, List.append_nil, List.append_nil]
    obtain ⟨named, isNamed, ofNamed⟩ := derives_any.mp ofNamed
    rcases List.mem_pair.mp isNamed with rfl | rfl
    · exact derives_functionDeclaration ofNamed
    · exact derives_classDeclaration ofNamed
  · exact derives_lexicalDeclaration ofRule
  · exact derives_variableDeclaration ofRule

/-! ### Export statements -/

theorem gives_inert {letters : Text} {lexeme : Lexeme} (spelled : ∀ taken, lexeme.Takes taken → taken = letters)
    (other : letters ≠ Word.defaultWord) : Gives grammar IsInert (.token .mark lexeme) :=
  .token (fun _ isGap => isGap.isInert) fun taken takes => spelled taken takes ▸ isInert_mark other

theorem gives_source : Gives grammar IsInert (.part .source (.ref .string)) := by
  intro trees derives
  obtain ⟨inner, ofInner, rfl⟩ := derives_part.mp derives
  obtain ⟨gap, children, isGap, rfl⟩ := derives_string ofInner
  rw [markLast_append]
  exact List.forall_mem_append.mpr
    ⟨isGap.isInert, List.forall_mem_singleton.mpr (isInert_node nofun nofun)⟩

theorem gives_end : Gives grammar IsInert .semicolon :=
  .semicolon (fun _ isGap => isGap.isInert) (isInert_mark (by decide))

theorem gives_from : Gives grammar IsInert (.all [Phrase.fromClause, .semicolon]) :=
  .allCons (.allCons (gives_inert (fun _ => takes_word) (by decide)) (.allCons gives_source .allNil))
    (.allCons gives_end .allNil)

end

theorem listedNames_inert {trees : List Tree} (inert : ∀ tree ∈ trees, IsInert tree) :
    listedNames trees = [] := by
  rw [← List.append_nil trees, listedNames_append inert]
  rfl

/-- The names in a list are listed. -/
theorem listedNames_clause {children rest : List Tree} (inert : ∀ tree ∈ rest, IsInert tree) :
    listedNames (.node none .exportClause children :: rest) =
      (children.filter (·.kind = .exportSpecifier)).filterMap exportedName? := by
  have word : (Tree.node none .exportClause children :: rest).any isDefaultWord = false := by
    rw [List.any_cons, List.any_eq_false.mpr fun tree member => by
      rw [(inert tree member).word]; exact Bool.false_ne_true]
    rfl
  have declaration : (Tree.node none .exportClause children :: rest).find?
      (fun tree => tree.role? = some .declaration) = none := by
    refine List.find?_eq_none.mpr (List.forall_mem_cons.mpr ⟨nofun, fun tree member => ?_⟩)
    rw [decide_eq_true_eq]
    exact (inert tree member).role
  rw [listedNames_eq, word, declaration]
  rfl

/-- Names that are last in their specifiers are what a list of names exports. -/
theorem filterMap_exportedName? {specifiers : List Tree} (each : ∀ tree ∈ specifiers, ExportsLast tree) :
    specifiers.filterMap exportedName? = (specifiers.flatMap fun specifier =>
      specifier.children.getLast?.toList.map Exported.named).filterMap Exported.listed? := by
  rw [List.filterMap_flatMap, List.filterMap_eq_flatMap_toList]
  refine List.flatMap_congr fun specifier member => ?_
  obtain ⟨name, isLast, exportedAs⟩ := each specifier member
  rw [exportedAs, isLast]
  rfl

theorem filter_significant {gap : List Tree} (isGap : IsGap gap) (rest : List Tree) :
    (gap ++ rest).filter (!·.isTrivia) = rest.filter (!·.isTrivia) := by
  rw [List.filter_append, List.filter_eq_nil_iff.mpr, List.nil_append]
  intro tree member
  rw [isGap.isTrivia tree member]
  exact Bool.false_ne_true

/-- True for what follows the word `export` if it is listed as it exports, but for the names that are
lost. -/
def IsListedBehind (trees : List Tree) : Prop :=
  listedNames trees = (Exported.ofTokens (trees.filter (!·.isTrivia))).filterMap Exported.listed?

theorem isListedBehind_gap {gap : List Tree} (isGap : IsGap gap) (first : Tree) (rest : List Tree)
    (solid : first.isTrivia = false)
    (same : ∀ others, listedNames (first :: rest) =
      (Exported.ofTokens (first :: others)).filterMap Exported.listed?) :
    IsListedBehind (gap ++ first :: rest) := by
  rw [IsListedBehind, filter_significant isGap, List.filter_cons_of_pos (by rw [solid]; rfl),
    listedNames_append isGap.isInert]
  exact same _

section

variable {trees : List Tree}

/-- Nothing is listed for the whole of another module. -/
theorem derives_namespaceExport
    (derives : Derives grammar (.all [Phrase.namespaceExport, Phrase.fromClause, .semicolon]) trees) :
    IsListedBehind trees := by
  obtain ⟨_, parts, rfl⟩ := derives_all.mp derives
  obtain _ | ⟨ofNamespace, others⟩ := parts
  obtain ⟨gap, first, rest, isGap, _, _, rfl⟩ :=
    derives_node_opens (fun _ inner => derives_opens rfl inner) ofNamespace
  have inert := gives_from _ (derives_all.mpr ⟨_, others, rfl⟩)
  rw [List.flatten_cons, List.append_assoc, List.singleton_append]
  refine isListedBehind_gap isGap _ _ rfl fun others => ?_
  have whole : IsInert (.node none .namespaceExport (first :: rest)) := isInert_node nofun nofun
  rw [listedNames_inert (List.forall_mem_cons.mpr ⟨whole, inert⟩)]
  refine (List.filterMap_eq_nil_iff.mpr fun entry member => ?_).symm
  obtain ⟨name, _, rfl⟩ := List.mem_map.mp member
  rfl

/-- Names that only pass through are not looked for. -/
theorem derives_exportAll
    (derives : Derives grammar (.all [Phrase.mark ['*'], Phrase.fromClause, .semicolon]) trees) :
    IsListedBehind trees := by
  obtain ⟨_, parts, rfl⟩ := derives_all.mp derives
  obtain _ | ⟨ofMark, others⟩ := parts
  obtain ⟨gap, isGap, rfl⟩ := derives_mark ofMark
  have inert := gives_from _ (derives_all.mpr ⟨_, others, rfl⟩)
  rw [List.flatten_cons, List.append_assoc, List.singleton_append]
  refine isListedBehind_gap isGap _ _ rfl fun others => ?_
  rw [listedNames_inert (List.forall_mem_cons.mpr ⟨isInert_mark (by decide), inert⟩)]
  rfl

/-- The names in a list are listed. -/
theorem derives_exportList {rules : List Phrase} (behind : Gives grammar IsInert (.all rules))
    (derives : Derives grammar (.all (Phrase.exportClause :: rules)) trees) : IsListedBehind trees := by
  obtain ⟨_, parts, rfl⟩ := derives_all.mp derives
  obtain _ | ⟨ofClause, others⟩ := parts
  obtain ⟨gap, children, isGap, rfl, specifiers⟩ := derives_exportClause ofClause
  have inert := behind _ (derives_all.mpr ⟨_, others, rfl⟩)
  rw [List.flatten_cons, List.append_assoc, List.singleton_append]
  refine isListedBehind_gap isGap _ _ rfl fun others => ?_
  rw [listedNames_clause inert, filterMap_exportedName?]
  · rfl
  · intro specifier member
    obtain ⟨isChild, isSpecifier⟩ := List.mem_filter.mp member
    exact specifiers specifier isChild (of_decide_eq_true isSpecifier)

/-- The names of a declaration are listed. -/
theorem derives_exportDeclared
    (derives : Derives grammar (.part .declaration (.ref .declaration)) trees) : IsListedBehind trees := by
  obtain ⟨inner, ofInner, rfl⟩ := derives_part.mp derives
  obtain ⟨gap, kind, children, isGap, isKind, isListed, rfl⟩ := derives_declaration ofInner
  have noneTrivia : ∀ kind ∈ declarationKinds, kind.isTrivia = false := by decide
  have solid := noneTrivia kind isKind
  rw [markLast_append]
  refine isListedBehind_gap isGap _ _ solid fun others => ?_
  have listed : listedNames [(Tree.node none kind children).withRole (some .declaration)] =
      declaredNames (.node (some .declaration) kind children) := by
    rw [listedNames_eq]
    rfl
  have tokens : Exported.ofTokens ((Tree.node none kind children).withRole (some .declaration) :: others) =
      Exported.ofDeclaration (.node (some .declaration) kind children) := by
    simp only [declarationKinds, List.mem_cons, List.not_mem_nil, or_false] at isKind
    rcases isKind with rfl | rfl | rfl | rfl | rfl <;> rfl
  rw [listed, tokens]
  exact isListed.withRole (some .declaration)

/-- A default export is listed, whatever it is. -/
theorem derives_exportDefault {rules : List Phrase}
    (derives : Derives grammar (.all (Phrase.word Word.defaultWord :: rules)) trees) :
    IsListedBehind trees := by
  obtain ⟨_, parts, rfl⟩ := derives_all.mp derives
  obtain _ | ⟨ofWord, others⟩ := parts
  obtain ⟨gap, isGap, rfl⟩ := derives_word ofWord
  rw [List.flatten_cons, List.append_assoc, List.singleton_append]
  refine isListedBehind_gap isGap _ _ rfl fun others => ?_
  rw [listedNames_eq]
  rfl

theorem derives_exported (derives : Derives grammar Phrase.exported trees) : IsListedBehind trees := by
  obtain ⟨rule, member, ofRule⟩ := derives_any.mp derives
  simp only [List.mem_cons, List.not_mem_nil, or_false] at member
  rcases member with rfl | rfl | rfl | rfl | rfl | rfl
  · exact derives_namespaceExport ofRule
  · exact derives_exportAll ofRule
  · exact derives_exportList (.allCons (.unbroken false) gives_from) ofRule
  · exact derives_exportList (.allCons gives_end .allNil) ofRule
  · exact derives_exportDeclared ofRule
  · exact derives_exportDefault ofRule

/-- An export statement is listed as it exports, but for the names that are lost. -/
theorem derives_exportStatement (role : Option Role)
    (derives : Derives grammar (.all [Phrase.decorators, Phrase.word Word.exportWord, .unbroken true,
      Phrase.exported]) trees) :
    (exportsOfStatement (.node role .exportStatement (trees.dropWhile Tree.isTrivia))).map Export.name =
      (Exported.ofStatement (.node role .exportStatement (trees.dropWhile Tree.isTrivia))).filterMap
        Exported.listed? := by
  obtain ⟨_, parts, same⟩ := derives_all.mp derives
  obtain _ | ⟨ofDecorators, _ | ⟨ofWord, _ | ⟨ofUnbroken, _ | ⟨ofExported, ⟨⟩⟩⟩⟩⟩ := parts
  rename_i decorators _ _ more
  have front := gives_decorators decorators ofDecorators
  obtain ⟨gap, isGap, rfl⟩ := derives_word ofWord
  cases ofUnbroken
  have isListed := derives_exported ofExported
  replace same : trees = decorators ++ (gap ++ .leaf none .mark Word.exportWord :: more) := by
    rw [same]
    simp
  obtain ⟨blank, first, others, isBlank, solid, split⟩ : Opens trees := by
    rw [same]
    exact .behind (fun tree member => (front tree member).1) ⟨gap, _, more, isGap, rfl, rfl⟩
  have names : listedNames (first :: others) = listedNames more := by
    rw [← listedNames_append isBlank.isInert, ← split, same,
      listedNames_append fun tree member => (front tree member).2.1, listedNames_append isGap.isInert,
      ← List.singleton_append, listedNames_append]
    exact List.forall_mem_singleton.mpr (isInert_mark (by decide))
  have tokens : ((first :: others).filter (!·.isTrivia)).dropWhile (·.kind = .decorator) =
      .leaf none .mark Word.exportWord :: more.filter (!·.isTrivia) := by
    have isDecorator : ∀ tree ∈ decorators.filter (!·.isTrivia), decide (tree.kind = .decorator) = true := by
      intro tree member
      obtain ⟨isIn, solid⟩ := List.mem_filter.mp member
      rw [Bool.not_eq_true'] at solid
      have either := (front tree isIn).2.2
      rw [solid] at either
      exact decide_eq_true (either.resolve_left Bool.false_ne_true)
    rw [← filter_significant isBlank, ← split, same, List.filter_append, filter_significant isGap,
      List.dropWhile_append_of_pos isDecorator]
    rfl
  rw [split, dropWhile_isTrivia isBlank solid, Exported.ofStatement, children_node, tokens, List.tail_cons]
  exact names.trans isListed

end

/-! ### The exports of a module -/

theorem grammar_builds (symbol : Symbol) (other : symbol ≠ .exportDeclaration) :
    (grammar symbol).builders.all (fun rule => !rule.builds .exportStatement) = true := by
  cases symbol with
  | exportDeclaration => exact absurd rfl other
  | binary level =>
      exact forall_binary
        (fun phrase => phrase.builders.all (fun rule => !rule.builds .exportStatement) = true)
        (by decide +kernel) level
  | _ => decide +kernel

/-- Only one rule builds export statements. -/
theorem eq_exportDeclaration {rule : Phrase} (isBuilder : IsBuilder rule)
    (builds : rule.builds .exportStatement = true) : rule = Phrase.exportDeclaration :=
  isBuilder.eq_of_builds builds (by decide +kernel) grammar_builds rfl
    (by decide +kernel)

/-- Every export statement is read by that rule. -/
theorem exists_exportStatement {tree : Tree} (builtBy : Rule.BuiltBy grammar IsBuilder tree)
    (isStatement : tree.kind = .exportStatement) : ∃ role trees,
      Derives grammar (.all [Phrase.decorators, Phrase.word Word.exportWord, .unbroken true,
        Phrase.exported]) trees ∧ tree = .node role .exportStatement (trees.dropWhile Tree.isTrivia) := by
  cases builtBy with
  | trivia _ shape =>
      obtain rfl := isStatement
      cases shape.isTrivia
  | semicolon => cases isStatement
  | token _ isAmong _ =>
      rcases isAmong with isToken | isGlued
      · cases eq_exportDeclaration isToken (decide_eq_true isStatement)
      · cases eq_exportDeclaration isGlued (decide_eq_true isStatement)
  | node role isAmong derives =>
      obtain ⟨rfl, rfl⟩ := Rule.node.inj (eq_exportDeclaration isAmong (decide_eq_true isStatement))
      exact ⟨role, _, derives, rfl⟩
  | link _ isAmong member =>
      cases eq_exportDeclaration isAmong
        (List.any_eq_true.mpr ⟨_, member, by exact decide_eq_true isStatement⟩)

/-- A module is listed as it exports, but for the names that are lost. -/
theorem map_name_exportsOf {source : Text} {tree : Tree} (parsed : parse? source = some tree) :
    (exportsOf tree).map Export.name = (exported tree).filterMap Exported.listed? := by
  rw [exportsOf, exported, List.map_flatMap, List.filterMap_flatMap]
  refine List.flatMap_congr fun statement member => ?_
  obtain ⟨isChild, isStatement⟩ := List.mem_filter.mp member
  obtain ⟨role, trees, derives, rfl⟩ :=
    exists_exportStatement (parse?_builtBy parsed statement isChild) (of_decide_eq_true isStatement)
  exact derives_exportStatement role derives

/-- An exported name is listed as the text that it is, unless it is lost or misread. -/
theorem exists_listed? {tree : Tree} (isLiteral : IsLiteral tree) (isModule : tree.kind = .program)
    {entry : Exported} (member : entry ∈ exported tree) (kept : entry.isLost = false) :
    ∃ text, entry.listed? = some text ∧ ∀ name, entry.HasName name →
      (¬ entry.IsMisnamed → text = name) ∧ (entry.IsEscaped → text ≠ name) := by
  cases entry with
  | default => exact ⟨_, rfl, fun name hasName => ⟨fun _ => Eq.symm hasName, nofun⟩⟩
  | named tree =>
      have isName := isLiteral_of_named isLiteral isModule member
      exact ⟨_, rfl, fun name hasName => isName.getD_stringValue? hasName⟩
  | bound | whole => cases kept

/-- What is listed stands beside the names that are not lost. -/
theorem forall₂_listed? {entries : List Exported} {holds : Text → Exported → Prop}
    (each : ∀ entry ∈ entries, entry.isLost = false →
      ∃ text, entry.listed? = some text ∧ holds text entry) :
    List.Forall₂ holds (entries.filterMap Exported.listed?) (entries.filter (!·.isLost)) := by
  induction entries with
  | nil => exact .nil
  | cons entry entries inductionHypothesis =>
      obtain ⟨ofFirst, ofOthers⟩ := List.forall_mem_cons.mp each
      have others := inductionHypothesis ofOthers
      cases lost : entry.isLost with
      | true =>
          have unlisted : entry.listed? = none := by cases entry <;> first | rfl | cases lost
          rw [List.filterMap_cons_none unlisted, List.filter_cons_of_neg (by simp [lost])]
          exact others
      | false =>
          obtain ⟨text, isListed, same⟩ := ofFirst lost
          rw [List.filterMap_cons_some isListed, List.filter_cons_of_pos (by simp [lost])]
          exact .cons same others

/-- Names that are all listed as what they are make up the list. -/
theorem filterMap_listed? {entries : List Exported} {names : List Text}
    (each : ∀ entry ∈ entries, ∃ text, entry.listed? = some text ∧ ∀ name, entry.HasName name → text = name)
    (hasNames : List.Forall₂ Exported.HasName entries names) :
    entries.filterMap Exported.listed? = names := by
  induction hasNames with
  | nil => rfl
  | cons hasName _ inductionHypothesis =>
      obtain ⟨⟨text, isListed, same⟩, ofOthers⟩ := List.forall_mem_cons.mp each
      rw [List.filterMap_cons_some isListed, inductionHypothesis ofOthers, same _ hasName]

/-- All exported names are listed in source order but those that a pattern binds and those of whole modules,
each as the text that it is by the rules of the language, unless it has an escape that is misread. The list
is right exactly when no name is lost. -/
theorem exportsOf_exported {source : Text} {tree : Tree} (parsed : parse? source = some tree) :
    List.Forall₂ (fun (listing : Export) (entry : Exported) => ∀ name, entry.HasName name →
        (¬ entry.IsMisnamed → listing.name = name) ∧ (entry.IsEscaped → listing.name ≠ name))
      (exportsOf tree) ((exported tree).filter (!·.isLost)) ∧
    ∀ names, List.Forall₂ Exported.HasName (exported tree) names →
      (∀ entry ∈ exported tree, ¬ entry.IsMisnamed) →
        ((exportsOf tree).map Export.name = names ↔ ∀ entry ∈ exported tree, entry.isLost = false) := by
  have isLiteral := parse?_isLiteral parsed
  obtain ⟨_, _, statements, rfl⟩ := parse?_sound parsed
  have listed := map_name_exportsOf parsed
  constructor
  · have beside := forall₂_listed? fun entry member kept => exists_listed? isLiteral rfl member kept
    rw [← listed] at beside
    exact List.forall₂_map_left_iff.mp beside
  · intro names hasNames read
    rw [listed]
    constructor
    · intro same entry member
      have length := congrArg List.length same
      rw [← hasNames.length_eq, List.filterMap_length_eq_length] at length
      have isListed := length entry member
      cases entry <;> first | rfl | cases isListed
    · intro kept
      refine filterMap_listed? (fun entry member => ?_) hasNames
      obtain ⟨text, isListed, same⟩ := exists_listed? isLiteral rfl member (kept entry member)
      exact ⟨text, isListed, fun name hasName => (same name hasName).1 (read entry member)⟩

/-- Exports of which none is lost. -/
def keptExports : Text := "export let d;export\x7ba as 'b'\x7d;export default 0".toList

theorem exportsOf_exported_keptExports :
    ∃ tree, parse? keptExports = some tree ∧
      List.Forall₂ Exported.HasName (exported tree) ["d".toList, "b".toList, "default".toList] ∧
      (exportsOf tree).map Export.name = ["d".toList, "b".toList, "default".toList] := by
  have reads : (parse? keptExports).any (fun tree => decide (exported tree =
      [.named (.leaf (some .name) .identifier ['d']), .named (.node (some .alias) .string
        [.leaf none .mark ['\x27'], .leaf none .stringFragment ['b'], .leaf none .mark ['\x27']]),
        .default])) = true := by
    decide +kernel
  obtain ⟨tree, parsed, isExported⟩ := (Option.any_eq_true _ _).mp reads
  have isExported := of_decide_eq_true isExported
  have letter : HasValue "'b'".toList "b".toList :=
    ⟨'\x27', _, .inr rfl, rfl, .plain (by decide) (by decide) (by decide) (.close [])⟩
  have hasNames : List.Forall₂ Exported.HasName (exported tree)
      ["d".toList, "b".toList, "default".toList] := by
    rw [isExported]
    exact .cons ((hasName_identifier (by decide)).mpr (.plain (by decide) .nil))
      (.cons ((hasName_string rfl).mpr letter) (.cons rfl .nil))
  have read : ∀ entry ∈ exported tree, ¬ entry.IsMisnamed := by
    rw [isExported]
    simp [Exported.IsMisnamed, Tree.IsMisnamed, Tree.IsEscaped, Tree.kind, Tree.children]
  have kept : ∀ entry ∈ exported tree, entry.isLost = false := by
    rw [isExported]
    decide
  exact ⟨tree, parsed, hasNames, ((exportsOf_exported parsed).2 _ hasNames read).mpr kept⟩

/-- True for a module that exports these names and of which others are listed. -/
def IsMislisted (source : Text) (names : List Text) : Prop :=
  ∃ tree, parse? source = some tree ∧ List.Forall₂ Exported.HasName (exported tree) names ∧
    (exportsOf tree).map Export.name ≠ names

theorem isMislisted_of_reads {source : Text} {entry : Exported} {name : Text}
    (hasName : entry.HasName name)
    (reads : (parse? source).any (fun tree => decide (exported tree = [entry]) &&
      decide ((exportsOf tree).map Export.name ≠ [name])) = true) :
    IsMislisted source [name] := by
  obtain ⟨tree, parsed, checked⟩ := (Option.any_eq_true _ _).mp reads
  rw [Bool.and_eq_true, decide_eq_true_eq, decide_eq_true_eq] at checked
  exact ⟨tree, parsed, checked.1 ▸ .cons hasName .nil, checked.2⟩

/-- A name in a pattern, that of a whole module and an escaped one. -/
theorem exportsOf_exported_lostExports :
    IsMislisted "export const \x7b a \x7d = o;\n".toList ["a".toList] ∧
    IsMislisted "export * as ns from './m.js';\n".toList ["ns".toList] ∧
    IsMislisted "export const \\u0061 = 1;\n".toList ["a".toList] := by
  have letter : IsNumeral 16 "0061".toList 'a'.toNat :=
    ⟨[0, 0, 6, 1], .cons (by decide) (.cons (by decide) (.cons (by decide) (.cons (by decide) .nil))),
      by decide, rfl⟩
  have inPattern : (Exported.bound (.leaf none .shorthandPropertyIdentifierPattern ['a'])).HasName ['a'] :=
    (hasName_identifier (by decide)).mpr (.plain (by decide) .nil)
  have ofModule : (Exported.whole (.leaf none .identifier "ns".toList)).HasName "ns".toList :=
    (hasName_identifier (by decide)).mpr (.plain (by decide) (.plain (by decide) .nil))
  have escaped : (Exported.named (.leaf (some .name) .identifier "\\u0061".toList)).HasName ['a'] :=
    (hasName_identifier (by decide)).mpr (.unit letter rfl .nil)
  refine ⟨isMislisted_of_reads inPattern ?_, isMislisted_of_reads ofModule ?_,
    isMislisted_of_reads escaped ?_⟩
  · decide +kernel
  · decide +kernel
  · decide +kernel

end ImportMeter.Script
