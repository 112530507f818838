/-
This file says what the syntax trees of scripts look like: which kinds are tokens, what a list of
arguments, a string, a call and an import declaration are made of.
-/
import ImportMeter.Proofs.Script.Tree
import ImportMeter.Script.Character
import ImportMeter.Script.Word

namespace ImportMeter.Script

/-- True for the kinds of tokens, and of white space and comments. The others are kinds of nodes. -/
def Kind.isToken : Kind → Bool
  | .mark | .blank | .comment | .htmlComment | .hashBangLine | .optionalChain
  | .identifier | .propertyIdentifier | .privatePropertyIdentifier | .shorthandPropertyIdentifier
  | .shorthandPropertyIdentifierPattern | .statementIdentifier
  | .thisWord | .superWord | .trueWord | .falseWord | .nullWord | .undefinedWord | .importWord
  | .number | .stringFragment | .escapeSequence | .htmlCharacterReference
  | .regexPattern | .regexFlags | .jsxText => true
  | _ => false

namespace Tree

/-- White space and comments are tokens. -/
theorem isToken_of_isTrivia {tree : Tree} (trivia : tree.isTrivia = true) :
    tree.kind.isToken = true := by
  rw [isTrivia] at trivia
  revert trivia
  cases tree.kind <;> simp [Kind.isTrivia, Kind.isToken]

/-- What holds of every leaf. -/
structure LeafShape (kind : Kind) (letters : Text) : Prop where
  isToken : kind.isToken = true
  /-- A name begins with a character of its own. -/
  name : kind = .identifier → ∃ first rest, letters = first :: rest ∧ isBlank first = false
  word : kind = .importWord → letters = Word.importWord

/-- What may stand between the callee and the arguments of a call. -/
def BetweenCall (tree : Tree) : Prop :=
  ∃ kind letters, tree = .leaf none kind letters ∧ (kind.isTrivia = true ∨ kind = .optionalChain)

/-- What a node's kind asks of its children. -/
structure NodeShape (kind : Kind) (children : List Tree) : Prop where
  isNode : kind.isToken = false
  /-- Arguments stand in parentheses. -/
  arguments : kind = .arguments → ∃ inner,
    children = .leaf none .mark ['('] :: inner ++ [.leaf none .mark [')']]
  /-- A string is made of tokens. -/
  string : kind = .string → ∀ child ∈ children, child.kind.isToken = true
  /-- An import declaration begins with its keyword. -/
  importStatement : kind = .importStatement → ∃ rest,
    children = .leaf none .mark Word.importWord :: rest
  /-- A call ends with its arguments. -/
  callExpression : kind = .callExpression → ∃ callee middle list,
    children = callee :: middle ++ [list] ∧ callee.role? = some .callee ∧
      list.role? = some .arguments ∧ ∀ tree ∈ middle, BetweenCall tree

/-- The trees that have the shape of syntax trees all the way down. -/
inductive WellFormed : Tree → Prop where
  | leaf {role : Option Role} {kind : Kind} {letters : Text} (shape : LeafShape kind letters) :
      WellFormed (.leaf role kind letters)
  | node {role : Option Role} {kind : Kind} {children : List Tree}
      (shape : NodeShape kind children) (inside : ∀ child ∈ children, WellFormed child) :
      WellFormed (.node role kind children)

namespace WellFormed

theorem leafShape {role : Option Role} {kind : Kind} {letters : Text}
    (wellFormed : WellFormed (.leaf role kind letters)) : LeafShape kind letters := by
  cases wellFormed with
  | leaf shape => exact shape

theorem nodeShape {role : Option Role} {kind : Kind} {children : List Tree}
    (wellFormed : WellFormed (.node role kind children)) : NodeShape kind children := by
  cases wellFormed with
  | node shape _ => exact shape

theorem children {role : Option Role} {kind : Kind} {children : List Tree}
    (wellFormed : WellFormed (.node role kind children)) :
    ∀ child ∈ children, WellFormed child := by
  cases wellFormed with
  | node _ inside => exact inside

/-- A tree whose kind is that of a token is a leaf. -/
theorem eq_leaf {tree : Tree} (wellFormed : WellFormed tree) (token : tree.kind.isToken = true) :
    tree = .leaf tree.role? tree.kind tree.text := by
  cases wellFormed with
  | leaf shape => rfl
  | node shape inside => exact absurd token (by simp [Tree.kind, shape.isNode])

/-- A tree whose kind is that of a node is one. -/
theorem eq_node {tree : Tree} (wellFormed : WellFormed tree) (node : tree.kind.isToken = false) :
    tree = .node tree.role? tree.kind tree.children := by
  cases wellFormed with
  | leaf shape => exact absurd shape.isToken (by simpa [Tree.kind] using node)
  | node shape inside => rfl

theorem withRole {tree : Tree} (wellFormed : WellFormed tree) (role : Option Role) :
    WellFormed (tree.withRole role) := by
  cases wellFormed with
  | leaf shape => exact .leaf shape
  | node shape inside => exact .node shape inside

end WellFormed

end Tree

end ImportMeter.Script
