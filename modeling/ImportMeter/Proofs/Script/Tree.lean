/-
This file collects facts about the text and the width of syntax trees, and the induction from the
children of a node to the node.
-/
import ImportMeter.Script.Place

namespace ImportMeter.Script

namespace Tree

mutual

def decideEq (first second : Tree) : Decidable (first = second) :=
  match first, second with
  | .leaf role kind letters, .leaf otherRole otherKind otherLetters =>
    decidable_of_iff (role = otherRole ∧ kind = otherKind ∧ letters = otherLetters)
      (by rw [Tree.leaf.injEq])
  | .leaf _ _ _, .node _ _ _ => isFalse nofun
  | .node _ _ _, .leaf _ _ _ => isFalse nofun
  | .node role kind children, .node otherRole otherKind otherChildren =>
    have := decideAllEq children otherChildren
    decidable_of_iff (role = otherRole ∧ kind = otherKind ∧ children = otherChildren)
      (by rw [Tree.node.injEq])

def decideAllEq (first second : List Tree) : Decidable (first = second) :=
  match first, second with
  | [], [] => isTrue rfl
  | [], tree :: rest => isFalse (List.cons_ne_nil tree rest).symm
  | tree :: rest, [] => isFalse (List.cons_ne_nil tree rest)
  | tree :: rest, other :: others =>
    have := decideEq tree other
    have := decideAllEq rest others
    decidable_of_iff (tree = other ∧ rest = others) (by rw [List.cons.injEq])

end

instance : DecidableEq Tree := decideEq

/-- A property of trees holds if it passes from the children of a node to the node. -/
@[elab_as_elim]
theorem childInduction {motive : Tree → Prop}
    (leaf : ∀ role kind letters, motive (.leaf role kind letters))
    (node : ∀ role kind children, (∀ child ∈ children, motive child) →
      motive (.node role kind children)) : ∀ tree, motive tree
  | .leaf role kind letters => leaf role kind letters
  | .node role kind children =>
    node role kind children fun child _ => childInduction leaf node child

@[simp] theorem textOfAll_nil : textOfAll [] = [] := rfl

@[simp] theorem textOfAll_cons (tree : Tree) (rest : List Tree) :
    textOfAll (tree :: rest) = tree.text ++ textOfAll rest := rfl

@[simp] theorem textOfAll_append (first second : List Tree) :
    textOfAll (first ++ second) = textOfAll first ++ textOfAll second := by
  induction first with
  | nil => rfl
  | cons tree rest inductionHypothesis =>
      simp only [List.cons_append, textOfAll_cons, inductionHypothesis, List.append_assoc]

@[simp] theorem text_leaf (role : Option Role) (kind : Kind) (letters : Text) :
    (Tree.leaf role kind letters).text = letters := rfl

@[simp] theorem text_node (role : Option Role) (kind : Kind) (children : List Tree) :
    (Tree.node role kind children).text = textOfAll children := rfl

@[simp] theorem text_withRole (tree : Tree) (role : Option Role) :
    (tree.withRole role).text = tree.text := by
  cases tree <;> rfl

@[simp] theorem role?_withRole (tree : Tree) (role : Option Role) :
    (tree.withRole role).role? = role := by
  cases tree <;> rfl

@[simp] theorem kind_withRole (tree : Tree) (role : Option Role) :
    (tree.withRole role).kind = tree.kind := by
  cases tree <;> rfl

@[simp] theorem children_withRole (tree : Tree) (role : Option Role) :
    (tree.withRole role).children = tree.children := by
  cases tree <;> rfl

/-- The number of characters in neighbouring trees. -/
def widthOfAll (trees : List Tree) : Nat := width.widthOfAll trees

@[simp] theorem widthOfAll_nil : widthOfAll [] = 0 := rfl

@[simp] theorem widthOfAll_cons (tree : Tree) (rest : List Tree) :
    widthOfAll (tree :: rest) = tree.width + widthOfAll rest := rfl

@[simp] theorem width_leaf (role : Option Role) (kind : Kind) (letters : Text) :
    (Tree.leaf role kind letters).width = letters.length := rfl

@[simp] theorem width_node (role : Option Role) (kind : Kind) (children : List Tree) :
    (Tree.node role kind children).width = widthOfAll children := rfl

/-- The width of a tree is the length of its text. -/
theorem width_eq (tree : Tree) : tree.width = tree.text.length := by
  induction tree using childInduction with
  | leaf => rfl
  | node role kind children inductionHypothesis =>
      rw [width_node, text_node]
      induction children with
      | nil => rfl
      | cons tree rest restHypothesis =>
          rw [widthOfAll_cons, textOfAll_cons, List.length_append,
            inductionHypothesis tree List.mem_cons_self,
            restHypothesis fun child member =>
              inductionHypothesis child (List.mem_cons_of_mem tree member)]

/-- The width of neighbouring trees is the length of their text. -/
theorem widthOfAll_eq (trees : List Tree) : widthOfAll trees = (textOfAll trees).length :=
  width_eq (.node none .program trees)

@[simp] theorem widthOfAll_append (first second : List Tree) :
    widthOfAll (first ++ second) = widthOfAll first + widthOfAll second := by
  simp only [widthOfAll_eq, textOfAll_append, List.length_append]

@[simp] theorem widthOfAll_reverse (trees : List Tree) :
    widthOfAll trees.reverse = widthOfAll trees := by
  induction trees with
  | nil => rfl
  | cons tree rest inductionHypothesis =>
      rw [List.reverse_cons, widthOfAll_append, inductionHypothesis, widthOfAll_cons,
        widthOfAll_cons, widthOfAll_nil, Nat.add_zero, Nat.add_comm]

end Tree

end ImportMeter.Script
